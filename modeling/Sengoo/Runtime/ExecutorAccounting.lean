import Sengoo.Runtime.ExecutorEffect

/-!
The accounts of the executor. In every run, at every point between two critical
sections, the number of active tasks is the number of pending statuses and of
registered controls, and each pending task is in one entry of the queue of its
worker or in the hands of one activation of `poll_task`. From this it follows that
a poll runs alone, on a pending task that was not cancelled or dropped, that a
status becomes final once, and that nothing is left when `shutdown` returns.
-/

namespace Sengoo.Runtime.Executor

open AList Concurrency Function History List Table

variable {capacity position n : Nat} {hand : List (ConcurrentTask n × Phase)} {thread : Thread n}
  {before after queue : List (QueuedTask n)} {control : ConcurrentTask n} {outcome : Outcome n}
  {task : QueuedTask n}

section Accounts

abbrev Held (n : Nat) := Thread n → List (ConcurrentTask n × Phase)

variable {index : Fin n}

/-- How many entries a control has in the queue of its worker. -/
def queuedTimes (s : Shared n) (control : ConcurrentTask n) : Nat :=
  (s.state.queues control.workerIndex).countP fun task => task.control = control

/-- How many activations of a thread have the control in hand. -/
def heldTimes (held : Held n) (control : ConcurrentTask n) (thread : Thread n) : Nat :=
  (held thread).countP fun entry => entry.1 = control

/-- Task ids that were given out are behind the counter: the ids of the statuses
are among as many positions before `position`, and the next id that can be given
out has this position. -/
structure Behind (s : Shared n) (position : Nat) : Prop where
  counter : s.nextConcurrentTaskId < 2 ^ 64
  next : s.nextConcurrentTaskId < concurrentTaskIdTag ∧
      s.nextConcurrentTaskId = position % (concurrentTaskIdTag - 1) + 1 ∨
    (s.nextConcurrentTaskId = 0 ∨ concurrentTaskIdTag ≤ s.nextConcurrentTaskId) ∧
      position % (concurrentTaskIdTag - 1) = 0
  given : ∀ id : Nat, id ∈ s.state.statuses → ∃ place, place < position ∧
    position ≤ place + s.state.statuses.keys.length ∧ id = place % (concurrentTaskIdTag - 1) + 1

structure Accounted (capacity : Nat) (s : Shared n) (held : Held n) : Prop where
  active_pending : s.state.active = s.state.statuses.count fun status => status = .pending
  active_controls : s.state.active = s.state.controls.keys.length
  le_capacity : s.state.active ≤ capacity
  control_id : ∀ id control, s.state.controls.lookup id = some control → control.id = id
  pending_iff : ∀ id,
    (s.state.controls.lookup id).isSome ↔ s.state.statuses.lookup id = some .pending
  queued : ∀ index, ∀ task ∈ s.state.queues index,
    s.state.controls.lookup task.control.id = some task.control ∧
      task.control.workerIndex = index ∧ s.task task.control.id = true
  inHand : ∀ thread, ∀ entry ∈ held thread, s.state.controls.lookup entry.1.id = some entry.1 ∧
      thread = .worker entry.1.workerIndex ∧ s.task entry.1.id = entry.2.full
  located : ∀ id control, s.state.controls.lookup id = some control →
    Custody (queuedTimes s control) (heldTimes held control)
  stopped : s.state.stopWorkers = true → s.state.active = 0 ∧ s.state.accepting = false
  behind : ∃ position, Behind s position

variable {s t : Shared n} {held : Held n} {rest : List (ConcurrentTask n × Phase)} {phase : Phase}

/-- A task in the hands of an activation has no entry in a queue and is in no other
hands. -/
structure Alone (s : Shared n) (held : Held n) (thread : Thread n)
    (rest : List (ConcurrentTask n × Phase)) (control : ConcurrentTask n) : Prop where
  queues : ∀ index, ∀ task ∈ s.state.queues index, task.control.id ≠ control.id
  rest : ∀ entry ∈ rest, entry.1.id ≠ control.id
  others : ∀ other, other ≠ thread → ∀ entry ∈ held other, entry.1.id ≠ control.id

theorem heldTimes_eq_zero {other : Thread n} (h : heldTimes held control other = 0) :
    ∀ entry ∈ held other, entry.1 ≠ control := by
  intro entry hentry heq
  exact (countP_eq_zero.mp h) entry hentry (by simpa using heq)

section

variable (h : Accounted capacity s held)
include h

theorem Accounted.alone (hheld : held thread = (control, phase) :: rest) :
    Alone s held thread rest control := by
  have hregistered : s.state.controls.lookup control.id = some control :=
    (h.inHand thread (control, phase) (hheld ▸ mem_cons_self)).1
  have same : ∀ other, s.state.controls.lookup other.id = some other → other.id = control.id →
      other = control := by
    intro other hother hid
    rw [hid, hregistered] at hother
    exact (Option.some.inj hother).symm
  have hcount : heldTimes held control thread = 1 + rest.countP fun entry => entry.1 = control := by
    rw [heldTimes, hheld]
    simp [Nat.add_comm]
  obtain ⟨hstored, hone, hothers⟩ := (h.located _ _ hregistered).alone
    (show 0 < heldTimes held control thread by omega)
  refine ⟨?_, ?_, ?_⟩
  · intro index task htask hid
    obtain ⟨hlookup, hindex, -⟩ := h.queued index task htask
    have heq := same _ hlookup hid
    rw [heq] at hindex
    subst hindex
    exact (countP_eq_zero.mp hstored) task htask (by simpa using heq)
  · intro entry hentry hid
    have hmem : entry ∈ held thread := by
      rw [hheld]
      exact mem_cons_of_mem _ hentry
    have heq := same _ (h.inHand thread entry hmem).1 hid
    have hrest : rest.countP (fun entry => entry.1 = control) = 0 := by omega
    exact (countP_eq_zero.mp hrest) entry hentry (by simpa using heq)
  · intro other hne entry hentry hid
    exact heldTimes_eq_zero (hothers other hne) entry hentry
      (same _ (h.inHand other entry hentry).1 hid)

theorem Accounted.pending {id : TaskId} (hlookup : s.state.controls.lookup id = some control) :
    s.state.statuses.lookup id = some .pending :=
  (h.pending_iff id).mp (by rw [hlookup]; rfl)

theorem Accounted.head (hheld : held thread = (control, phase) :: rest) :
    s.state.controls.lookup control.id = some control ∧ thread = .worker control.workerIndex ∧
      s.task control.id = phase.full :=
  h.inHand thread (control, phase) (hheld ▸ mem_cons_self)

theorem Accounted.tail (hheld : held thread = (control, phase) :: rest)
    {entry : ConcurrentTask n × Phase} (hentry : entry ∈ rest) :
    s.state.controls.lookup entry.1.id = some entry.1 ∧
      thread = .worker entry.1.workerIndex ∧ s.task entry.1.id = entry.2.full :=
  h.inHand thread entry (hheld ▸ mem_cons_of_mem _ hentry)

end

/-- An entry of a queue after one queue was replaced. -/
theorem mem_update_queue {queues : Fin n → List (QueuedTask n)} {index other : Fin n}
    (h : task ∈ Function.update queues index queue other) :
    other = index ∧ task ∈ queue ∨ task ∈ queues other := by
  rw [update_apply] at h
  split_ifs at h with hother
  · exact .inl ⟨hother, h⟩
  · exact .inr h

/-- An entry of a queue after one entry was put behind the queue of its worker. -/
theorem mem_push_queue {queues : Fin n → List (QueuedTask n)} {wakeup : Option Nat}
    (h : task ∈ Function.update queues control.workerIndex
      (queues control.workerIndex ++ [⟨control, wakeup⟩]) index) :
    task ∈ queues index ∨ index = control.workerIndex ∧ task = ⟨control, wakeup⟩ := by
  rcases mem_update_queue h with ⟨rfl, hmem⟩ | hold
  · rcases mem_append.mp hmem with hold | hnew
    · exact .inl hold
    · exact .inr ⟨rfl, mem_singleton.mp hnew⟩
  · exact .inl hold

theorem heldTimes_update (hand : List (ConcurrentTask n × Phase)) (control : ConcurrentTask n) :
    heldTimes (Function.update held thread hand) control =
      Function.update (heldTimes held control) thread
        (hand.countP fun entry => entry.1 = control) := by
  funext other
  exact apply_update (fun _ hand => hand.countP fun entry => entry.1 = control) held ..

/-- What is said of every entry in the hands of a thread holds of the new hand and
of the others. -/
theorem forall_update {P : Thread n → ConcurrentTask n × Phase → Prop}
    (hhand : ∀ entry ∈ hand, P thread entry)
    (hothers : ∀ other, other ≠ thread → ∀ entry ∈ held other, P other entry) :
    ∀ other, ∀ entry ∈ Function.update held thread hand other, P other entry :=
  (forall_update_iff held fun other hand => ∀ entry ∈ hand, P other entry).mpr
    ⟨hhand, hothers⟩

/-- Two positions less than a whole round apart are different ids. -/
theorem mod_ne_of_near {round place length : Nat} (hlt : place < position)
    (hle : position ≤ place + length) (hround : length < round) :
    place % round ≠ position % round := by
  intro heq
  have hdvd := Nat.dvd_of_mod_eq_zero (Nat.sub_mod_eq_zero_of_mod_eq heq.symm)
  have := Nat.le_of_dvd (Nat.sub_pos_of_lt hlt) hdvd
  omega

/-- The counter passes an id that cannot be given out. -/
theorem Behind.skip (h : Behind s position)
    (hskip : s.nextConcurrentTaskId = 0 ∨ concurrentTaskIdTag ≤ s.nextConcurrentTaskId)
    (hnext : t.nextConcurrentTaskId = (s.nextConcurrentTaskId + 1) % 2 ^ 64)
    (hstatuses : t.state.statuses = s.state.statuses) : Behind t position := by
  obtain ⟨hcounter, hposition, hgiven⟩ := h
  refine ⟨?_, ?_, ?_⟩
  · rw [hnext]
    exact Nat.mod_lt _ (by decide)
  · rw [hnext]
    omega
  · rw [hstatuses]
    exact hgiven

/-- The id the counter gives out is new, and the counter is past it then. -/
theorem Behind.give (h : Behind s position) (hnonzero : s.nextConcurrentTaskId ≠ 0)
    (htag : s.nextConcurrentTaskId < concurrentTaskIdTag)
    (hroom : s.state.statuses.keys.length < statusRoom) :
    s.nextConcurrentTaskId ∉ s.state.statuses ∧
      ∀ t : Shared n, t.nextConcurrentTaskId = (s.nextConcurrentTaskId + 1) % 2 ^ 64 →
        t.state.statuses = s.state.statuses.insert s.nextConcurrentTaskId .pending →
        Behind t (position + 1) := by
  obtain ⟨hcounter, hposition, hgiven⟩ := h
  have hnext : s.nextConcurrentTaskId = position % (concurrentTaskIdTag - 1) + 1 := by
    omega
  have hnew : s.nextConcurrentTaskId ∉ s.state.statuses := by
    intro hmem
    obtain ⟨place, hlt, hle, heq⟩ := hgiven _ hmem
    have hround : statusRoom ≤ concurrentTaskIdTag - 1 := by decide
    have := mod_ne_of_near hlt hle (Nat.lt_of_lt_of_le hroom hround)
    omega
  refine ⟨hnew, fun t hcount hstatuses => ⟨?_, ?_, ?_⟩⟩
  · rw [hcount]
    exact Nat.mod_lt _ (by decide)
  · rw [hcount]
    simp only [concurrentTaskIdTag] at hnext htag ⊢
    omega
  · intro id hid
    have hlength : t.state.statuses.keys.length = s.state.statuses.keys.length + 1 := by
      rw [hstatuses, keys_insert, length_cons, erase_of_not_mem hnew]
    rw [hstatuses, mem_insert] at hid
    rcases hid with rfl | hold
    · exact ⟨position, by omega, by omega, hnext⟩
    · obtain ⟨place, hlt, hle, heq⟩ := hgiven _ hold
      exact ⟨place, by omega, by omega, heq⟩

theorem SameTasks.closed (h : SameTasks s t) (hclosed : s.state.accepting = false) :
    t.state.accepting = false :=
  Bool.eq_false_iff.mpr fun htrue => Bool.eq_false_iff.mp hclosed (h.accepting htrue)

theorem Accounted.idle (h : Accounted capacity s held) (hsame : SameTasks s t) :
    Accounted capacity t held := by
  have htimes : queuedTimes t = queuedTimes s := by
    funext control
    rw [queuedTimes, queuedTimes, hsame.queues]
  constructor
  · rw [hsame.active, hsame.statuses]
    exact h.active_pending
  · rw [hsame.active, hsame.controls]
    exact h.active_controls
  · rw [hsame.active]
    exact h.le_capacity
  · rw [hsame.controls]
    exact h.control_id
  · rw [hsame.controls, hsame.statuses]
    exact h.pending_iff
  · rw [hsame.queues, hsame.controls, hsame.task]
    exact h.queued
  · rw [hsame.controls, hsame.task]
    exact h.inHand
  · rw [hsame.controls, htimes]
    exact h.located
  · intro hstop
    rw [hsame.active]
    rcases hsame.stop hstop with hbefore | ⟨hidle, haccepting⟩
    · exact ⟨(h.stopped hbefore).1, hsame.closed (h.stopped hbefore).2⟩
    · exact ⟨hidle, haccepting⟩
  · obtain ⟨position, hbehind⟩ := h.behind
    refine ⟨position, ?_⟩
    rcases hsame.nextId with hnext | ⟨hnext, hskip⟩
    · refine ⟨hnext ▸ hbehind.counter, hnext ▸ hbehind.next, ?_⟩
      rw [hsame.statuses]
      exact hbehind.given
    · exact hbehind.skip hskip hnext hsame.statuses

/-- A task in hand goes on to another phase. -/
theorem Accounted.rephase (h : Accounted capacity s held)
    (hheld : held thread = (control, phase) :: rest) (next : Phase) :
    Accounted capacity (s.setTask control.id next.full)
      (Function.update held thread ((control, next) :: rest)) := by
  have halone := h.alone hheld
  have htimes : ∀ other, heldTimes (Function.update held thread ((control, next) :: rest)) other =
      heldTimes held other := by
    intro other
    rw [heldTimes_update, countP_cons]
    refine update_eq_self_iff.mpr ?_
    rw [heldTimes, hheld, countP_cons]
  refine { h with queued := ?_, inHand := ?_, located := ?_, behind := ?_ }
  · intro index task htask
    obtain ⟨hlookup, hindex, hfull⟩ := h.queued index task htask
    refine ⟨hlookup, hindex, ?_⟩
    exact (update_of_ne (halone.queues index task htask) _ _).trans hfull
  · refine forall_update ?_ ?_
    · intro entry hentry
      rcases mem_cons.mp hentry with rfl | hrest
      · obtain ⟨hlookup, hthread, -⟩ := h.head hheld
        exact ⟨hlookup, hthread, update_self _ _ _⟩
      · obtain ⟨hlookup, hthread, hfull⟩ := h.tail hheld hrest
        exact ⟨hlookup, hthread, (update_of_ne (halone.rest entry hrest) _ _).trans hfull⟩
    · intro other hother entry hentry
      obtain ⟨hlookup, hthread, hfull⟩ := h.inHand other entry hentry
      exact ⟨hlookup, hthread,
        (update_of_ne (halone.others other hother entry hentry) _ _).trans hfull⟩
  · intro id other hlookup
    rw [htimes]
    exact h.located id other hlookup
  · exact h.behind.imp fun _ hbehind => { hbehind with }

theorem countP_rotate (control : ConcurrentTask n) :
    (before ++ task :: after).countP (fun task => task.control = control) =
      (after ++ before).countP (fun task => task.control = control) +
        if task.control = control then 1 else 0 := by
  rw [countP_append, countP_append, countP_cons]
  simp only [decide_eq_true_eq]
  omega

theorem mem_of_mem_rotate {entry : QueuedTask n} {other : Fin n}
    (hqueue : s.state.queues index = before ++ task :: after)
    (h : entry ∈ (s.setQueue index (after ++ before)).state.queues other) :
    entry ∈ s.state.queues other := by
  rcases mem_update_queue h with ⟨rfl, hmem⟩ | hold
  · rw [hqueue]
    rcases mem_append.mp hmem with hafter | hbefore
    · exact mem_append_right _ (mem_cons_of_mem _ hafter)
    · exact mem_append_left _ hbefore
  · exact hold

theorem queuedTimes_setQueue : queuedTimes (s.setQueue index queue) control =
    if control.workerIndex = index then queue.countP fun task => task.control = control
    else queuedTimes s control := by
  unfold queuedTimes Shared.setQueue
  dsimp only
  rw [update_apply]
  split <;> rfl

theorem queuedTimes_push (control other : ConcurrentTask n) (wakeup : Option Nat) :
    queuedTimes (s.setQueue control.workerIndex
        (s.state.queues control.workerIndex ++ [⟨control, wakeup⟩])) other =
      queuedTimes s other + if control = other then 1 else 0 := by
  rw [queuedTimes_setQueue]
  split_ifs with hworker hsame hsame
  · simp [queuedTimes, hsame]
  · simp [queuedTimes, hworker, hsame]
  · exact absurd (congrArg _ hsame.symm) hworker
  · rfl

theorem heldTimes_cons (hheld : held thread = (control, phase) :: rest)
    (other : ConcurrentTask n) : heldTimes held other thread =
      rest.countP (fun entry => entry.1 = other) + if control = other then 1 else 0 := by
  rw [heldTimes, hheld, countP_cons]
  simp only [decide_eq_true_eq]

section

variable (h : Accounted capacity s held)
include h

theorem Accounted.took (hqueue : s.state.queues index = before ++ task :: after) :
    Accounted capacity (s.setQueue index (after ++ before)) (Function.update held (.worker index)
        ((task.control, .taken) :: held (.worker index))) := by
  obtain ⟨hlookup, hindex, hfull⟩ := h.queued index task (by rw [hqueue]; simp)
  refine { h with queued := ?_, inHand := ?_, located := ?_, behind := ?_ }
  · exact fun other entry hentry => h.queued other entry (mem_of_mem_rotate hqueue hentry)
  · refine forall_update ?_ fun other _ => h.inHand other
    exact forall_mem_cons.mpr ⟨⟨hlookup, by rw [← hindex], hfull⟩, h.inHand _⟩
  · intro id control hcontrol
    have hlocated := h.located id control hcontrol
    rw [heldTimes_update, countP_cons]
    by_cases hsame : task.control = control
    · -- the entry moves from the queue into the hand
      subst hsame
      subst hindex
      rw [queuedTimes_setQueue, if_pos rfl]
      have htimes : queuedTimes s task.control =
          (after ++ before).countP (fun entry => entry.control = task.control) + 1 := by
        rw [queuedTimes, hqueue, countP_rotate, if_pos rfl]
      rw [htimes] at hlocated
      rw [if_pos (decide_eq_true rfl)]
      exact hlocated.take (.worker task.control.workerIndex)
    · have htimes : queuedTimes (s.setQueue index (after ++ before)) control =
          queuedTimes s control := by
        rw [queuedTimes_setQueue]
        split_ifs with hworker
        · rw [queuedTimes, hworker, hqueue, countP_rotate, if_neg hsame, Nat.add_zero]
        · rfl
      rw [htimes]
      simp only [hsame]
      exact (update_eq_self (.worker index) (heldTimes held control)).symm ▸ hlocated
  · exact h.behind.imp fun _ hbehind => { hbehind with }

theorem Accounted.requeued
    (hheld : held thread = (control, .back) :: rest) (wakeup : Nat) :
    Accounted capacity (s.setQueue control.workerIndex
        (s.state.queues control.workerIndex ++ [⟨control, some wakeup⟩]))
      (Function.update held thread rest) := by
  obtain ⟨hlookup, hthread, hfull⟩ := h.head hheld
  refine { h with queued := ?_, inHand := ?_, located := ?_, behind := ?_ }
  · intro index task htask
    rcases mem_push_queue htask with hold | ⟨rfl, rfl⟩
    · exact h.queued index task hold
    · exact ⟨hlookup, rfl, hfull⟩
  · exact forall_update (fun entry => h.tail hheld) fun other _ => h.inHand other
  · intro id other hother
    have hlocated := h.located id other hother
    have hcount := heldTimes_cons hheld other
    rw [heldTimes_update, queuedTimes_push]
    by_cases hsame : control = other
    · -- the entry moves from the hand into the queue
      subst hsame
      rw [if_pos rfl] at hcount ⊢
      have hgive := hlocated.give (show 0 < heldTimes held control thread by omega)
      rw [hcount] at hgive
      exact hgive
    · rw [if_neg hsame, Nat.add_zero] at hcount ⊢
      rw [← hcount, update_eq_self]
      exact hlocated
  · exact h.behind.imp fun _ hbehind => { hbehind with }

theorem Accounted.finished
    (hheld : held thread = (control, .late) :: rest) (status : FinalStatus) :
    Accounted capacity (s.finish control.id status) (Function.update held thread rest) := by
  have halone := h.alone hheld
  have hlookup : s.state.controls.lookup control.id = some control := (h.head hheld).1
  have hpending := h.pending hlookup
  have hfinal : status.1 ≠ .pending := by
    intro heq
    have := status.2
    rw [heq] at this
    cases this
  have hcount : s.state.active = Table.count (fun status => decide (status = .pending))
      (s.state.statuses.insert control.id status.1) + 1 := by
    have hoverwrite := count_overwrite (fun status => decide (status = .pending))
      (w := status.1) hpending
    simp only [hfinal, decide_true, decide_false, if_true, Bool.false_eq_true, if_false] at hoverwrite
    rw [h.active_pending]
    omega
  have hkeys : s.state.active = (s.state.controls.erase control.id).keys.length + 1 := by
    have hkey : control.id ∈ s.state.controls.keys :=
      mem_keys.mp (mem_of_lookup hlookup)
    rw [keys_erase, length_erase_add_one hkey]
    exact h.active_controls
  refine ⟨?_, ?_, ?_, ?_, ?_, ?_, ?_, ?_, ?_, ?_⟩
  · exact Nat.sub_eq_of_eq_add hcount
  · exact Nat.sub_eq_of_eq_add hkeys
  · exact (Nat.sub_le _ _).trans h.le_capacity
  · intro id other hother
    exact h.control_id id other (lookup_erase_some hother).2
  · intro id
    by_cases hid : id = control.id
    · subst hid
      simp [Shared.finish, hfinal]
    · simp only [Shared.finish, lookup_erase_ne hid, lookup_insert_ne hid]
      exact h.pending_iff id
  · intro index task htask
    obtain ⟨hregistered, hindex, hfull⟩ := h.queued index task htask
    refine ⟨?_, hindex, hfull⟩
    exact (lookup_erase_ne (halone.queues index task htask)).trans hregistered
  · refine forall_update ?_ ?_
    · intro entry hentry
      obtain ⟨hregistered, hthread, hfull⟩ := h.tail hheld hentry
      exact ⟨(lookup_erase_ne (halone.rest entry hentry)).trans hregistered, hthread, hfull⟩
    · intro other hother entry hentry
      obtain ⟨hregistered, hthread, hfull⟩ := h.inHand other entry hentry
      exact ⟨(lookup_erase_ne (halone.others other hother entry hentry)).trans hregistered,
        hthread, hfull⟩
  · intro id other hother
    obtain ⟨hid, hother⟩ := lookup_erase_some hother
    have hne : control ≠ other := by
      rintro rfl
      exact hid (h.control_id id control hother).symm
    have hlocated := h.located id other hother
    have htimes := heldTimes_cons hheld other
    rw [if_neg hne, Nat.add_zero] at htimes
    rw [heldTimes_update, ← htimes, update_eq_self]
    exact hlocated
  · intro hstop
    obtain ⟨hidle, hclosed⟩ := h.stopped hstop
    omega
  · obtain ⟨position, hbehind⟩ := h.behind
    refine ⟨position, hbehind.counter, hbehind.next, ?_⟩
    have hlength := length_keys_overwrite (w := status.1) hpending
    intro id hid
    simp only [Shared.finish, mem_insert] at hid ⊢
    rw [hlength]
    rcases hid with rfl | hold
    · exact hbehind.given _ (mem_of_lookup hpending)
    · exact hbehind.given _ hold

theorem Accounted.spawned (index : Fin n)
    (haccepting : s.state.accepting = true) (hactive : s.state.active < capacity)
    (hnonzero : s.nextConcurrentTaskId ≠ 0)
    (htag : s.nextConcurrentTaskId < concurrentTaskIdTag)
    (hroom : s.state.statuses.keys.length < statusRoom) :
    Accounted capacity
      (Shared.accept { s with nextConcurrentTaskId := (s.nextConcurrentTaskId + 1) % 2 ^ 64 }
        ⟨s.nextConcurrentTaskId, index⟩) held := by
  obtain ⟨position, hbehind⟩ := h.behind
  obtain ⟨hnew, hpast⟩ := hbehind.give hnonzero htag hroom
  have hunregistered : s.state.controls.lookup s.nextConcurrentTaskId = none := by
    rw [← Option.not_isSome_iff_eq_none, h.pending_iff]
    intro hpending
    exact hnew (mem_of_lookup hpending)
  have hother : ∀ {control : ConcurrentTask n},
      s.state.controls.lookup control.id = some control → control.id ≠ s.nextConcurrentTaskId := by
    intro control hlookup heq
    rw [heq, hunregistered] at hlookup
    cases hlookup
  generalize hcontrol : (⟨s.nextConcurrentTaskId, index⟩ : ConcurrentTask n) = control
  have hid : control.id = s.nextConcurrentTaskId := by rw [← hcontrol]
  have hqueues : ∀ other, ∀ task ∈ s.state.queues other, task.control ≠ control := by
    rintro other task htask rfl
    exact hother (h.queued other task htask).1 hid
  have hheld : ∀ other, heldTimes held control other = 0 := by
    intro other
    refine countP_eq_zero.mpr fun entry hentry heq => ?_
    refine hother (h.inHand other entry hentry).1 ?_
    rw [of_decide_eq_true heq, hid]
  refine ⟨?_, ?_, hactive, ?_, ?_, ?_, ?_, ?_, ?_, position + 1, hpast _ rfl ?_⟩
  · have hcount := count_insert (fun status => decide (status = .pending))
      (v := TaskLifecycleStatus.pending) hnew
    rw [← h.active_pending] at hcount
    simp only [Shared.accept, hid]
    rw [hcount]
    rfl
  · have hkey : s.nextConcurrentTaskId ∉ s.state.controls.keys :=
      fun hmem => by
        have := lookup_isSome.mpr (mem_keys.mpr hmem)
        rw [hunregistered] at this
        cases this
    simp only [Shared.accept, hid, keys_insert, length_cons, erase_of_not_mem hkey]
    rw [h.active_controls]
  · intro other registered hlookup
    rcases lookup_insert_some hlookup with ⟨rfl, rfl⟩ | ⟨-, hold⟩
    · rfl
    · exact h.control_id other registered hold
  · intro other
    by_cases heq : other = control.id
    · subst heq
      simp [Shared.accept]
    · simp only [Shared.accept, lookup_insert_ne heq]
      exact h.pending_iff other
  · intro other task htask
    rcases mem_push_queue htask with hold | ⟨rfl, rfl⟩
    · obtain ⟨hlookup, hindex, hfull⟩ := h.queued other task hold
      have hne : task.control.id ≠ control.id := hid ▸ hother hlookup
      refine ⟨(lookup_insert_ne hne).trans hlookup, hindex, ?_⟩
      exact (update_of_ne hne _ _).trans hfull
    · exact ⟨lookup_insert _, rfl, update_self _ _ _⟩
  · intro other entry hentry
    obtain ⟨hlookup, hthread, hfull⟩ := h.inHand other entry hentry
    have hne : entry.1.id ≠ control.id := hid ▸ hother hlookup
    refine ⟨(lookup_insert_ne hne).trans hlookup, hthread, ?_⟩
    exact (update_of_ne hne _ _).trans hfull
  · intro other registered hlookup
    have htimes : queuedTimes (Shared.accept { s with
        nextConcurrentTaskId := (s.nextConcurrentTaskId + 1) % 2 ^ 64 } control) registered = _ :=
      queuedTimes_push (s := s) control registered none
    rw [htimes]
    rcases lookup_insert_some hlookup with ⟨rfl, rfl⟩ | ⟨heq, hold⟩
    · have hzero : queuedTimes s registered = 0 :=
        countP_eq_zero.mpr fun task htask hsame =>
          hqueues _ task htask (of_decide_eq_true hsame)
      rw [hzero, if_pos rfl]
      exact .inl ⟨rfl, hheld⟩
    · have hne : control ≠ registered := by
        rintro rfl
        exact heq (h.control_id other control hold).symm
      rw [if_neg hne]
      exact h.located other registered hold
  · intro hstop
    have := (h.stopped hstop).2
    rw [haccepting] at this
    cases this
  · simp only [Shared.accept, hid]

/-- Every effect of a step keeps the accounts. -/
theorem Accounted.effect {event : Event n}
    (heffect : Effect capacity thread s (held thread) event t hand) :
    Accounted capacity t (Function.update held thread hand) := by
  generalize hheld : held thread = before at heffect
  cases heffect with
  | idle _ hsame _ =>
    rw [← hheld, update_eq_self]
    exact h.idle hsame
  | spawned _ index haccepting hactive hnonzero htag hroom =>
    rw [← hheld, update_eq_self]
    exact h.spawned index haccepting hactive hnonzero htag hroom
  | took _ index task before after hthread hqueue =>
    subst hthread
    rw [← hheld]
    exact h.took hqueue
  | opened rest control hfull => exact h.rephase hheld .out
  | polls rest control =>
    rw [← hheld, update_eq_self]
    exact h
  | ends rest control phase hphase hevent =>
    have hfull : s.task control.id = phase.full := (h.head hheld).2.2
    have hrephase := h.rephase hheld .late
    rw [Phase.full, ← hphase, ← hfull, Shared.setTask, update_eq_self] at hrephase
    exact hrephase
  | closed rest control => exact h.rephase hheld .back
  | requeued rest control wakeup => exact h.requeued hheld wakeup
  | finished rest control status hpending => exact h.finished hheld status
  | lost rest control phase hlost =>
    obtain ⟨hlookup, -, hfull⟩ := h.head hheld
    rcases hlost with ⟨rfl, hempty⟩ | ⟨rfl, hfinal⟩
    · rw [hempty] at hfull
      cases hfull
    · rw [ExecutorState.status, h.pending hlookup] at hfinal
      exact absurd rfl hfinal

end

end Accounts

section Shutdown

variable {s t : Shared n} {stack rest : List (Frame n)} {frame : Frame n}

/-- A shutdown under way has closed the executor, and has stopped the workers when
it waits for their threads. -/
def Closing (s : Shared n) (stack : List (Frame n)) : Prop :=
  ∀ frame ∈ stack, (frame.closing = true → s.state.accepting = false) ∧
    (frame = .shutdownJoin → s.state.stopWorkers = true)

theorem Effect.closes {before after : List (ConcurrentTask n × Phase)} {event : Event n}
    (h : Effect capacity thread s before event t after) :
    (s.state.accepting = false → t.state.accepting = false) ∧
      (s.state.stopWorkers = true → t.state.stopWorkers = true) := by
  cases h with
  | idle _ hsame _ => exact ⟨hsame.closed, hsame.stays⟩
  | _ => exact ⟨fun h => h, fun h => h⟩

theorem Closing.mono (h : Closing s stack)
    (hcloses : (s.state.accepting = false → t.state.accepting = false) ∧
      (s.state.stopWorkers = true → t.state.stopWorkers = true)) : Closing t stack :=
  fun frame hframe => ⟨fun hc => hcloses.1 ((h frame hframe).1 hc),
    fun hj => hcloses.2 ((h frame hframe).2 hj)⟩

theorem Closing.cons (h : Closing s stack) (hframe : frame.closing = false) :
    Closing s (frame :: stack) := by
  intro other hother
  rcases mem_cons.mp hother with rfl | hrest
  · refine ⟨fun hc => ?_, fun hj => ?_⟩
    · rw [hframe] at hc
      cases hc
    · rw [hj] at hframe
      cases hframe
  · exact h other hrest

theorem Closing.unwind (h : Closing s stack) : Closing s (unwind stack) := by
  unfold Executor.unwind
  split
  case h_3 => exact h
  all_goals exact (forall_mem_cons.mp h).2

theorem Closing.wake (h : Closing s stack) (notify : Notify n) (other : Thread n) :
    Closing s (stack.map (Frame.wake notify other)) := by
  intro frame hframe
  obtain ⟨before, hbefore, rfl⟩ := mem_map.mp hframe
  have hsame : (before.wake notify other).closing = before.closing ∧
      (before.wake notify other = .shutdownJoin → before = .shutdownJoin) := by
    unfold Frame.wake
    split
    · cases before <;> simp [Frame.resume, Frame.closing]
    · exact ⟨rfl, id⟩
  rw [hsame.1]
  exact ⟨(h before hbefore).1, fun hj => (h before hbefore).2 (hsame.2 hj)⟩

theorem Turn.closing {move : Move} (h : Turn thread s frame rest move outcome)
    (hclosing : Closing s (frame :: rest))
    (hcloses : (s.state.accepting = false → outcome.shared.state.accepting = false) ∧
      (s.state.stopWorkers = true → outcome.shared.state.stopWorkers = true)) :
    Closing outcome.shared outcome.stack := by
  have hall : Closing outcome.shared (frame :: rest) := hclosing.mono hcloses
  have hrest : Closing outcome.shared rest :=
    (forall_mem_cons.mp hall).2
  cases h with
  | popped hstack _ =>
    rcases hstack with heq | heq
    · exact heq ▸ hrest
    · exact heq ▸ hrest.unwind
  | plain next _ hstack _ hnext =>
    rw [hstack]
    intro other hother
    rcases mem_cons.mp hother with rfl | hmem
    · refine ⟨fun hc => (hnext hc).1.elim id (hall _ mem_cons_self).1, fun hj => ?_⟩
      exact (hnext (by rw [hj]; rfl)).2 hj
    · exact hrest other hmem
  | called body call hframe _ hstack _ =>
    rw [hstack, ← hframe]
    exact hall.cons rfl
  | served control hframe hstack _ =>
    rw [hstack]
    exact hall.cons rfl
  | joinWaits _ _ _ _ _ hstack | helps _ _ _ _ _ _ _ hstack | helpsAgain _ _ _ _ hstack
    | helpWaits _ _ _ _ _ _ _ hstack _ | released hstack _ | shuts _ _ _ hstack _ =>
      rw [hstack]
      exact hrest.cons rfl

end Shutdown

section Past

variable {s t : Shared n} {held : Held n} {event : Event n} {id : TaskId}

/-- A task whose `cancel` or `on_scheduler_drop` has begun: it is nowhere but in the
hands that end it. -/
structure Past (s : Shared n) (held : Held n) (id : TaskId) : Prop where
  known : id ∈ s.state.statuses
  queues : ∀ index, ∀ task ∈ s.state.queues index, task.control.id ≠ id
  inHand : ∀ thread, ∀ entry ∈ held thread, entry.1.id = id → entry.2 = .late

theorem Past.known_insert (h : id ∈ s.state.statuses) (other : TaskId)
    (status : TaskLifecycleStatus) : id ∈ s.state.statuses.insert other status :=
  (mem_insert _).mpr (.inr h)

/-- Nothing brings back a task that is past its last poll. -/
theorem Past.effect (haccounted : Accounted capacity s held) (h : Past s held id)
    (heffect : Effect capacity thread s (held thread) event t hand) :
    Past t (Function.update held thread hand) id ∧ event ≠ .poll id := by
  generalize hheld : held thread = before at heffect
  have hbefore : ∀ entry ∈ before, entry.1.id = id → entry.2 = .late := hheld ▸ h.inHand thread
  have hnow (hand : List (ConcurrentTask n × Phase))
      (hhand : ∀ entry ∈ hand, entry.1.id = id → entry.2 = .late) :
      ∀ other, ∀ entry ∈ Function.update held thread hand other, entry.1.id = id →
        entry.2 = .late :=
    forall_update hhand fun other _ => h.inHand other
  cases heffect with
  | idle _ hsame hevent =>
    rw [← hheld, update_eq_self]
    refine ⟨⟨hsame.statuses ▸ h.known, hsame.queues ▸ h.queues, h.inHand⟩, ?_⟩
    rintro rfl
    cases hevent
  | spawned _ index haccepting hactive hnonzero htag hroom =>
    obtain ⟨position, hbehind⟩ := haccounted.behind
    have hne : s.nextConcurrentTaskId ≠ id := by
      rintro rfl
      exact (hbehind.give hnonzero htag hroom).1 h.known
    rw [← hheld, update_eq_self]
    refine ⟨⟨Past.known_insert h.known _ _, ?_, h.inHand⟩, nofun⟩
    intro other task htask
    rcases mem_push_queue htask with hold | ⟨-, rfl⟩
    · exact h.queues other task hold
    · exact hne
  | took _ index task before after hthread hqueue =>
    have hne : task.control.id ≠ id := h.queues index task (by rw [hqueue]; simp)
    refine ⟨⟨h.known, ?_, ?_⟩, nofun⟩
    · exact fun other entry hentry => h.queues other entry (mem_of_mem_rotate hqueue hentry)
    · refine hnow _ fun entry hentry hid => ?_
      rcases mem_cons.mp hentry with rfl | hrest
      · exact absurd hid hne
      · exact hbefore entry hrest hid
  | opened rest control _ | closed rest control =>
    refine ⟨⟨h.known, h.queues, hnow _ fun entry hentry hid => ?_⟩, nofun⟩
    rcases mem_cons.mp hentry with rfl | hrest
    · cases hbefore _ mem_cons_self hid
    · exact hbefore entry (mem_cons_of_mem _ hrest) hid
  | polls rest control =>
    rw [← hheld, update_eq_self]
    refine ⟨h, fun heq => ?_⟩
    cases heq
    exact nomatch hbefore (control, .out) mem_cons_self rfl
  | ends rest control phase hphase hevent =>
    refine ⟨⟨h.known, h.queues, ?_⟩, ?_⟩
    · refine hnow _ fun entry hentry hid => ?_
      rcases mem_cons.mp hentry with rfl | hrest
      · rfl
      · exact hbefore entry (mem_cons_of_mem _ hrest) hid
    · rcases hevent with rfl | rfl | rfl <;> nofun
  | requeued rest control wakeup =>
    have hne : control.id ≠ id := fun hid =>
      nomatch hbefore (control, .back) mem_cons_self hid
    refine ⟨⟨h.known, ?_, ?_⟩, nofun⟩
    · intro other task htask
      rcases mem_push_queue htask with hold | ⟨-, rfl⟩
      · exact h.queues other task hold
      · exact hne
    · exact hnow _ (forall_mem_cons.mp hbefore).2
  | finished rest control status _ =>
    exact ⟨⟨Past.known_insert h.known _ _, h.queues, hnow _ fun entry hentry =>
      hbefore entry (mem_cons_of_mem _ hentry)⟩, nofun⟩
  | lost rest control phase _ =>
    exact ⟨⟨h.known, h.queues, hnow _ fun entry hentry =>
      hbefore entry (mem_cons_of_mem _ hentry)⟩, nofun⟩

section

variable (haccounted : Accounted capacity s held)
  (heffect : Effect capacity thread s (held thread) event t hand)
include haccounted heffect

/-- A task is past its last poll when its `cancel` or `on_scheduler_drop` begins. -/
theorem past_of_event (hevent : event = .cancel id ∨ event = .onSchedulerDrop id) :
    Past t (Function.update held thread hand) id := by
  generalize hheld : held thread = before at heffect
  cases heffect with
  | idle _ _ hnone => rcases hevent with rfl | rfl <;> cases hnone
  | ends rest control phase hphase hcases =>
    obtain rfl : control.id = id := by
      rcases hcases with rfl | rfl | rfl <;> rcases hevent with heq | heq <;> cases heq <;> rfl
    have halone := haccounted.alone hheld
    obtain ⟨hlookup, -, -⟩ := haccounted.head hheld
    refine ⟨mem_of_lookup (haccounted.pending hlookup), halone.queues, ?_⟩
    refine forall_update ?_ ?_
    · intro entry hentry hid
      rcases mem_cons.mp hentry with rfl | hrest
      · rfl
      · exact absurd hid (halone.rest entry hrest)
    · intro other hother entry hentry hid
      exact absurd hid (halone.others other hother entry hentry)
  | _ => rcases hevent with h | h <;> cases h

/-- A status that is there stays, or becomes final from pending. -/
theorem Accounted.status_effect {status : TaskLifecycleStatus}
    (hstatus : s.state.statuses.lookup id = some status) :
    t.state.statuses.lookup id = some status ∨
      status = .pending ∧ ∃ final : FinalStatus, t.state.statuses.lookup id = some final.1 := by
  generalize held thread = before at heffect
  cases heffect with
  | idle _ hsame _ => exact .inl (hsame.statuses ▸ hstatus)
  | spawned _ index haccepting hactive hnonzero htag hroom =>
    obtain ⟨position, hbehind⟩ := haccounted.behind
    have hne : id ≠ s.nextConcurrentTaskId := by
      rintro rfl
      exact (hbehind.give hnonzero htag hroom).1 (mem_of_lookup hstatus)
    exact .inl ((lookup_insert_ne hne).trans hstatus)
  | finished rest control final hpending =>
    by_cases hid : id = control.id
    · subst hid
      rw [ExecutorState.status, hstatus] at hpending
      exact .inr ⟨hpending, final, lookup_insert _⟩
    · exact .inl ((lookup_insert_ne hid).trans hstatus)
  | _ => exact .inl hstatus

end

end Past

section Runs

variable {labels : List (Label n)} {s t : State n} {label : Label n}

def State.held (s : State n) : Held n := fun thread => inHand (s.threads thread)

theorem held_after (s : State n) (thread : Thread n) (outcome : Outcome n) :
    (s.after thread outcome).held = Function.update s.held thread (inHand outcome.stack) := by
  funext other
  rw [update_apply]
  split_ifs with hother <;> simp [State.held, State.after, hother, inHand_wake]

def Label.event : Label n → Event n
  | .tick _ => .silent
  | .step _ _ event => event

/-- The `cancel` or `on_scheduler_drop` of a task has begun. -/
def Ended (labels : List (Label n)) (id : TaskId) : Prop :=
  ∃ label ∈ labels, label.event = .cancel id ∨ label.event = .onSchedulerDrop id

def Returned (labels : List (Label n)) : Prop := ∃ label ∈ labels, label.event = .shutdownReturned

theorem ended_append (id : TaskId) : Ended (labels ++ [label]) id ↔
    Ended labels id ∨ label.event = .cancel id ∨ label.event = .onSchedulerDrop id := by
  simp only [Ended, mem_append, mem_singleton, or_and_right, exists_or, exists_eq_left]

theorem returned_append : Returned (labels ++ [label]) ↔
    Returned labels ∨ label.event = .shutdownReturned := by
  simp only [Returned, mem_append, mem_singleton, or_and_right, exists_or, exists_eq_left]

structure Inv (capacity : Nat) (labels : List (Label n)) (s : State n) : Prop where
  accounted : Accounted capacity s.shared s.held
  closing : ∀ thread, Closing s.shared (s.threads thread)
  past : ∀ id, Ended labels id → Past s.shared s.held id
  returned : Returned labels → s.shared.state.stopWorkers = true

/-- A step is a tick or has an effect on what its thread has in hand and makes a turn. -/
theorem Inv.step_effect [NeZero n] (h : Inv capacity labels s) {move : Move}
    {frame : Frame n} {rest : List (Frame n)}
    (hroom : s.shared.state.statuses.keys.length < statusRoom)
    (hstack : s.threads thread = frame :: rest)
    (hact : act capacity thread s.exited s.shared frame rest move = some outcome) :
    Effect capacity thread s.shared (s.held thread) outcome.event outcome.shared
      (inHand outcome.stack) ∧ Turned thread s.shared frame rest move outcome := by
  have hstepped := act_stepped hact hroom ?_
  · rw [State.held, hstack]
    exact ⟨hstepped.effect, hstepped.turned⟩
  · rintro rfl
    exact (h.closing thread .shutdownLoop (by rw [hstack]; exact mem_cons_self)).1 rfl

theorem enter_event [NeZero n] {s : Shared n} {rest : List (Frame n)}
    {call : Call} (h : enter capacity thread s rest call = some outcome) :
    outcome.event = .silent := by
  unfold enter at h
  split at h <;> try split at h
  all_goals
    cases h
    rfl

theorem inv_step [NeZero n] (h : Inv capacity labels s) (hstep : Step capacity s label t) :
    Inv capacity (labels ++ [label]) t := by
  cases hstep with
  | tick elapsed =>
    refine ⟨h.accounted.idle { SameTasks.refl s.shared with }, h.closing, ?_, ?_⟩
    · intro id hid
      rcases (ended_append id).mp hid with hold | hnow | hnow
      · exact { h.past id hold with }
      · cases hnow
      · cases hnow
    · intro hreturned
      rcases returned_append.mp hreturned with hold | hnow
      · exact h.returned hold
      · cases hnow
  | step thread move frame rest outcome hroom hstack hact =>
    obtain ⟨heffect, hturned⟩ := h.step_effect hroom hstack hact
    refine ⟨?_, ?_, ?_, ?_⟩
    · rw [held_after]
      exact h.accounted.effect heffect
    · intro other
      unfold State.after
      dsimp only
      split
      · next heq =>
        subst heq
        exact hturned.turn.closing (hstack ▸ h.closing other) heffect.closes
      · exact ((h.closing other).mono heffect.closes).wake _ _
    · intro id hid
      rw [held_after]
      rcases (ended_append id).mp hid with hold | hnow
      · exact ((h.past id hold).effect h.accounted heffect).1
      · exact past_of_event h.accounted heffect hnow
    · intro hreturned
      refine heffect.closes.2 ?_
      rcases returned_append.mp hreturned with hold | hnow
      · exact h.returned hold
      · obtain rfl := hturned.returned hnow
        exact (h.closing thread .shutdownJoin (by rw [hstack]; exact mem_cons_self)).2 rfl

theorem initial_inv (n capacity next : Nat) : Inv capacity [] (initial n next) where
  accounted :=
    { active_pending := rfl
      active_controls := rfl
      le_capacity := Nat.zero_le _
      control_id := nofun
      pending_iff := by
        simp [initial]
      queued := nofun
      inHand := by
        rintro (index | index) entry hentry <;> exact absurd hentry not_mem_nil
      located := nofun
      stopped := nofun
      behind := by
        have hlt : next % 2 ^ 64 < 2 ^ 64 := Nat.mod_lt _ (by decide)
        by_cases hid : next % 2 ^ 64 ≠ 0 ∧ next % 2 ^ 64 < concurrentTaskIdTag
        · refine ⟨next % 2 ^ 64 - 1, hlt, .inl ⟨hid.2, ?_⟩, nofun⟩
          have hsmall : next % 2 ^ 64 - 1 < concurrentTaskIdTag - 1 := by omega
          rw [Nat.mod_eq_of_lt hsmall]
          change next % 2 ^ 64 = _
          omega
        · rw [not_and_or, not_not, Nat.not_lt] at hid
          exact ⟨0, hlt, .inr ⟨hid, rfl⟩, nofun⟩ }
  closing := by
    rintro (index | index) frame hframe
    all_goals
      obtain rfl := mem_singleton.mp hframe
      exact ⟨nofun, nofun⟩
  past := by
    rintro id ⟨label, hlabel, -⟩
    cases hlabel
  returned := by
    rintro ⟨label, hlabel, -⟩
    cases hlabel

theorem run_inv [NeZero n] {next : Nat} (hrun : Run (Step capacity) (initial n next) labels s) :
    Inv capacity labels s :=
  hrun.invariant (initial_inv n capacity next) fun _ _ _ _ _ h hstep => inv_step h hstep

/-- How many polls of a task run on a thread. -/
def State.polling (s : State n) (thread : Thread n) (id : TaskId) : Nat :=
  (s.threads thread).countP fun
    | .body (.poll control) => control.id = id
    | _ => false

/-- What a run guarantees: the counts agree, each pending task is in one place, a
poll runs alone and never too late, statuses become final once, and a shutdown that
returned has left nothing. -/
structure Sound [NeZero n] (capacity : Nat) (labels : List (Label n)) (s : State n) : Prop where
  counts : s.shared.state.active = s.shared.state.statuses.count (fun status => status = .pending) ∧
    s.shared.state.active = s.shared.state.controls.keys.length ∧
    s.shared.state.active ≤ capacity
  placed : ∀ id, s.shared.state.statuses.lookup id = some .pending →
    ∃ control, s.shared.state.controls.lookup id = some control ∧ control.id = id ∧
      Custody (queuedTimes s.shared control) (heldTimes s.held control)
  queued : ∀ index, ∀ task ∈ s.shared.state.queues index, task.control.workerIndex = index ∧
    s.shared.state.statuses.lookup task.control.id = some .pending
  alone : ∀ id thread, 0 < s.polling thread id →
    s.polling thread id = 1 ∧ (∀ other, other ≠ thread → s.polling other id = 0) ∧
      s.shared.state.statuses.lookup id = some .pending
  ended : ∀ id, Ended labels id → ∀ thread, s.polling thread id = 0
  final : ∀ label t, Step capacity s label t → ∀ id status,
    s.shared.state.statuses.lookup id = some status →
      t.shared.state.statuses.lookup id = some status ∨ status = .pending ∧
        ∃ final : FinalStatus, t.shared.state.statuses.lookup id = some final.1
  shutdown : Returned labels → (∀ id, s.shared.state.statuses.lookup id ≠ some .pending) ∧
    ∀ index, s.shared.state.queues index = []

theorem mem_held_of_poll
    (hframe : .body (.poll control) ∈ s.threads thread) : (control, .out) ∈ s.held thread :=
  mem_filterMap.mpr ⟨_, hframe, rfl⟩

theorem exists_of_polling {id : TaskId} (h : 0 < s.polling thread id) :
    ∃ control, .body (.poll control) ∈ s.threads thread ∧ control.id = id := by
  obtain ⟨frame, hframe, hpolls⟩ := countP_pos_iff.mp h
  split at hpolls
  · next control => exact ⟨control, hframe, of_decide_eq_true hpolls⟩
  · cases hpolls

section

variable (h : Inv capacity labels s)
include h

/-- The polls of a task are among the activations that have it in hand. -/
theorem Inv.polling_le (hcontrol : s.shared.state.controls.lookup control.id = some control)
    (thread : Thread n) : s.polling thread control.id ≤ heldTimes s.held control thread := by
  unfold State.polling heldTimes State.held inHand
  rw [countP_filterMap]
  refine countP_mono_left fun frame hframe hpolls => ?_
  split at hpolls
  · next other =>
    obtain ⟨hother, -, -⟩ := h.accounted.inHand thread _ (mem_held_of_poll hframe)
    rw [of_decide_eq_true hpolls, hcontrol] at hother
    cases hother
    simp [Frame.inHand]
  · cases hpolls

theorem Inv.alone {id : TaskId} (hpolling : 0 < s.polling thread id) :
    s.polling thread id = 1 ∧ (∀ other, other ≠ thread → s.polling other id = 0) ∧
      s.shared.state.statuses.lookup id = some .pending := by
  obtain ⟨control, hframe, rfl⟩ := exists_of_polling hpolling
  have hlookup : s.shared.state.controls.lookup control.id = some control :=
    (h.accounted.inHand thread _ (mem_held_of_poll hframe)).1
  have hle := h.polling_le hlookup
  obtain ⟨-, hone, hothers⟩ := (h.accounted.located _ _ hlookup).alone
    (Nat.lt_of_lt_of_le hpolling (hle thread))
  refine ⟨?_, ?_, ?_⟩
  · have := hle thread
    omega
  · intro other hother
    have hzero := hle other
    rw [hothers other hother] at hzero
    exact Nat.le_zero.mp hzero
  · exact h.accounted.pending hlookup

theorem Inv.ended {id : TaskId} (hended : Ended labels id) (thread : Thread n) :
    s.polling thread id = 0 := by
  by_contra hpolling
  obtain ⟨control, hframe, hid⟩ := exists_of_polling (Nat.pos_of_ne_zero hpolling)
  exact nomatch (h.past id hended).inHand thread _ (mem_held_of_poll hframe) hid

/-- Nothing is left when no task is active. -/
theorem Inv.idle (hidle : s.shared.state.active = 0) :
    (∀ id, s.shared.state.statuses.lookup id ≠ some .pending) ∧
      ∀ index, s.shared.state.queues index = [] := by
  have hnone : ∀ id, s.shared.state.statuses.lookup id ≠ some .pending := by
    intro id hpending
    have hpos := count_pos (fun status => decide (status = .pending)) hpending
      (decide_eq_true rfl)
    rw [← h.accounted.active_pending] at hpos
    omega
  refine ⟨hnone, fun index => eq_nil_iff_forall_not_mem.mpr fun task htask => ?_⟩
  obtain ⟨hlookup, -, -⟩ := h.accounted.queued index task htask
  exact hnone _ (h.accounted.pending hlookup)

end

/-- The accounts of the executor, for every number of workers, every capacity and
every run. -/
theorem executor_accounts (n : Nat) [NeZero n] (capacity next : Nat) (labels : List (Label n))
    (s : State n) (hrun : Run (Step capacity) (initial n next) labels s) :
    Sound capacity labels s := by
  have h := run_inv hrun
  have haccounted := h.accounted
  constructor
  · exact ⟨haccounted.active_pending, haccounted.active_controls, haccounted.le_capacity⟩
  · intro id hpending
    obtain ⟨control, hcontrol⟩ := Option.isSome_iff_exists.mp ((haccounted.pending_iff id).mpr hpending)
    exact ⟨control, hcontrol, haccounted.control_id id control hcontrol,
      haccounted.located id control hcontrol⟩
  · intro index task htask
    obtain ⟨hlookup, hindex, -⟩ := haccounted.queued index task htask
    exact ⟨hindex, haccounted.pending hlookup⟩
  · exact fun id thread => h.alone
  · exact fun id hended thread => h.ended hended thread
  · intro label t hstep id status hstatus
    cases hstep with
    | tick elapsed => exact .inl hstatus
    | step thread move frame rest outcome hroom hstack hact =>
      exact haccounted.status_effect (h.step_effect hroom hstack hact).1 hstatus
  · intro hreturned
    exact h.idle (haccounted.stopped (h.returned hreturned)).1

/-- A task is spawned and polled while a cancelling shutdown waits for it. -/
theorem executor_accounts_one_task :
    ∃ labels s, Run (Step 1) (initial 1 7) labels s ∧ s.polling (.worker 0) 7 = 1 ∧
      s.threads (.outside 0) = [.shutdownWait, .body .outside] ∧ Sound 1 labels s := by
  have called : Run (Step 1) (initial 1 7) _ _ :=
    .snoc (.nil _) (.step _ (.outside 0) (.call .spawnDetached) _ _ _ (by decide) rfl rfl)
  have spawned := called.snoc (.step _ (.outside 0) .advance _ _ _ (by decide) rfl rfl)
  have taken := spawned.snoc (.step _ (.worker 0) .advance _ _ _ (by decide) rfl rfl)
  have opened := taken.snoc (.step _ (.worker 0) .advance _ _ _ (by decide) rfl rfl)
  have polled := opened.snoc (.step _ (.worker 0) .advance _ _ _ (by decide) rfl rfl)
  have calls := polled.snoc (.step _ (.outside 0) (.call (.shutdown .cancel)) _ _ _ (by decide) rfl rfl)
  have enters := calls.snoc (.step _ (.outside 0) .advance _ _ _ (by decide) rfl rfl)
  have waits := enters.snoc (.step _ (.outside 0) .advance _ _ _ (by decide) rfl rfl)
  exact ⟨_, _, waits, rfl, rfl, executor_accounts 1 1 7 _ _ waits⟩

end Runs

end Sengoo.Runtime.Executor
