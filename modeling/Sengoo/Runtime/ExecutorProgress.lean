import Sengoo.Runtime.ExecutorAccounting

/-!
Joins in the executor. A worker that joins a task of its own queue serves the queue
meanwhile; one that joins a task of another worker blocks, and every global function
first takes the `EXECUTOR` mutex, which `shutdown` keeps until no task is active. The
executor is wedged when a task is pending, every worker is blocked in a join or
before the mutex, and no thread inside a call can go on.

A run is careful when no worker starts to wait for one that already waits for it, no
worker joins a task that lies below on its own stack, no worker is before the mutex
while a shutdown has it, and `release_rejected` calls nothing. No state of a careful
run is wedged.
-/

namespace Sengoo.Runtime.Executor

open Concurrency History List Option Relation

variable {capacity n : Nat} {labels : List (Label n)} {thread other : Thread n} {frame : Frame n}
  {stack rest : List (Frame n)} {outcome : Outcome n}

section Progress

variable {s t : State n}

/-- One worker is blocked in a join of a task of another. -/
def State.Waits (s : State n) (i j : Fin n) : Prop :=
  ∃ id rest control, s.threads (.worker i) = .joinWait id :: rest ∧
    s.shared.state.controls.lookup id = some control ∧ control.workerIndex = j

/-- What a careful thread sees to before a step: `release_rejected` calls nothing; a
worker calls nothing while a shutdown has the `EXECUTOR` mutex, and no worker is
before the mutex when a shutdown takes it; no worker joins a task that it has in
hand itself; and no worker starts to wait for one that already waits for it. -/
def Careful (s : State n) (thread : Thread n) : Frame n → Move → Prop
  | .body .releaseRejected, .call _ => False
  | .body _, .call _ =>
    ∀ i, thread = .worker i → ¬ (s.shared.executor = .gone ∧ s.shared.owner.isSome = true)
  | .entering (.shutdown _), .advance =>
    ∀ i call rest, .worker i ≠ thread → s.threads (.worker i) ≠ .entering call :: rest
  | .joinShared id, .advance => ∀ entry ∈ s.held thread, entry.1.id ≠ id
  | .joinLoop id, .advance =>
    ∀ i control, thread = .worker i → s.shared.state.controls.lookup id = some control →
      ¬ ReflTransGen s.Waits control.workerIndex i
  | _, _ => True

def CarefulStep [NeZero n] (capacity : Nat) (s : State n) (label : Label n) (t : State n) : Prop :=
  Step capacity s label t ∧ ∀ thread move event frame rest, label = .step thread move event →
    s.threads thread = frame :: rest → Careful s thread frame move

/-- The task a frame serves its queue for. -/
def Frame.helpTarget : Frame n → Option TaskId
  | .helpLoop id | .helpWait id _ => some id
  | _ => none

/-- A task that a worker serves its queue for: it is of this worker, and the worker
does not have it in hand below. -/
structure Target (s : Shared n) (thread : Thread n) (below : List (Frame n)) (id : TaskId) :
    Prop where
  known : id ∈ s.state.statuses
  own : ∀ control, s.state.controls.lookup id = some control → thread = .worker control.workerIndex
  free : ∀ entry ∈ inHand below, entry.1.id ≠ id

/-- Every frame of a stack that serves a queue has a right target. -/
def HelpsWell (s : Shared n) (thread : Thread n) : List (Frame n) → Prop
  | [] => True
  | frame :: below =>
    (∀ id, frame.helpTarget = some id → Target s thread below id) ∧ HelpsWell s thread below

structure Progress (s : State n) : Prop where
  below : ∀ thread, ∀ frame ∈ (s.threads thread).tail, frame.suspended = true
  joining : ∀ thread id rest, s.threads thread = .joinWait id :: rest →
    s.shared.state.statuses.lookup id = some .pending
  helping : ∀ thread, HelpsWell s.shared thread (s.threads thread)
  busy : ∀ thread id rest, s.threads thread ≠ .helpWait id none :: rest
  lock : ∀ thread, s.shared.owner = some thread →
    (∃ rest, s.threads thread = .body .releaseRejected :: rest) ∨ s.shared.executor = .gone ∧
        ∀ i call rest, s.threads (.worker i) ≠ .entering call :: rest
  noCycle : NoCycle s.Waits

end Progress

variable {id : TaskId}

section Waking

variable {notify : Notify n}

/-- A frame that is woken goes on with its loop, any other stays. -/
theorem Frame.wake_cases (notify : Notify n) (thread : Thread n) (frame : Frame n) :
    frame.wake notify thread = frame ∨ frame.resume = some (frame.wake notify thread) := by
  unfold Frame.wake
  split
  · cases frame <;> first | exact .inl rfl | exact .inr rfl
  · exact .inl rfl

theorem Frame.wake_suspended (h : frame.suspended = true) :
    (frame.wake notify thread).suspended = true := by
  rcases frame.wake_cases notify thread with heq | hresume
  · rw [heq]
    exact h
  · cases frame <;> cases h <;> cases hresume

theorem Frame.helpTarget_wake : (frame.wake notify thread).helpTarget = frame.helpTarget := by
  rcases frame.wake_cases notify thread with heq | hresume
  · rw [heq]
  · generalize frame.wake notify thread = woken at hresume ⊢
    cases frame <;> cases hresume <;> rfl

/-- A frame in which no wait goes on was there before. -/
theorem Frame.wake_eq {target : Frame n} (h : frame.wake notify thread = target)
    (htarget : ∀ other : Frame n, other.resume ≠ some target) : frame = target := by
  rcases frame.wake_cases notify thread with heq | hresume
  · exact heq.symm.trans h
  · exact absurd (h ▸ hresume) (htarget frame)

/-- A thread that still waits in a join was not notified. -/
theorem Frame.wake_eq_joinWait (h : frame.wake notify thread = .joinWait id) :
    frame = .joinWait id ∧ notify.taskFinished = false := by
  obtain rfl := Frame.wake_eq h (by rintro (_ | _) <;> nofun)
  refine ⟨rfl, ?_⟩
  unfold Frame.wake at h
  split at h
  · cases h
  · next hnotified => exact Bool.eq_false_iff.mpr hnotified

theorem HelpsWell.wake {s : Shared n} (h : HelpsWell s thread stack) :
    HelpsWell s thread (stack.map (Frame.wake notify thread)) := by
  induction stack with
  | nil => trivial
  | cons frame below ih =>
    refine ⟨fun id hid => ?_, ih h.2⟩
    rw [Frame.helpTarget_wake] at hid
    obtain ⟨hknown, hown, hfree⟩ := h.1 id hid
    refine ⟨hknown, hown, ?_⟩
    rw [inHand_wake]
    exact hfree

end Waking

section Keeping

variable {s t : Shared n} {held : Held n} {event : Event n} {hand : List (ConcurrentTask n × Phase)}
  {id : TaskId}

theorem Effect.known {before : List (ConcurrentTask n × Phase)}
    (h : Effect capacity thread s before event t hand) (hknown : id ∈ s.state.statuses) :
    id ∈ t.state.statuses := by
  cases h with
  | idle _ hsame _ => exact hsame.statuses ▸ hknown
  | spawned | finished => exact Past.known_insert hknown _ _
  | _ => exact hknown

section

variable (haccounted : Accounted capacity s held)
  (heffect : Effect capacity thread s (held thread) event t hand)
include haccounted heffect

/-- The control of a task that was known is not replaced. -/
theorem Accounted.control_effect (hknown : id ∈ s.state.statuses) {control : ConcurrentTask n}
    (h : t.state.controls.lookup id = some control) :
    s.state.controls.lookup id = some control := by
  generalize held thread = before at heffect
  cases heffect with
  | idle _ hsame _ => exact hsame.controls ▸ h
  | spawned _ index haccepting hactive hnonzero htag hroom =>
    obtain ⟨position, hbehind⟩ := haccounted.behind
    have hne : id ≠ s.nextConcurrentTaskId := by
      rintro rfl
      exact (hbehind.give hnonzero htag hroom).1 hknown
    exact (AList.lookup_insert_ne hne).symm.trans h
  | finished rest ended status _ => exact (Table.lookup_erase_some h).2
  | _ => exact h

theorem HelpsWell.effect (h : HelpsWell s other stack) : HelpsWell t other stack := by
  induction stack with
  | nil => trivial
  | cons frame below ih =>
    refine ⟨fun id hid => ?_, ih h.2⟩
    obtain ⟨hknown, hown, hfree⟩ := h.1 id hid
    exact ⟨heffect.known hknown,
      fun control hcontrol => hown control (haccounted.control_effect heffect hknown hcontrol),
      hfree⟩

end

end Keeping

section OwnStack

variable {s : Shared n} {move : Move}

theorem unwind_suspended (h : ∀ frame ∈ rest, frame.suspended = true) :
    ∀ frame ∈ unwind rest, frame.suspended = true := by
  unfold unwind
  split
  · exact (forall_mem_cons.mp h).2
  · exact (forall_mem_cons.mp h).2
  · exact h

/-- What a return uncovers was suspended. -/
theorem popped_suspended (h : ∀ frame ∈ rest, frame.suspended = true)
    (hstack : outcome.stack = rest ∨ outcome.stack = unwind rest) :
    ∀ frame ∈ outcome.stack, frame.suspended = true := by
  rcases hstack with heq | heq
  · rw [heq]
    exact h
  · rw [heq]
    exact unwind_suspended h

theorem Turn.below (h : Turn thread s frame rest move outcome)
    (hrest : ∀ frame ∈ rest, frame.suspended = true) :
    ∀ frame ∈ outcome.stack.tail, frame.suspended = true := by
  cases h with
  | popped hstack _ =>
    intro other hother
    exact popped_suspended hrest hstack other (mem_of_mem_tail hother)
  | called body call _ _ hstack _ =>
    rw [hstack]
    exact forall_mem_cons.mpr ⟨rfl, hrest⟩
  | served control hframe hstack _ =>
    rw [hstack]
    exact forall_mem_cons.mpr ⟨hframe, hrest⟩
  | plain _ _ hstack _ _ | joinWaits _ _ _ _ _ hstack | helps _ _ _ _ _ _ _ hstack
    | helpsAgain _ _ _ _ hstack | helpWaits _ _ _ _ _ _ _ hstack _ | released hstack _
    | shuts _ _ _ hstack _ =>
      rw [hstack]
      exact hrest

/-- What a step can leave on top of a stack, apart from frames that neither join nor
touch the mutex. -/
inductive Top (thread : Thread n) (s : Shared n) (frame : Frame n) (move : Move)
    (outcome : Outcome n) : Frame n → Prop
  | other {top : Frame n} (h : top.suspended = true ∨ top.plain = true) :
      Top thread s frame move outcome top
  | entering {body : Body n} {call : Call} (hframe : frame = .body body)
      (hmove : move = .call call) : Top thread s frame move outcome (.entering call)
  | joinWait {id : TaskId} (hframe : frame = .joinLoop id) (hmove : move = .advance)
      (hpending : s.state.status id = .pending) (hshared : outcome.shared = s) :
      Top thread s frame move outcome (.joinWait id)
  | helpWait {id : TaskId} {timeout : Option Nat} {index : Fin n}
      (hthread : thread = .worker index) (hframe : frame = .helpLoop id)
      (hpending : s.state.status id = .pending)
      (hqueue : timeout = none → s.state.queues index = []) :
      Top thread s frame move outcome (.helpWait id timeout)

section

variable (h : Turn thread s frame rest move outcome)
  (hrest : ∀ frame ∈ rest, frame.suspended = true)
include h hrest

theorem Turn.top {top : Frame n} {below : List (Frame n)} (htop : outcome.stack = top :: below) :
    Top thread s frame move outcome top := by
  cases h with
  | popped hstack _ =>
    exact .other (.inl (popped_suspended hrest hstack top (htop ▸ mem_cons_self)))
  | plain next hplain hstack _ _ =>
    cases hstack.symm.trans htop
    exact .other (.inr hplain)
  | called body call hframe hmove hstack _ =>
    cases hstack.symm.trans htop
    exact .entering hframe hmove
  | joinWaits id hframe hmove hpending hshared hstack =>
    cases hstack.symm.trans htop
    exact .joinWait hframe hmove hpending hshared
  | helpWaits id timeout index hthread hframe hpending hqueue hstack _ =>
    cases hstack.symm.trans htop
    exact .helpWait hthread hframe hpending hqueue
  | released hstack _ | helps _ _ _ _ _ _ _ hstack | helpsAgain _ _ _ _ hstack =>
    cases hstack.symm.trans htop
    exact .other (.inl rfl)
  | served _ _ hstack _ | shuts _ _ _ hstack _ =>
    cases hstack.symm.trans htop
    exact .other (.inr rfl)

theorem Turn.joinWait {below : List (Frame n)} (htop : outcome.stack = .joinWait id :: below) :
    frame = .joinLoop id ∧ move = .advance ∧ s.state.status id = .pending ∧ outcome.shared = s := by
  cases h.top hrest htop with
  | other h => rcases h with h | h <;> cases h
  | joinWait hframe hmove hpending hshared => exact ⟨hframe, hmove, hpending, hshared⟩

end

end OwnStack

section Keeps

variable {s : State n} {move : Move}

theorem threads_after_self : (s.after thread outcome).threads thread = outcome.stack :=
  if_pos rfl

theorem threads_after_of_ne (h : other ≠ thread) : (s.after thread outcome).threads other =
      (s.threads other).map (Frame.wake outcome.notify other) :=
  if_neg h

/-- The top of a stack after a step was put there, or comes from the top before. -/
theorem threads_after_cases {top : Frame n} {below : List (Frame n)}
    (h : (s.after thread outcome).threads other = top :: below) :
    other = thread ∧ outcome.stack = top :: below ∨ other ≠ thread ∧ ∃ before deeper,
      s.threads other = before :: deeper ∧ before.wake outcome.notify other = top := by
  by_cases hother : other = thread
  · subst hother
    rw [threads_after_self] at h
    exact .inl ⟨rfl, h⟩
  · rw [threads_after_of_ne hother] at h
    obtain ⟨before, deeper, heq, hbefore, -⟩ := map_eq_cons_iff.mp h
    exact .inr ⟨hother, before, deeper, heq, hbefore⟩

theorem Progress.rest_suspended (h : Progress s) (hstack : s.threads thread = frame :: rest) :
    ∀ frame ∈ rest, frame.suspended = true := by
  have := h.below thread
  rw [hstack] at this
  exact this

theorem lookup_of_status {state : ExecutorState n}
    (h : state.status id = .pending) : state.statuses.lookup id = some .pending := by
  unfold ExecutorState.status at h
  cases hlookup : state.statuses.lookup id with
  | none =>
    rw [hlookup] at h
    cases h
  | some status =>
    rw [hlookup] at h
    exact congrArg some h

theorem HelpsWell.unwind {s : Shared n} (h : HelpsWell s thread stack) :
    HelpsWell s thread (unwind stack) := by
  unfold Executor.unwind
  split
  · exact h.2
  · exact h.2
  · exact h

theorem HelpsWell.cons {s : Shared n} (h : HelpsWell s thread stack)
    (hframe : frame.helpTarget = none) : HelpsWell s thread (frame :: stack) := by
  refine ⟨fun id hid => ?_, h⟩
  rw [hframe] at hid
  cases hid

theorem Frame.helpTarget_of_plain (h : frame.plain = true) : frame.helpTarget = none := by
  cases frame <;> first | rfl | cases h

/-- The target of a worker that serves its queue, and has nothing on top, is in the
queue. -/
theorem Target.queue_ne_nil (hinv : Inv capacity labels s) {index : Fin n}
    (hstack : s.threads (.worker index) = .helpLoop id :: rest)
    (h : Target s.shared (.worker index) rest id)
    (hpending : s.shared.state.status id = .pending) : s.shared.state.queues index ≠ [] := by
  have haccounted := hinv.accounted
  obtain ⟨control, hcontrol⟩ := isSome_iff_exists.mp
    ((haccounted.pending_iff id).mpr (lookup_of_status hpending))
  have hid := haccounted.control_id id control hcontrol
  have hindex : index = control.workerIndex := by
    simpa using h.own control hcontrol
  subst hindex
  rcases haccounted.located id control hcontrol with ⟨hone, -⟩ | ⟨-, holder, hone, -⟩
  · intro hnil
    rw [queuedTimes, hnil] at hone
    cases hone
  · -- nobody else has tasks of this worker in hand
    have hpos : 0 < heldTimes s.held control holder := by omega
    obtain ⟨entry, hentry, heq⟩ := countP_pos_iff.mp hpos
    have heq : entry.1 = control := of_decide_eq_true heq
    have hholder := (haccounted.inHand holder entry hentry).2.1
    rw [heq] at hholder
    subst hholder
    rw [State.held, hstack] at hentry
    exact absurd (by rw [heq, hid]) (h.free entry hentry)

/-- What can become of the `EXECUTOR` mutex in a step. -/
theorem Turn.lock_cases (h : Turn thread s.shared frame rest move outcome) :
    outcome.shared.owner = none ∨ SameLock s.shared outcome.shared ∨
      (outcome.stack = .body .releaseRejected :: rest ∧ outcome.shared.owner = some thread) ∨
      ∃ mode, frame = .entering (.shutdown mode) ∧ move = .advance ∧
        outcome.stack = .shutdownStart mode :: rest ∧ outcome.shared.executor = .gone := by
  cases h with
  | popped _ hlock => exact hlock.imp id .inl
  | plain _ _ _ hlock _ | called _ _ _ _ _ hlock | served _ _ _ hlock
    | helpWaits _ _ _ _ _ _ _ _ hlock => exact .inr (.inl hlock)
  | joinWaits _ _ _ _ hshared _ | helps _ _ _ _ _ _ hshared _ | helpsAgain _ _ _ hshared _ =>
    rw [hshared]
    exact .inr (.inl (.refl s.shared))
  | released hstack howner => exact .inr (.inr (.inl ⟨hstack, howner⟩))
  | shuts mode hframe hmove hstack hgone =>
    exact .inr (.inr (.inr ⟨mode, hframe, hmove, hstack, hgone⟩))

/-- `release_rejected` gives the mutex back when it ends. -/
theorem act_releaseRejected [NeZero n] {exited : Bool} {s : Shared n}
    (h : act capacity thread exited s (.body .releaseRejected) rest move = some outcome) :
    (∃ call, move = .call call) ∨ outcome.shared.owner = none := by
  cases move with
  | advance | wakeUp => cases h
  | call call => exact .inl ⟨call, rfl⟩
  | answer ending => cases ending <;> cases h <;> exact .inr rfl

section

variable (h : Progress s) (hstack : s.threads thread = frame :: rest)
  (hturn : Turn thread s.shared frame rest move outcome)
include h hstack hturn

theorem Progress.keeps_below (other : Thread n) :
    ∀ frame ∈ ((s.after thread outcome).threads other).tail, frame.suspended = true := by
  by_cases hother : other = thread
  · subst hother
    rw [threads_after_self]
    exact hturn.below (h.rest_suspended hstack)
  · rw [threads_after_of_ne hother, ← map_tail]
    intro woken hwoken
    obtain ⟨before, hbefore, rfl⟩ := mem_map.mp hwoken
    exact Frame.wake_suspended (h.below other before hbefore)

theorem Progress.keeps_joining
    (hpending : KeepsPending s.shared outcome.shared ∨ outcome.notify.taskFinished = true)
    (other : Thread n) (id : TaskId) (below : List (Frame n))
    (htop : (s.after thread outcome).threads other = .joinWait id :: below) :
    outcome.shared.state.statuses.lookup id = some .pending := by
  rcases threads_after_cases htop with ⟨rfl, hmade⟩ | ⟨-, before, deeper, heq, hwake⟩
  · obtain ⟨-, -, hstatus, hshared⟩ := hturn.joinWait (h.rest_suspended hstack) hmade
    rw [hshared]
    exact lookup_of_status hstatus
  · obtain ⟨rfl, hsilent⟩ := Frame.wake_eq_joinWait hwake
    rcases hpending with hkeeps | hnotified
    · exact hkeeps id (h.joining other id deeper heq)
    · rw [hsilent] at hnotified
      cases hnotified

theorem Progress.keeps_lock [NeZero n]
    (hact : act capacity thread s.exited s.shared frame rest move = some outcome)
    (hcareful : Careful s thread frame move) (owner : Thread n)
    (howner : outcome.shared.owner = some owner) :
    (∃ rest, (s.after thread outcome).threads owner = .body .releaseRejected :: rest) ∨
      outcome.shared.executor = .gone ∧
        ∀ i call rest, (s.after thread outcome).threads (.worker i) ≠ .entering call :: rest := by
  -- a worker before the mutex was there already, or has just made its call
  have hentering : ∀ i call below,
      (s.after thread outcome).threads (.worker i) = .entering call :: below →
        (∃ deeper, .worker i ≠ thread ∧ s.threads (.worker i) = .entering call :: deeper) ∨
          .worker i = thread ∧ ∃ body, frame = .body body ∧ move = .call call := by
    intro i call below htop
    rcases threads_after_cases htop with ⟨rfl, hmade⟩ | ⟨hi, before, deeper, heq, hwake⟩
    · cases hturn.top (h.rest_suspended hstack) hmade with
      | other h => rcases h with h | h <;> cases h
      | entering hframe hmove => exact .inr ⟨rfl, _, hframe, hmove⟩
    · obtain rfl := Frame.wake_eq hwake (by rintro (_ | _) <;> nofun)
      exact .inl ⟨deeper, hi, heq⟩
  rcases hturn.lock_cases with hnone | hsame | ⟨hnew, hself⟩ | ⟨mode, hframe, hmove, hnew, hgone⟩
  · rw [hnone] at howner
    cases howner
  · rw [hsame.1] at howner
    rcases h.lock owner howner with ⟨below, hrelease⟩ | ⟨hgone, hfree⟩
    · by_cases hthread : owner = thread
      · subst hthread
        rw [hstack] at hrelease
        cases hrelease
        rcases act_releaseRejected hact with ⟨call, rfl⟩ | hnone
        · exact hcareful.elim
        · rw [hsame.1, howner] at hnone
          cases hnone
      · left
        rw [threads_after_of_ne hthread, hrelease]
        exact ⟨_, rfl⟩
    · right
      refine ⟨hsame.2.trans hgone, fun i call below htop => ?_⟩
      rcases hentering i call below htop with ⟨deeper, -, hold⟩ | ⟨hi, body, rfl, rfl⟩
      · exact hfree i call deeper hold
      · have hcalls : ¬ (s.shared.executor = .gone ∧ s.shared.owner.isSome = true) := by
          cases body <;> first | exact hcareful.elim | exact hcareful i hi.symm
        exact hcalls ⟨hgone, by rw [howner]; rfl⟩
  · left
    rw [hself] at howner
    cases howner
    rw [threads_after_self, hnew]
    exact ⟨rest, rfl⟩
  · right
    refine ⟨hgone, fun i call below htop => ?_⟩
    subst hframe hmove
    rcases hentering i call below htop with ⟨deeper, hi, hold⟩ | ⟨-, body, hframe, -⟩
    · exact hcareful i call deeper hi hold
    · cases hframe

variable (hinv : Inv capacity labels s)
include hinv

theorem Progress.keeps_busy (other : Thread n) (id : TaskId)
    (below : List (Frame n)) :
    (s.after thread outcome).threads other ≠ .helpWait id none :: below := by
  intro htop
  rcases threads_after_cases htop with ⟨rfl, hmade⟩ | ⟨-, before, deeper, heq, hwake⟩
  · cases hturn.top (h.rest_suspended hstack) hmade with
    | other h => rcases h with h | h <;> cases h
    | @helpWait _ _ index hthread hframe hpending hqueue =>
      subst hthread hframe
      have htarget := (hstack ▸ h.helping (.worker index)).1 id rfl
      exact htarget.queue_ne_nil hinv hstack hpending (hqueue rfl)
  · obtain rfl := Frame.wake_eq hwake (by rintro (_ | _) <;> nofun)
    exact h.busy other id deeper heq

variable (heffect : Effect capacity thread s.shared (s.held thread) outcome.event outcome.shared
  (inHand outcome.stack))
include heffect

theorem Progress.keeps_helping (hcareful : Careful s thread frame move) (other : Thread n) :
    HelpsWell outcome.shared other ((s.after thread outcome).threads other) := by
  by_cases hother : other = thread
  · subst hother
    rw [threads_after_self]
    have hold : HelpsWell outcome.shared other (frame :: rest) :=
      hstack ▸ (h.helping other).effect hinv.accounted heffect
    cases hturn with
    | popped hnew _ =>
      rcases hnew with heq | heq
      · rw [heq]
        exact hold.2
      · rw [heq]
        exact hold.2.unwind
    | plain next hplain hnew _ _ =>
      rw [hnew]
      exact hold.2.cons (Frame.helpTarget_of_plain hplain)
    | called body call hframe _ hnew _ =>
      rw [hnew, ← hframe]
      exact hold.cons rfl
    | served control _ hnew _ =>
      rw [hnew]
      exact hold.cons rfl
    | helps id control hframe hmove hcontrol hthread hshared hnew =>
      rw [hnew]
      refine ⟨fun target htarget => ?_, hold.2⟩
      cases htarget
      subst hframe hmove
      have hpending := (hinv.accounted.pending_iff id).mp (by rw [hcontrol]; rfl)
      rw [hshared]
      refine ⟨Table.mem_of_lookup hpending, ?_, ?_⟩
      · intro registered hregistered
        rw [hcontrol] at hregistered
        cases hregistered
        exact hthread
      · intro entry hentry
        refine hcareful entry ?_
        rw [State.held, hstack]
        exact hentry
    | helpsAgain id timeout hframe _ hnew | helpWaits id timeout index _ hframe _ _ hnew _ =>
      rw [hnew]
      subst hframe
      exact ⟨fun target htarget => hold.1 target htarget, hold.2⟩
    | joinWaits id _ _ _ _ hnew | released hnew _ | shuts mode _ _ hnew _ =>
      rw [hnew]
      exact hold.2.cons rfl
  · rw [threads_after_of_ne hother]
    exact ((h.helping other).effect hinv.accounted heffect).wake

/-- The waits after a step are those before it and at most that of the thread that
made the step. -/
theorem Progress.waits_after {i j : Fin n} (hwaits : (s.after thread outcome).Waits i j) :
    s.Waits i j ∨ thread = .worker i ∧ ∃ id control, frame = .joinLoop id ∧ move = .advance ∧
      s.shared.state.controls.lookup id = some control ∧ control.workerIndex = j := by
  obtain ⟨id, below, control, htop, hcontrol, hindex⟩ := hwaits
  rcases threads_after_cases htop with ⟨rfl, hmade⟩ | ⟨-, before, deeper, heq, hwake⟩
  · obtain ⟨hframe, hmove, -, hshared⟩ := hturn.joinWait (h.rest_suspended hstack) hmade
    refine .inr ⟨rfl, id, control, hframe, hmove, ?_, hindex⟩
    exact hshared ▸ hcontrol
  · obtain ⟨rfl, -⟩ := Frame.wake_eq_joinWait hwake
    have hknown : id ∈ s.shared.state.statuses :=
      Table.mem_of_lookup (h.joining _ id deeper heq)
    exact .inl ⟨id, deeper, control, heq,
      hinv.accounted.control_effect heffect hknown hcontrol, hindex⟩

theorem Progress.keeps_noCycle (hcareful : Careful s thread frame move) :
    NoCycle (s.after thread outcome).Waits := by
  by_cases hnew : ∃ i id control, thread = .worker i ∧ frame = .joinLoop id ∧ move = .advance ∧
      s.shared.state.controls.lookup id = some control
  · obtain ⟨i, id, control, hthread, hframe, hmove, hcontrol⟩ := hnew
    subst hframe hmove
    refine h.noCycle.add_edge (hcareful i control hthread hcontrol) fun c d hcd => ?_
    rcases h.waits_after hstack hturn hinv heffect hcd with
      hold | ⟨hc, other, registered, hother, -, hregistered, hd⟩
    · exact .inl hold
    · cases hother
      rw [hcontrol] at hregistered
      cases hregistered
      rw [hthread] at hc
      cases hc
      exact .inr ⟨rfl, hd.symm⟩
  · refine h.noCycle.mono fun c d hcd => ?_
    rcases h.waits_after hstack hturn hinv heffect hcd with
      hold | ⟨hc, id, control, hframe, hmove, hcontrol, -⟩
    · exact hold
    · exact absurd ⟨c, id, control, hc, hframe, hmove, hcontrol⟩ hnew

end

/-- A careful step keeps everything that progress rests on. -/
theorem Progress.step [NeZero n] (h : Progress s) (hinv : Inv capacity labels s) {label : Label n}
    {t : State n} (hstep : CarefulStep capacity s label t) : Progress t := by
  obtain ⟨hstep, hcareful⟩ := hstep
  cases hstep with
  | tick elapsed =>
    have hidle : ∀ thread, Effect capacity thread s.shared (s.held thread) .silent
        { s.shared with now := s.shared.now + elapsed } (s.held thread) :=
      fun thread => .idle _ { SameTasks.refl s.shared with } rfl
    exact { h with
      helping := fun thread => (h.helping thread).effect hinv.accounted (hidle thread) }
  | step thread move frame rest outcome hroom hstack hact =>
    have hcareful := hcareful thread move outcome.event frame rest rfl hstack
    obtain ⟨heffect, hturn, hpending, -⟩ := hinv.step_effect hroom hstack hact
    exact ⟨h.keeps_below hstack hturn, h.keeps_joining hstack hturn hpending,
      h.keeps_helping hstack hturn hinv heffect hcareful, h.keeps_busy hstack hturn hinv,
      h.keeps_lock hstack hturn hact hcareful, h.keeps_noCycle hstack hturn hinv heffect hcareful⟩

end Keeps

section Wedge

variable [NeZero n] {s : State n}

/-- Frames in which a thread is blocked in a join or before the `EXECUTOR` mutex. -/
def Frame.blocked : Frame n → Bool
  | .joinWait _ | .helpWait _ none | .entering _ => true
  | _ => false

/-- A thread can go on, and not only because a wait may end for no reason. -/
def Enabled (capacity : Nat) (s : State n) (thread : Thread n) : Prop :=
  ∃ frame rest move outcome, s.threads thread = frame :: rest ∧
    act capacity thread s.exited s.shared frame rest move = some outcome ∧
    outcome.event ≠ .spurious

/-- A task is pending, every worker is blocked, and no thread that is inside the
executor can go on. -/
structure Wedged (capacity : Nat) (s : State n) : Prop where
  pending : ∃ id, s.shared.state.statuses.lookup id = some .pending
  blocked : ∀ i, ∃ frame rest, s.threads (.worker i) = frame :: rest ∧ frame.blocked = true
  stuck : ∀ thread, s.threads thread ≠ [.body .outside] → ¬ Enabled capacity s thread

omit [NeZero n] in
theorem initial_progress (n next : Nat) : Progress (initial n next) where
  below := by
    rintro (index | index) frame hframe <;> cases hframe
  joining := by
    rintro (index | index) id rest hstack <;> cases hstack
  helping := by
    rintro (index | index) <;> exact ⟨nofun, trivial⟩
  busy := by
    rintro (index | index) id rest hstack <;> cases hstack
  lock := nofun
  noCycle := NoCycle.of_rank (fun _ => 0) fun i j hwaits => by
    obtain ⟨id, rest, control, hstack, -⟩ := hwaits
    cases hstack

theorem run_progress {next : Nat} (hrun : Run (CarefulStep capacity) (initial n next) labels s) :
    Inv capacity labels s ∧ Progress s := by
  refine hrun.invariant (P := fun labels s => Inv capacity labels s ∧ Progress s)
    ⟨initial_inv n capacity next, initial_progress n next⟩ ?_
  intro labels s label t _ h hstep
  exact ⟨inv_step h.1 hstep.1, h.2.step h.1 hstep⟩

/-- Whoever is before the mutex when it is free can go on. -/
theorem enabled_of_free {call : Call}
    (hstack : s.threads thread = .entering call :: rest) (hfree : s.shared.owner = none) :
    Enabled capacity s thread := by
  have hadvance : ∃ outcome,
      advance capacity thread s.exited s.shared rest (.entering call) = some outcome := by
    simp only [advance, hfree, isSome_none, Bool.false_eq_true, if_false]
    split
    · cases call <;> simp only [enter, Option.some.injEq, exists_eq']
      split <;> exact ⟨_, rfl⟩
    · exact ⟨_, rfl⟩
  obtain ⟨outcome, hadvance⟩ := hadvance
  refine ⟨_, rest, .advance, outcome, hstack, hadvance, ?_⟩
  simp only [advance, hfree, isSome_none, Bool.false_eq_true, if_false] at hadvance
  split at hadvance
  · rw [enter_event hadvance]
    rintro ⟨⟩
  · cases hadvance
    rintro ⟨⟩

/-- No state with the invariants of careful runs is wedged. -/
theorem Progress.not_wedged (h : Progress s) (hinv : Inv capacity labels s) :
    ¬ Wedged capacity s := by
  intro hwedged
  have hworkers : ∀ i, ∃ j, s.Waits i j := by
    intro i
    obtain ⟨frame, rest, hstack, hblocked⟩ := hwedged.blocked i
    have hinside : s.threads (.worker i) ≠ [.body .outside] := by
      rw [hstack]
      rintro heq
      cases heq
      cases hblocked
    cases frame with
    | joinWait id =>
      have hpending := h.joining _ id rest hstack
      obtain ⟨control, hcontrol⟩ := isSome_iff_exists.mp
        ((hinv.accounted.pending_iff id).mpr hpending)
      exact ⟨control.workerIndex, id, rest, control, hstack, hcontrol, rfl⟩
    | helpWait id timeout =>
      cases timeout with
      | none => exact absurd hstack (h.busy _ id rest)
      | some _ => cases hblocked
    | entering call =>
      cases howner : s.shared.owner with
      | none => exact absurd (enabled_of_free hstack howner) (hwedged.stuck _ hinside)
      | some owner =>
        rcases h.lock owner howner with ⟨below, hrelease⟩ | ⟨-, hnobody⟩
        · -- the code that has the mutex can return
          refine absurd ?_ (hwedged.stuck owner (by rw [hrelease]; nofun))
          exact ⟨_, below, .answer .returned, _, hrelease, rfl, nofun⟩
        · exact absurd hstack (hnobody i call rest)
    | _ => cases hblocked
  obtain ⟨i, hfree⟩ := h.noCycle.exists_free
  obtain ⟨j, hwaits⟩ := hworkers i
  exact hfree j hwaits

/-- No state of a careful run is wedged. -/
theorem joins_do_not_wedge (n : Nat) [NeZero n] (capacity next : Nat) (labels : List (Label n))
    (s : State n) (hrun : Run (CarefulStep capacity) (initial n next) labels s) :
    ¬ Wedged capacity s := by
  obtain ⟨hinv, hprogress⟩ := run_progress hrun
  exact hprogress.not_wedged hinv

theorem CarefulStep.step (s : State n) (thread : Thread n) (move : Move)
    (hroom : s.shared.state.statuses.keys.length < statusRoom := by decide)
    (hstack : s.threads thread = frame :: rest := by rfl)
    (hact : act capacity thread s.exited s.shared frame rest move = some outcome := by rfl)
    (hcareful : Careful s thread frame move := by trivial) :
    CarefulStep capacity s (.step thread move outcome.event) (s.after thread outcome) := by
  refine ⟨.step s thread move frame rest outcome hroom hstack hact, ?_⟩
  intro other _ _ top below hlabel htop
  cases hlabel
  rw [hstack] at htop
  cases htop
  exact hcareful

/-- A worker serves its queue while its task joins one that waits there. -/
theorem joins_do_not_wedge_one_worker :
    ∃ labels s, Run (CarefulStep 2) (initial 1 1) labels s ∧
      s.threads (.worker 0) = [.taken ⟨2, 0⟩, .helpLoop 2, .body (.poll ⟨1, 0⟩), .workerLoop] ∧
      ¬ Wedged 2 s := by
  have called : Run (CarefulStep 2) (initial 1 1) _ _ :=
    .snoc (.nil _) (.step _ (.outside 0) (.call .spawnDetached) (by decide) rfl rfl nofun)
  have spawned := called.snoc (.step _ (.outside 0) .advance)
  have called' := spawned.snoc
    (.step _ (.outside 0) (.call .spawnDetached) (by decide) rfl rfl nofun)
  have spawned' := called'.snoc (.step _ (.outside 0) .advance)
  have taken := spawned'.snoc (.step _ (.worker 0) .advance)
  have opened := taken.snoc (.step _ (.worker 0) .advance)
  have polled := opened.snoc (.step _ (.worker 0) .advance)
  have joins := polled.snoc (.step _ (.worker 0) (.call (.join 2)) (by decide) rfl rfl
    fun _ _ hgone => nomatch hgone.1)
  have enters := joins.snoc (.step _ (.worker 0) .advance)
  have known := enters.snoc (.step _ (.worker 0) .advance)
  have helps := known.snoc (.step _ (.worker 0) .advance (by decide) rfl rfl (by
    intro entry hentry
    obtain rfl := mem_singleton.mp hentry
    decide))
  have serves := helps.snoc (.step _ (.worker 0) .advance)
  exact ⟨_, _, serves, rfl, joins_do_not_wedge 1 2 1 _ _ serves⟩

omit [NeZero n] in
def Body.task : Body n → Option TaskId
  | .poll control | .cancel control | .onSchedulerDrop control _ _ | .dropped control =>
    some control.id
  | .outside | .releaseRejected => none

/-- The joins of a run that tasks made, with the task first that waits. -/
def joinsOf (labels : List (Label n)) : List (TaskId × TaskId) :=
  labels.filterMap fun
    | .step _ _ (.called body (.join target)) => body.task.map (·, target)
    | _ => none

/-- A wait ends for no reason or not at all by itself. -/
theorem not_enabled_of_wait (id : TaskId) (hstack : s.threads thread = frame :: rest)
    (hwait : frame = .joinWait id ∨ frame = .helpWait id none ∨ frame = .shutdownWait) :
    ¬ Enabled capacity s thread := by
  rintro ⟨top, below, move, outcome, htop, hact, hevent⟩
  obtain ⟨rfl, rfl⟩ := List.cons.inj (hstack.symm.trans htop)
  apply hevent
  rcases hwait with rfl | rfl | rfl <;> cases move <;> cases hact <;> rfl

theorem not_enabled_of_entering {call : Call}
    (hstack : s.threads thread = .entering call :: rest) (howner : s.shared.owner.isSome = true) :
    ¬ Enabled capacity s thread := by
  rintro ⟨frame, below, move, outcome, htop, hact, -⟩
  rw [hstack] at htop
  cases htop
  cases move with
  | advance =>
    simp only [act, advance, howner] at hact
    cases hact
  | _ => cases hact

end Wedge

section Schedules

variable [NeZero n] {s t : State n}

/-- The run that a schedule of threads and moves makes, if every move can be made. -/
def execAll (capacity : Nat) : State n → List (Thread n × Move) → Option (List (Label n) × State n)
  | s, [] => some ([], s)
  | s, (thread, move) :: schedule =>
    match s.threads thread with
    | [] => none
    | frame :: rest =>
      if s.shared.state.statuses.keys.length < statusRoom then do
        let outcome ← act capacity thread s.exited s.shared frame rest move
        let (labels, t) ← execAll capacity (s.after thread outcome) schedule
        some (.step thread move outcome.event :: labels, t)
      else none

/-- A schedule that can be made is a run, and threads that it does not name and that
are outside stay there. -/
theorem execAll_run (schedule : List (Thread n × Move)) :
    ∀ {s t : State n} {labels : List (Label n)}, execAll capacity s schedule = some (labels, t) →
      Run (Step capacity) s labels t ∧
        ∀ thread, thread ∉ schedule.map Prod.fst → s.threads thread = [.body .outside] →
          t.threads thread = [.body .outside] := by
  induction schedule with
  | nil =>
    intro s t labels h
    cases h
    exact ⟨.nil s, fun _ _ hidle => hidle⟩
  | cons head schedule ih =>
    obtain ⟨thread, move⟩ := head
    intro s t labels h
    simp only [execAll] at h
    split at h
    · cases h
    · next frame rest hstack =>
      split at h
      · next hroom =>
        obtain ⟨outcome, hact, h⟩ := bind_eq_some_iff.mp h
        obtain ⟨⟨later, u⟩, hlater, h⟩ := bind_eq_some_iff.mp h
        cases h
        obtain ⟨hrun, hidle⟩ := ih hlater
        have hfirst : Run (Step capacity) s ([] ++ [_]) _ :=
          .snoc (.nil s) (.step s thread move frame rest outcome hroom hstack hact)
        refine ⟨hfirst.append hrun, fun other hother hstill => hidle other ?_ ?_⟩
        · exact fun hmem => hother (mem_cons_of_mem _ hmem)
        · have hne : other ≠ thread := fun heq => hother (heq ▸ mem_cons_self)
          rw [threads_after_of_ne hne, hstill]
          rfl
      · cases h

end Schedules

section Counterexamples

def spawns {n : Nat} (count : Nat) : List (Thread n × Move) :=
  List.flatten (List.replicate count [(.outside 0, .call .spawnDetached), (.outside 0, .advance)])

/-- A worker advances as often as said. -/
def advances {n : Nat} (index : Fin n) (count : Nat) : List (Thread n × Move) :=
  List.replicate count (.worker index, .advance)

/-- Only one thread of a schedule is outside, and the workers and it are stuck. -/
theorem stuck_after [NeZero n] {next : Nat} {schedule : List (Thread n × Move)} {s : State n}
    (hexec : execAll capacity (initial n next) schedule = some (labels, s))
    (hschedule : ∀ index, .outside (index + 1) ∉ schedule.map Prod.fst)
    (hworkers : ∀ index, ¬ Enabled capacity s (.worker index))
    (hcaller : s.threads (.outside 0) = [.body .outside] ∨ ¬ Enabled capacity s (.outside 0))
    (thread : Thread n) (hinside : s.threads thread ≠ [.body .outside]) :
    ¬ Enabled capacity s thread := by
  rcases thread with index | _ | index
  · exact hworkers index
  · exact hcaller.resolve_left hinside
  · exact absurd ((execAll_run schedule hexec).2 _ (hschedule index) rfl) hinside

section

local instance neZero_two : NeZero 2 := ⟨two_ne_zero⟩

/-- Two workers, the tasks 1 and 3 of the first and 2 and 4 of the second. Task 1
joins task 4 and task 2 joins task 3. -/
def acrossWorkers : List (Thread 2 × Move) :=
  spawns 4 ++ advances 0 3 ++ [(.worker 0, .call (.join 4))] ++ advances 0 4 ++
    advances 1 3 ++ [(.worker 1, .call (.join 3))] ++ advances 1 4

end

/-- Each worker waits for a task in the queue of the other. -/
theorem wedge_across_workers :
    ∃ labels s, Run (Step 4) (initial 2 1) labels s ∧ joinsOf labels = [(1, 4), (2, 3)] ∧
      Wedged 4 s := by
  have hmap : (execAll 4 (initial 2 1) acrossWorkers).map (fun result =>
      (joinsOf result.1, result.2.shared.state.statuses.lookup 1,
        result.2.threads (.worker 0), result.2.threads (.worker 1),
        result.2.threads (.outside 0))) =
      some ([(1, 4), (2, 3)], some .pending, [.joinWait 4, .body (.poll ⟨1, 0⟩), .workerLoop],
        [.joinWait 3, .body (.poll ⟨2, 1⟩), .workerLoop], [.body .outside]) := by
    decide +kernel
  obtain ⟨⟨labels, s⟩, hexec, heq⟩ := map_eq_some_iff.mp hmap
  simp only [Prod.mk.injEq] at heq
  obtain ⟨hjoins, hpending, hfirst, hsecond, houtside⟩ := heq
  refine ⟨labels, s, (execAll_run _ hexec).1, hjoins, ⟨1, hpending⟩, ?_, ?_⟩
  · rw [Fin.forall_fin_two]
    exact ⟨⟨_, _, hfirst, rfl⟩, ⟨_, _, hsecond, rfl⟩⟩
  · refine stuck_after hexec (by simp [acrossWorkers, spawns, advances]) ?_ (.inl houtside)
    rw [Fin.forall_fin_two]
    exact ⟨not_enabled_of_wait 4 hfirst (.inl rfl), not_enabled_of_wait 3 hsecond (.inl rfl)⟩

/-- One worker with the tasks 1, 2 and 3. Task 1 joins task 3, and the worker polls
task 2 meanwhile, which joins task 1. Task 3 completes. -/
def onOneStack : List (Thread 1 × Move) :=
  spawns 3 ++ advances 0 3 ++ [(.worker 0, .call (.join 3))] ++ advances 0 6 ++
    [(.worker 0, .call (.join 1))] ++ advances 0 6 ++ [(.worker 0, .answer .complete)] ++
    advances 0 1 ++ [(.worker 0, .answer .returned)] ++ advances 0 1

/-- Task 2 waits for task 1, which lies below it on the stack of the only worker. -/
theorem wedge_on_one_stack :
    ∃ labels s, Run (Step 3) (initial 1 1) labels s ∧ joinsOf labels = [(1, 3), (2, 1)] ∧
      Wedged 3 s := by
  have hmap : (execAll 3 (initial 1 1) onOneStack).map (fun result =>
      (joinsOf result.1, result.2.shared.state.statuses.lookup 1,
        result.2.threads (.worker 0), result.2.threads (.outside 0))) =
      some ([(1, 3), (2, 1)], some .pending,
        [.helpWait 1 none, .body (.poll ⟨2, 0⟩), .helpLoop 3, .body (.poll ⟨1, 0⟩), .workerLoop],
        [.body .outside]) := by
    decide +kernel
  obtain ⟨⟨labels, s⟩, hexec, heq⟩ := map_eq_some_iff.mp hmap
  simp only [Prod.mk.injEq] at heq
  obtain ⟨hjoins, hpending, hworker, houtside⟩ := heq
  refine ⟨labels, s, (execAll_run _ hexec).1, hjoins, ⟨1, hpending⟩, ?_, ?_⟩
  · rw [Fin.forall_fin_one]
    exact ⟨_, _, hworker, rfl⟩
  · refine stuck_after hexec (by simp [onOneStack, spawns, advances]) ?_ (.inl houtside)
    rw [Fin.forall_fin_one]
    exact not_enabled_of_wait 1 hworker (.inr (.inl rfl))

/-- The only task is polled when a draining shutdown begins, and asks for its own
status then. -/
def inDrain : List (Thread 1 × Move) :=
  spawns 1 ++ advances 0 3 ++ [(.outside 0, .call (.shutdown .drain)), (.outside 0, .advance),
    (.outside 0, .advance), (.worker 0, .call (.taskStatus 1))]

/-- The shutdown keeps the `EXECUTOR` mutex until the task ends, the task waits for
the mutex. -/
theorem wedge_in_drain :
    ∃ labels s, Run (Step 1) (initial 1 1) labels s ∧ joinsOf labels = [] ∧ Wedged 1 s := by
  have hmap : (execAll 1 (initial 1 1) inDrain).map (fun result =>
      (joinsOf result.1, result.2.shared.state.statuses.lookup 1, result.2.shared.owner.isSome,
        result.2.threads (.worker 0), result.2.threads (.outside 0))) =
      some ([], some .pending, true, [.entering (.taskStatus 1), .body (.poll ⟨1, 0⟩), .workerLoop],
        [.shutdownWait, .body .outside]) := by
    decide +kernel
  obtain ⟨⟨labels, s⟩, hexec, heq⟩ := map_eq_some_iff.mp hmap
  simp only [Prod.mk.injEq] at heq
  obtain ⟨hjoins, hpending, howner, hworker, houtside⟩ := heq
  refine ⟨labels, s, (execAll_run _ hexec).1, hjoins, ⟨1, hpending⟩, ?_, ?_⟩
  · rw [Fin.forall_fin_one]
    exact ⟨_, _, hworker, rfl⟩
  · refine stuck_after hexec (by simp [inDrain, spawns, advances]) ?_
      (.inr (not_enabled_of_wait 0 houtside (.inr (.inr rfl))))
    rw [Fin.forall_fin_one]
    exact not_enabled_of_entering hworker howner

/-- The executor can be wedged although no task waits for itself: by joins across
workers, by joins on one stack, and by a draining shutdown without any join. -/
theorem executor_wedges :
    (∃ labels s, Run (Step 4) (initial 2 1) labels s ∧
      NoCycle (fun a b => (a, b) ∈ joinsOf labels) ∧ Wedged 4 s) ∧
    (∃ labels s, Run (Step 3) (initial 1 1) labels s ∧
      NoCycle (fun a b => (a, b) ∈ joinsOf labels) ∧ Wedged 3 s) ∧
    ∃ labels s, Run (Step 1) (initial 1 1) labels s ∧ joinsOf labels = [] ∧ Wedged 1 s := by
  obtain ⟨across, s, hacross, hacrossJoins, hs⟩ := wedge_across_workers
  obtain ⟨nested, t, hnested, hnestedJoins, ht⟩ := wedge_on_one_stack
  refine ⟨⟨across, s, hacross, ?_, hs⟩, ⟨nested, t, hnested, ?_, ht⟩, wedge_in_drain⟩
  · rw [hacrossJoins]
    refine NoCycle.of_rank (fun a => 4 - a) fun a b hab => ?_
    simp only [mem_cons, not_mem_nil, or_false] at hab
    rcases hab with ⟨rfl, rfl⟩ | ⟨rfl, rfl⟩ <;> decide
  · rw [hnestedJoins]
    refine NoCycle.of_rank (fun a => if a = 3 then 0 else a) fun a b hab => ?_
    simp only [mem_cons, not_mem_nil, or_false] at hab
    rcases hab with ⟨rfl, rfl⟩ | ⟨rfl, rfl⟩ <;> decide

end Counterexamples

end Sengoo.Runtime.Executor
