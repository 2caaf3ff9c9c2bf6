import Sengoo.Concurrency
import Sengoo.Runtime.Executor

/-!
What one step of a thread does to the tasks it has in hand. A task is in hand from
the moment a worker takes its entry out of the queue until the entry is put back or
its status is final. Every step is one of a few effects on the memory and on the
tasks in hand; the facts about whole runs rest on these effects alone.
-/

namespace Sengoo.Runtime.Executor

variable {n capacity : Nat} {rest : List (Frame n)} {thread : Thread n} {frame : Frame n}
  {outcome : Outcome n}

section Custody

/-- How far a task in hand has come: before its cell was emptied, out of the cell,
back in the cell, or past its last poll. -/
inductive Phase where
  | taken
  | out
  | back
  | late
  deriving DecidableEq

/-- Whether the cell of a task in this phase is full. -/
def Phase.full : Phase → Bool
  | .taken | .back => true
  | .out | .late => false

def Frame.inHand : Frame n → Option (ConcurrentTask n × Phase)
  | .taken control => some (control, .taken)
  | .checking control | .body (.poll control) | .polled control _ | .storing control _ =>
    some (control, .out)
  | .requeueing control _ => some (control, .back)
  | .body (.cancel control) | .body (.onSchedulerDrop control _ _) | .finishing control _ =>
    some (control, .late)
  | _ => none

/-- The tasks a thread has in hand, the latest first. -/
def inHand (stack : List (Frame n)) : List (ConcurrentTask n × Phase) :=
  stack.filterMap Frame.inHand

theorem inHand_cons (frame : Frame n) (rest : List (Frame n)) :
    inHand (frame :: rest) = frame.inHand.toList ++ inHand rest := by
  unfold inHand
  rw [List.filterMap_cons]
  cases frame.inHand <;> rfl

theorem inHand_of_none (h : frame.inHand = none) (rest : List (Frame n)) :
    inHand (frame :: rest) = inHand rest :=
  List.filterMap_cons_none h

theorem inHand_unwind (rest : List (Frame n)) : inHand (unwind rest) = inHand rest := by
  unfold unwind
  split <;> rfl

theorem Frame.inHand_wake (notify : Notify n) (thread : Thread n) (frame : Frame n) :
    (frame.wake notify thread).inHand = frame.inHand := by
  unfold Frame.wake
  split
  · cases frame <;> rfl
  · rfl

theorem inHand_wake (notify : Notify n) (thread : Thread n) (stack : List (Frame n)) :
    inHand (stack.map (Frame.wake notify thread)) = inHand stack := by
  unfold inHand
  rw [List.filterMap_map]
  congr 1
  funext frame
  exact Frame.inHand_wake notify thread frame

end Custody

section Queues

/-- The pass over the queue, seen with its entries not yet visited and those put
back behind them. -/
theorem nextReadyLoop_spec (now : Nat) (cancelRequested : TaskId → Bool)
    (todo : List (QueuedTask n)) :
    ∀ (done : List (QueuedTask n)) (earliest : Option Nat), (∃ before task after,
        nextReadyLoop now cancelRequested todo.length (todo ++ done) earliest =
          (some task, none, after ++ done ++ before) ∧ todo = before ++ task :: after) ∨
      ∃ delay, nextReadyLoop now cancelRequested todo.length (todo ++ done) earliest =
          (none, delay, done ++ todo) ∧ (delay = none → todo = [] ∧ earliest = none) := by
  induction todo with
  | nil =>
    intro done earliest
    exact .inr ⟨earliest, by simp [nextReadyLoop], fun h => ⟨rfl, h⟩⟩
  | cons task todo ih =>
    intro done earliest
    simp only [List.length_cons, List.cons_append, nextReadyLoop]
    split
    · exact .inl ⟨[], task, todo, by simp, rfl⟩
    · split
      · exact .inl ⟨[], task, todo, by simp, rfl⟩
      · next deadline _ _ =>
        -- the entry goes to the back
        rw [List.append_assoc]
        rcases ih (done ++ [task]) _ with ⟨before, found, after, heq, rfl⟩ | ⟨delay, heq, hdelay⟩
        · refine .inl ⟨task :: before, found, after, ?_, rfl⟩
          rw [heq]
          simp
        · refine .inr ⟨delay, ?_, fun h => ?_⟩
          · rw [heq]
            simp
          · exact absurd (hdelay h).2 nofun

/-- A pass either takes one entry out or leaves the queue as it is, and then it has
a time to wait unless the queue is empty. -/
theorem nextReadyTask_spec (s : Shared n) (index : Fin n) :
    (∃ before task after, nextReadyTask s index = (some task, none, after ++ before) ∧
      s.state.queues index = before ++ task :: after) ∨
    ∃ delay, nextReadyTask s index = (none, delay, s.state.queues index) ∧
      (delay = none → s.state.queues index = []) := by
  unfold nextReadyTask
  rcases nextReadyLoop_spec s.now s.cancelRequested (s.state.queues index) [] none with
    ⟨before, task, after, heq, hqueue⟩ | ⟨delay, heq, hdelay⟩
  · refine .inl ⟨before, task, after, ?_, hqueue⟩
    simpa using heq
  · refine .inr ⟨delay, ?_, fun h => (hdelay h).1⟩
    simpa using heq

end Queues

section Effects

/-- The task whose code starts to run in an event. -/
def Event.task : Event n → Option TaskId
  | .poll id | .cancel id | .onSchedulerDrop id => some id
  | _ => none

/-- Nothing that counts tasks has changed. -/
structure SameTasks (s t : Shared n) : Prop where
  queues : t.state.queues = s.state.queues
  controls : t.state.controls = s.state.controls
  statuses : t.state.statuses = s.state.statuses
  active : t.state.active = s.state.active
  task : t.task = s.task
  accepting : t.state.accepting = true → s.state.accepting = true
  stop : t.state.stopWorkers = true →
    s.state.stopWorkers = true ∨ s.state.active = 0 ∧ t.state.accepting = false
  stays : s.state.stopWorkers = true → t.state.stopWorkers = true
  nextId : t.nextConcurrentTaskId = s.nextConcurrentTaskId ∨
    t.nextConcurrentTaskId = (s.nextConcurrentTaskId + 1) % 2 ^ 64 ∧
      (s.nextConcurrentTaskId = 0 ∨ concurrentTaskIdTag ≤ s.nextConcurrentTaskId)

theorem SameTasks.refl (s : Shared n) : SameTasks s s :=
  ⟨rfl, rfl, rfl, rfl, rfl, id, .inl, id, .inl rfl⟩

/-- What a step does to the memory and to the tasks in the thread's hands. -/
inductive Effect (capacity : Nat) (thread : Thread n) (s : Shared n) :
    List (ConcurrentTask n × Phase) → Event n → Shared n → List (ConcurrentTask n × Phase) → Prop
  | idle {t : Shared n} {event : Event n} (held : List (ConcurrentTask n × Phase))
      (hsame : SameTasks s t) (hevent : event.task = none) :
      Effect capacity thread s held event t held
  | spawned (held : List (ConcurrentTask n × Phase)) (index : Fin n)
      (haccepting : s.state.accepting = true) (hactive : s.state.active < capacity)
      (hnonzero : s.nextConcurrentTaskId ≠ 0)
      (htag : s.nextConcurrentTaskId < concurrentTaskIdTag)
      (hroom : s.state.statuses.keys.length < statusRoom) :
      Effect capacity thread s held .silent
        (Shared.accept { s with nextConcurrentTaskId := (s.nextConcurrentTaskId + 1) % 2 ^ 64 }
          ⟨s.nextConcurrentTaskId, index⟩) held
  | took (held : List (ConcurrentTask n × Phase)) (index : Fin n) (task : QueuedTask n)
      (before after : List (QueuedTask n)) (hthread : thread = .worker index)
      (hqueue : s.state.queues index = before ++ task :: after) :
      Effect capacity thread s held .silent (s.setQueue index (after ++ before))
        ((task.control, .taken) :: held)
  | opened (held : List (ConcurrentTask n × Phase)) (control : ConcurrentTask n)
      (hfull : s.task control.id = true) :
      Effect capacity thread s ((control, .taken) :: held) .silent (s.setTask control.id false)
        ((control, .out) :: held)
  | polls (held : List (ConcurrentTask n × Phase)) (control : ConcurrentTask n) :
      Effect capacity thread s ((control, .out) :: held) (.poll control.id) s
        ((control, .out) :: held)
  | ends {event : Event n} (held : List (ConcurrentTask n × Phase)) (control : ConcurrentTask n)
      (phase : Phase) (hphase : phase.full = false)
      (hevent : event = .silent ∨ event = .cancel control.id ∨
        event = .onSchedulerDrop control.id) :
      Effect capacity thread s ((control, phase) :: held) event s ((control, .late) :: held)
  | closed (held : List (ConcurrentTask n × Phase)) (control : ConcurrentTask n) :
      Effect capacity thread s ((control, .out) :: held) .silent (s.setTask control.id true)
        ((control, .back) :: held)
  | requeued (held : List (ConcurrentTask n × Phase)) (control : ConcurrentTask n)
      (wakeup : Nat) :
      Effect capacity thread s ((control, .back) :: held) .silent (s.setQueue control.workerIndex
          (s.state.queues control.workerIndex ++ [⟨control, some wakeup⟩])) held
  | finished (held : List (ConcurrentTask n × Phase)) (control : ConcurrentTask n)
      (status : FinalStatus) (hpending : s.state.status control.id = .pending) :
      Effect capacity thread s ((control, .late) :: held) .silent (s.finish control.id status) held
  | lost (held : List (ConcurrentTask n × Phase)) (control : ConcurrentTask n) (phase : Phase)
      (hlost : phase = .taken ∧ s.task control.id = false ∨
        phase = .late ∧ s.state.status control.id ≠ .pending) :
      Effect capacity thread s ((control, phase) :: held) .silent s held

variable {s : Shared n}

/-- A step that only changes the thread's stack and leaves what it has in hand. -/
theorem Effect.quiet {t : Shared n} {stack : List (Frame n)}
    {held : List (ConcurrentTask n × Phase)}
    (hsame : SameTasks s t) (hstack : inHand stack = held) :
    Effect capacity thread s held (Outcome.quiet t stack).event (Outcome.quiet t stack).shared
      (inHand (Outcome.quiet t stack).stack) := by
  subst hstack
  exact .idle _ hsame rfl

theorem SameTasks.unlock (s : Shared n) (executor : Slot) : SameTasks s (s.unlock executor) :=
  { SameTasks.refl s with }

theorem SameTasks.setQueue (s : Shared n) (index : Fin n) :
    SameTasks s (s.setQueue index (s.state.queues index)) :=
  { SameTasks.refl s with queues := Function.update_eq_self index s.state.queues }

/-- What `spawn_returning_task` can do. -/
theorem spawnReturningTask_cases [NeZero n] (capacity : Nat) (s : Shared n) :
    (∃ t error, spawnReturningTask capacity s = (t, .error error) ∧ SameTasks s t) ∨
    ∃ index, spawnReturningTask capacity s =
        (Shared.accept { s with nextConcurrentTaskId := (s.nextConcurrentTaskId + 1) % 2 ^ 64 }
          ⟨s.nextConcurrentTaskId, index⟩, .ok ⟨s.nextConcurrentTaskId, index⟩) ∧
      s.state.accepting = true ∧ s.state.active < capacity ∧ s.nextConcurrentTaskId ≠ 0 ∧
      s.nextConcurrentTaskId < concurrentTaskIdTag := by
  unfold spawnReturningTask
  by_cases haccepting : s.state.accepting = false
  · rw [if_pos haccepting]
    exact .inl ⟨s, _, rfl, .refl s⟩
  rw [if_neg haccepting]
  by_cases hactive : capacity ≤ s.state.active
  · rw [if_pos hactive]
    exact .inl ⟨s, _, rfl, .refl s⟩
  rw [if_neg hactive]
  by_cases hid : s.nextConcurrentTaskId = 0 ∨ concurrentTaskIdTag ≤ s.nextConcurrentTaskId
  · refine .inl ⟨_, .shuttingDown, if_pos hid, ?_⟩
    exact { SameTasks.refl s with nextId := .inr ⟨rfl, hid⟩ }
  · refine .inr ⟨_, if_neg hid, ?_⟩
    rw [not_or] at hid
    exact ⟨by simpa using haccepting, by omega, hid.1, by omega⟩

theorem SameTasks.beginShutdown (s : Shared n) (mode : ConcurrentShutdownMode) :
    SameTasks s (s.beginShutdown mode) ∧ (s.beginShutdown mode).state.accepting = false := by
  unfold Shared.beginShutdown
  split
  · exact ⟨{ SameTasks.refl s with accepting := nofun, stop := .inl }, rfl⟩
  · exact ⟨{ SameTasks.refl s with accepting := nofun, stop := .inl }, rfl⟩

end Effects

section Turns

/-- Where `shutdown` stands after it has closed the executor to new tasks. -/
def Frame.closing : Frame n → Bool
  | .shutdownLoop | .shutdownWait | .shutdownJoin => true
  | _ => false

/-- Frames that a thread has below others while it runs foreign code or a task. -/
def Frame.suspended : Frame n → Bool
  | .body _ | .workerLoop | .helpLoop _ => true
  | _ => false

/-- Frames that neither join nor touch the `EXECUTOR` mutex. -/
def Frame.plain : Frame n → Bool
  | .joinWait _ | .helpLoop _ | .helpWait _ _ | .entering _ | .body .releaseRejected => false
  | _ => true

def SameLock (s t : Shared n) : Prop := t.owner = s.owner ∧ t.executor = s.executor

/-- What a step does to the thread's stack, as far as joins and the `EXECUTOR`
mutex are concerned. -/
inductive Turn (thread : Thread n) (s : Shared n) (frame : Frame n) (rest : List (Frame n))
    (move : Move) (outcome : Outcome n) : Prop
  | popped (hstack : outcome.stack = rest ∨ outcome.stack = unwind rest)
      (hlock : outcome.shared.owner = none ∨ SameLock s outcome.shared)
  | plain (next : Frame n) (hplain : next.plain = true) (hstack : outcome.stack = next :: rest)
      (hlock : SameLock s outcome.shared)
      (hclosing : next.closing = true →
        (outcome.shared.state.accepting = false ∨ frame.closing = true) ∧
          (next = .shutdownJoin → outcome.shared.state.stopWorkers = true))
  | called (body : Body n) (call : Call) (hframe : frame = .body body) (hmove : move = .call call)
      (hstack : outcome.stack = .entering call :: .body body :: rest)
      (hlock : SameLock s outcome.shared)
  | served (control : ConcurrentTask n) (hframe : frame.suspended = true)
      (hstack : outcome.stack = .taken control :: frame :: rest)
      (hlock : SameLock s outcome.shared)
  | joinWaits (id : TaskId) (hframe : frame = .joinLoop id) (hmove : move = .advance)
      (hpending : s.state.status id = .pending) (hshared : outcome.shared = s)
      (hstack : outcome.stack = .joinWait id :: rest)
  | helps (id : TaskId) (control : ConcurrentTask n) (hframe : frame = .joinShared id)
      (hmove : move = .advance) (hcontrol : s.state.controls.lookup id = some control)
      (hthread : thread = .worker control.workerIndex) (hshared : outcome.shared = s)
      (hstack : outcome.stack = .helpLoop id :: rest)
  | helpsAgain (id : TaskId) (timeout : Option Nat) (hframe : frame = .helpWait id timeout)
      (hshared : outcome.shared = s) (hstack : outcome.stack = .helpLoop id :: rest)
  | helpWaits (id : TaskId) (timeout : Option Nat) (index : Fin n)
      (hthread : thread = .worker index) (hframe : frame = .helpLoop id)
      (hpending : s.state.status id = .pending)
      (hqueue : timeout = none → s.state.queues index = [])
      (hstack : outcome.stack = .helpWait id timeout :: rest)
      (hlock : SameLock s outcome.shared)
  | released (hstack : outcome.stack = .body .releaseRejected :: rest)
      (howner : outcome.shared.owner = some thread)
  | shuts (mode : ConcurrentShutdownMode) (hframe : frame = .entering (.shutdown mode))
      (hmove : move = .advance) (hstack : outcome.stack = .shutdownStart mode :: rest)
      (hgone : outcome.shared.executor = .gone)

variable {s : Shared n} {move : Move}

theorem SameLock.refl (s : Shared n) : SameLock s s := ⟨rfl, rfl⟩

/-- Every pending status stays pending. -/
def KeepsPending (s t : Shared n) : Prop :=
  ∀ id, s.state.statuses.lookup id = some .pending → t.state.statuses.lookup id = some .pending

/-- A turn, what it does to pending tasks and what its event says: those who wait
for the end of a task are notified of it, and only a shutdown that has waited for the
worker threads returns. -/
structure Turned (thread : Thread n) (s : Shared n) (frame : Frame n) (rest : List (Frame n))
    (move : Move) (outcome : Outcome n) : Prop where
  turn : Turn thread s frame rest move outcome
  pending : KeepsPending s outcome.shared ∨ outcome.notify.taskFinished = true
  returned : outcome.event = .shutdownReturned → frame = .shutdownJoin

theorem Turned.silent (h : Turn thread s frame rest move outcome)
    (hstatuses : outcome.shared.state.statuses = s.state.statuses)
    (hevent : outcome.event ≠ .shutdownReturned) : Turned thread s frame rest move outcome :=
  ⟨h, .inl fun _ hpending => hstatuses ▸ hpending, fun heq => absurd heq hevent⟩

end Turns

section Steps

variable {s : Shared n} {move : Move}

/-- Both sides of a step: the effect on the tasks in hand and the turn of the stack. -/
structure Stepped (capacity : Nat) (thread : Thread n) (s : Shared n) (frame : Frame n)
    (rest : List (Frame n)) (move : Move) (outcome : Outcome n) : Prop where
  effect : Effect capacity thread s (inHand (frame :: rest)) outcome.event outcome.shared
    (inHand outcome.stack)
  turned : Turned thread s frame rest move outcome

/-- The function on top returns. -/
theorem Stepped.pops (hhand : frame.inHand = none) :
    Stepped capacity thread s frame rest move (.quiet s rest) :=
  ⟨.quiet (.refl s) (inHand_of_none hhand rest).symm,
    .silent (.popped (.inl rfl) (.inr (.refl s))) rfl nofun⟩

/-- The function on top goes on, with the same task in hand. -/
theorem Stepped.goes (next : Frame n) (hhand : next.inHand = frame.inHand)
    (hplain : next.plain = true) (hclosing : next.closing = false) :
    Stepped capacity thread s frame rest move (.quiet s (next :: rest)) := by
  refine ⟨.quiet (.refl s) (by rw [inHand_cons, inHand_cons, hhand]), ?_⟩
  exact .silent (.plain next hplain rfl (.refl s) fun h => by simp [hclosing] at h) rfl nofun

/-- A pass over the queue starts a task or ends in a wait. -/
theorem serveQueue_stepped (index : Fin n) (hthread : thread = .worker index) {loop : Frame n}
    {wait : Option Nat → Frame n} (hloop : loop.inHand = none) (hbelow : loop.suspended = true)
    (hwait : ∀ timeout, (wait timeout).inHand = none)
    (hturn : ∀ timeout outcome, outcome.stack = wait timeout :: rest →
      SameLock s outcome.shared → (timeout = none → s.state.queues index = []) →
      Turn thread s loop rest .advance outcome) :
    Stepped capacity thread s loop rest .advance (serveQueue s index loop wait rest) := by
  unfold serveQueue
  rcases nextReadyTask_spec s index with ⟨before, task, after, heq, hqueue⟩ | ⟨delay, heq, hdelay⟩
  · rw [heq]
    refine ⟨?_, .silent (.served task.control hbelow rfl ⟨rfl, rfl⟩) rfl nofun⟩
    exact .took _ index task before after hthread hqueue
  · rw [heq]
    refine ⟨.quiet (SameTasks.setQueue s index) ?_, .silent ?_ rfl nofun⟩
    · rw [inHand_of_none (hwait _), inHand_of_none hloop]
    · refine hturn _ _ rfl ⟨rfl, rfl⟩ fun hnone => hdelay ?_
      cases delay with
      | none => rfl
      | some _ => cases hnone

theorem enter_stepped [NeZero n] {call : Call}
    (h : enter capacity thread s rest call = some outcome)
    (hroom : s.state.statuses.keys.length < statusRoom) :
    Stepped capacity thread s (.entering call) rest .advance outcome := by
  cases call with
  | isEnabled | taskStatus _ =>
    cases h
    exact .pops rfl
  | cancel id =>
    cases h
    exact .goes (.cancelShared id) rfl rfl rfl
  | join id =>
    cases h
    exact .goes (.joinStatus id) rfl rfl rfl
  | shutdown mode =>
    cases h
    exact ⟨.quiet { SameTasks.refl s with } rfl, .silent (.shuts mode rfl rfl rfl rfl) rfl nofun⟩
  | spawnDetached =>
    simp only [enter] at h
    rcases spawnReturningTask_cases capacity s with
      ⟨t, error, heq, hsame⟩ | ⟨index, heq, haccepting, hactive, hnonzero, htag⟩
    · rw [heq] at h
      cases h
      exact ⟨.quiet { hsame with } rfl, .silent (.released rfl rfl) hsame.statuses nofun⟩
    · rw [heq] at h
      cases h
      refine ⟨.spawned _ index haccepting hactive hnonzero htag hroom,
        .popped (.inl rfl) (.inr ⟨rfl, rfl⟩), .inl fun id hpending => ?_, nofun⟩
      by_cases hid : id = s.nextConcurrentTaskId
      · subst hid
        exact AList.lookup_insert _
      · exact (AList.lookup_insert_ne hid).trans hpending

theorem awaitIdle_stepped {t : Shared n} (notify : Notify n) (hhand : frame.inHand = none)
    (hsame : SameTasks s t) (hlock : SameLock s t) (hclosed : t.state.accepting = false) :
    Stepped capacity thread s frame rest move (awaitIdle t rest notify) := by
  unfold awaitIdle
  split
  · refine ⟨?_, .silent (.plain .shutdownWait rfl rfl hlock fun _ => ⟨.inl hclosed, nofun⟩)
      hsame.statuses nofun⟩
    rw [inHand_of_none hhand]
    exact .idle _ hsame rfl
  · next hidle =>
    rw [hsame.active, not_not] at hidle
    refine ⟨?_, .silent (.plain .shutdownJoin rfl rfl hlock fun _ => ⟨.inl hclosed, fun _ => rfl⟩)
      hsame.statuses nofun⟩
    rw [inHand_of_none hhand]
    exact .idle _ { hsame with
      stop := fun _ => .inr ⟨hidle, hclosed⟩, stays := fun _ => rfl } rfl

theorem advance_stepped [NeZero n] {exited : Bool}
    (h : advance capacity thread exited s rest frame = some outcome)
    (hroom : s.state.statuses.keys.length < statusRoom)
    (hclosed : frame = .shutdownLoop → s.state.accepting = false) :
    Stepped capacity thread s frame rest .advance outcome := by
  cases frame <;> simp only [advance] at h
  case body | workerWait | joinWait | helpWait | shutdownWait => cases h
  case workerLoop =>
    cases thread with
    | outside _ => cases h
    | worker index =>
      simp only at h
      split at h <;> cases h
      · exact .pops rfl
      · exact serveQueue_stepped index rfl rfl rfl (fun _ => rfl)
          fun timeout _ hstack hlock _ => .plain (.workerWait timeout) rfl hstack hlock nofun
  case helpLoop id =>
    cases thread with
    | outside _ => cases h
    | worker index =>
      simp only at h
      split at h <;> cases h
      · next hpending =>
        exact serveQueue_stepped index rfl rfl rfl (fun _ => rfl)
          fun timeout _ hstack hlock hqueue =>
            .helpWaits id timeout index rfl rfl hpending hqueue hstack hlock
      · exact .pops rfl
  case taken control =>
    split at h <;> cases h
    · next hfull =>
      exact ⟨.opened _ control hfull,
        .silent (.plain (.checking control) rfl rfl (.refl s) nofun) rfl nofun⟩
    · next hempty =>
      exact ⟨.lost _ control .taken (.inl ⟨rfl, by simpa using hempty⟩),
        .silent (.popped (.inl rfl) (.inr (.refl s))) rfl nofun⟩
  case checking control =>
    split at h <;> cases h
    · exact ⟨.ends _ control .out rfl (.inr (.inl rfl)),
        .silent (.plain (.body (.cancel control)) rfl rfl (.refl s) nofun) rfl nofun⟩
    · exact ⟨.polls _ control,
        .silent (.plain (.body (.poll control)) rfl rfl (.refl s) nofun) rfl nofun⟩
  case polled control hint =>
    split at h <;> cases h
    · exact ⟨.ends _ control .out rfl (.inr (.inl rfl)),
        .silent (.plain (.body (.cancel control)) rfl rfl (.refl s) nofun) rfl nofun⟩
    · exact .goes (.storing control _) rfl rfl rfl
  case storing control wakeup =>
    cases h
    exact ⟨.closed _ control,
      .silent (.plain (.requeueing control wakeup) rfl rfl (.refl s) nofun) rfl nofun⟩
  case requeueing control wakeup =>
    cases h
    exact ⟨.requeued _ control wakeup, .silent (.popped (.inl rfl) (.inr ⟨rfl, rfl⟩)) rfl nofun⟩
  case finishing control status =>
    split at h <;> cases h
    · next hpending =>
      exact ⟨.finished _ control status hpending,
        .plain (.body (.dropped control)) rfl rfl ⟨rfl, rfl⟩ nofun, .inr rfl, nofun⟩
    · next hfinal =>
      exact ⟨.lost _ control .late (.inr ⟨rfl, hfinal⟩),
        .silent (.plain (.body (.dropped control)) rfl rfl (.refl s) nofun) rfl nofun⟩
  case entering call =>
    split at h
    · cases h
    · split at h
      · exact enter_stepped h hroom
      · cases h
        exact .pops rfl
  case cancelShared id =>
    split at h <;> cases h
    · exact ⟨.idle _ { SameTasks.refl s with } rfl,
        .silent (.popped (.inl rfl) (.inr ⟨rfl, rfl⟩)) rfl nofun⟩
    · exact .pops rfl
  case joinStatus id =>
    split at h <;> cases h
    · exact .pops rfl
    · exact .goes (.joinShared id) rfl rfl rfl
  case joinShared id =>
    split at h <;> cases h
    · next hworker =>
      obtain ⟨control, hcontrol, hthread⟩ := Option.map_eq_some_iff.mp hworker
      exact ⟨.quiet (.refl s) rfl,
        .silent (.helps id control rfl rfl hcontrol hthread.symm rfl rfl) rfl nofun⟩
    · exact .goes (.joinLoop id) rfl rfl rfl
  case joinLoop id =>
    split at h <;> cases h
    · next hpending =>
      exact ⟨.quiet (.refl s) rfl, .silent (.joinWaits id rfl rfl hpending rfl rfl) rfl nofun⟩
    · exact .pops rfl
  case shutdownStart mode =>
    cases h
    obtain ⟨hsame, hfalse⟩ := SameTasks.beginShutdown s mode
    refine awaitIdle_stepped .workers rfl hsame ?_ hfalse
    unfold Shared.beginShutdown
    split <;> exact ⟨rfl, rfl⟩
  case shutdownLoop =>
    cases h
    exact awaitIdle_stepped .none rfl (.refl s) (.refl s) (hclosed rfl)
  case shutdownJoin =>
    cases thread with
    | worker _ =>
      cases h
      exact ⟨.quiet (.unlock s _) rfl, .silent (.popped (.inl rfl) (.inl rfl)) rfl nofun⟩
    | outside _ =>
      simp only at h
      split at h <;> cases h
      exact ⟨.idle _ (.unlock s _) rfl, .popped (.inl rfl) (.inl rfl),
        .inl fun _ hpending => hpending, fun _ => rfl⟩

theorem answer_stepped {body : Body n} {ending : Answer}
    (h : answer s rest body ending = some outcome) :
    Stepped capacity thread s (.body body) rest (.answer ending) outcome := by
  unfold answer at h
  split at h <;> cases h
  · exact ⟨.ends _ _ .out rfl (.inl rfl), .silent (.plain _ rfl rfl (.refl s) nofun) rfl nofun⟩
  · exact .goes _ rfl rfl rfl
  · exact ⟨.ends _ _ .out rfl (.inr (.inr rfl)),
      .silent (.plain _ rfl rfl (.refl s) nofun) rfl nofun⟩
  · exact ⟨.ends _ _ .late rfl (.inl rfl), .silent (.plain _ rfl rfl (.refl s) nofun) rfl nofun⟩
  · exact ⟨.ends _ _ .late rfl (.inr (.inr rfl)),
      .silent (.plain _ rfl rfl (.refl s) nofun) rfl nofun⟩
  · exact ⟨.ends _ _ .late rfl (.inr (.inr rfl)),
      .silent (.plain _ rfl rfl (.refl s) nofun) rfl nofun⟩
  · exact .goes _ rfl rfl rfl
  · exact .goes _ rfl rfl rfl
  · exact .pops rfl
  · exact ⟨.quiet (.refl s) (inHand_unwind rest),
      .silent (.popped (.inr rfl) (.inr (.refl s))) rfl nofun⟩
  · exact ⟨.quiet (.unlock s _) rfl, .silent (.popped (.inl rfl) (.inl rfl)) rfl nofun⟩
  · exact ⟨.quiet (.unlock s _) rfl, .silent (.popped (.inl rfl) (.inl rfl)) rfl nofun⟩

/-- Every step of a thread has one of the effects and makes one of the turns. -/
theorem act_stepped [NeZero n] {exited : Bool}
    (h : act capacity thread exited s frame rest move = some outcome)
    (hroom : s.state.statuses.keys.length < statusRoom)
    (hclosed : frame = .shutdownLoop → s.state.accepting = false) :
    Stepped capacity thread s frame rest move outcome := by
  cases move with
  | advance => exact advance_stepped h hroom hclosed
  | answer ending =>
    cases frame with
    | body body => exact answer_stepped h
    | _ => cases h
  | call call =>
    cases frame with
    | body body =>
      cases h
      exact ⟨.idle _ (.refl s) rfl, .silent (.called body call rfl rfl rfl (.refl s)) rfl nofun⟩
    | _ => cases h
  | wakeUp =>
    cases frame with
    | helpWait id timeout =>
      cases h
      refine ⟨.idle _ (.refl s) ?_, .silent (.helpsAgain id timeout rfl rfl rfl) rfl ?_⟩
      all_goals dsimp only; split <;> first | rfl | nofun
    | workerWait _ | joinWait _ | shutdownWait =>
      cases h
      refine ⟨.idle _ (.refl s) ?_,
        .silent (.plain _ rfl rfl (.refl s) fun _ => ⟨.inr ?_, nofun⟩) rfl ?_⟩
      · dsimp only
        split <;> rfl
      · first | rfl | contradiction
      · dsimp only
        split <;> nofun
    | _ => cases h

end Steps

end Sengoo.Runtime.Executor
