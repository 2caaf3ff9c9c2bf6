import Sengoo.History
import Sengoo.Table

/-!
The concurrent executor: a fixed pool of workers, each with the queue of the tasks
pinned to it, the task table they share, and the global functions that reach it
through the `EXECUTOR` mutex. A step is one critical section or one atomic
operation of one thread. What a thread has still to do is its stack of frames,
top first, since a task that joins another one from inside its poll lets its
worker poll further tasks on top of it. Foreign code (the `poll`, `cancel`,
`on_scheduler_drop` and `Drop` of a task, and the code around the executor) calls
the executor and ends as it likes.

One executor is followed from `enable` on. Statuses kept after its end are left
out, and so are results of calls, since foreign code may do anything with them.
A condition variable is notified in the step that leaves the critical section
before it.
-/

namespace Sengoo.Runtime.Executor

abbrev TaskId := Nat

inductive TaskLifecycleStatus where
  | unknown
  | pending
  | completed
  | canceled
  | failed
  deriving DecidableEq

def TaskLifecycleStatus.isTerminal : TaskLifecycleStatus → Bool
  | .unknown | .pending => false
  | .completed | .canceled | .failed => true

/-- The statuses a task ends with. -/
abbrev FinalStatus := { status : TaskLifecycleStatus // status.isTerminal = true }

inductive ConcurrentSubmitError where
  | atCapacity
  | shuttingDown
  deriving DecidableEq

inductive ConcurrentShutdownMode where
  | drain
  | cancel
  deriving DecidableEq

/-- One millisecond, in nanoseconds. -/
def idleRepollDelay : Nat := 1000000

def concurrentTaskIdTag : Nat := 2 ^ 62

/-- As many entries of sixteen bytes fill the memory: a table of statuses has fewer,
since the insert that finds no room ends the process. -/
def statusRoom : Nat := 2 ^ 60

/-- What never changes of a task's control; its two cells are in `Shared`. -/
structure ConcurrentTask (n : Nat) where
  id : TaskId
  workerIndex : Fin n
  deriving DecidableEq

structure QueuedTask (n : Nat) where
  control : ConcurrentTask n
  nextWakeup : Option Nat
  deriving DecidableEq

structure ExecutorState (n : Nat) where
  queues : Fin n → List (QueuedTask n)
  nextWorker : Nat
  controls : Table TaskId (ConcurrentTask n)
  statuses : Table TaskId TaskLifecycleStatus
  active : Nat
  accepting : Bool
  shutdownMode : Option ConcurrentShutdownMode
  stopWorkers : Bool

inductive Thread (n : Nat) where
  | worker (index : Fin n)
  | outside (index : Nat)
  deriving DecidableEq

/-- What the `EXECUTOR` mutex guards. It is poisoned when foreign code panics
under it. -/
inductive Slot where
  | present
  | gone
  | poisoned
  deriving DecidableEq

/-- The memory the threads share. The cells of a control are found by its id. -/
structure Shared (n : Nat) where
  state : ExecutorState n
  task : TaskId → Bool
  cancelRequested : TaskId → Bool
  executor : Slot
  owner : Option (Thread n)
  nextConcurrentTaskId : Nat
  now : Nat

section Functions

variable {n : Nat}

def ExecutorState.status (state : ExecutorState n) (id : TaskId) : TaskLifecycleStatus :=
  (state.statuses.lookup id).getD .unknown

variable (s : Shared n)

def Shared.setQueue (index : Fin n) (queue : List (QueuedTask n)) : Shared n :=
  { s with state := { s.state with queues := Function.update s.state.queues index queue } }

/-- The part of `spawn_returning_task` that registers the task. -/
def Shared.accept (control : ConcurrentTask n) : Shared n :=
  let state := s.state
  { s with
    state := { state with
      queues := Function.update state.queues control.workerIndex
        (state.queues control.workerIndex ++ [⟨control, none⟩])
      nextWorker := (state.nextWorker + 1) % 2 ^ 64
      controls := state.controls.insert control.id control
      statuses := state.statuses.insert control.id .pending
      active := state.active + 1 }
    task := Function.update s.task control.id true
    cancelRequested := Function.update s.cancelRequested control.id false }

def spawnReturningTask [NeZero n] (capacity : Nat) (s : Shared n) :
    Shared n × Except ConcurrentSubmitError (ConcurrentTask n) :=
  if s.state.accepting = false then (s, .error .shuttingDown)
  else if capacity ≤ s.state.active then (s, .error .atCapacity)
  else
    let id := s.nextConcurrentTaskId
    let s := { s with nextConcurrentTaskId := (id + 1) % 2 ^ 64 }
    if id = 0 ∨ concurrentTaskIdTag ≤ id then (s, .error .shuttingDown)
    else
      let control := ⟨id, Fin.ofNat n s.state.nextWorker⟩
      (s.accept control, .ok control)

/-- The control that `cancel_shared` marks. -/
def cancelTarget (id : TaskId) : Option (ConcurrentTask n) :=
  if s.state.status id = .pending then s.state.controls.lookup id else none

def Shared.requestCancel (id : TaskId) : Shared n :=
  { s with cancelRequested := Function.update s.cancelRequested id true }

/-- One pass over the queue: the first entry that is due or cancelled is taken out,
those before it go to the back. -/
def nextReadyLoop (now : Nat) (cancelRequested : TaskId → Bool) :
    Nat → List (QueuedTask n) → Option Nat →
      Option (QueuedTask n) × Option Nat × List (QueuedTask n)
  | 0, queue, earliest => (none, earliest, queue)
  | _ + 1, [], earliest => (none, earliest, [])
  | queued + 1, task :: queue, earliest =>
    match task.nextWakeup with
    | none => (some task, none, queue)
    | some deadline =>
      if deadline ≤ now ∨ cancelRequested task.control.id = true then (some task, none, queue)
      else
        let delay := deadline - now
        nextReadyLoop now cancelRequested queued (queue ++ [task])
          (some ((earliest.map (min · delay)).getD delay))

def nextReadyTask (index : Fin n) :
    Option (QueuedTask n) × Option Nat × List (QueuedTask n) :=
  nextReadyLoop s.now s.cancelRequested (s.state.queues index).length (s.state.queues index) none

/-- The part of `finish_task` for a task that is pending. -/
def Shared.finish (id : TaskId) (status : FinalStatus) : Shared n :=
  { s with
    state := { s.state with
      statuses := s.state.statuses.insert id status
      controls := s.state.controls.erase id
      active := s.state.active - 1 } }

/-- The first part of `shutdown`, up to its wait. -/
def Shared.beginShutdown (mode : ConcurrentShutdownMode) : Shared n :=
  if mode = .cancel ∨ s.state.shutdownMode = some .cancel then
    { s with
      state := { s.state with accepting := false, shutdownMode := some .cancel }
      cancelRequested := fun id =>
        s.cancelRequested id || (s.state.controls.lookup id).isSome }
  else { s with state := { s.state with accepting := false, shutdownMode := some .drain } }

def Shared.stopWorkers : Shared n :=
  { s with state := { s.state with stopWorkers := true } }

def Shared.setTask (id : TaskId) (full : Bool) : Shared n :=
  { s with task := Function.update s.task id full }

def Shared.lock (thread : Thread n) : Shared n := { s with owner := some thread }

def Shared.unlock (executor : Slot) : Shared n :=
  { s with owner := none, executor := executor }

end Functions

/-- Foreign code that is running. `onSchedulerDrop` keeps the status the task gets
when it returns and the one when it panics. -/
inductive Body (n : Nat) where
  | outside
  | poll (control : ConcurrentTask n)
  | cancel (control : ConcurrentTask n)
  | onSchedulerDrop (control : ConcurrentTask n) (returned panicked : FinalStatus)
  | dropped (control : ConcurrentTask n)
  | releaseRejected
  deriving DecidableEq

/-- The global functions, with decoded task ids. -/
inductive Call where
  | isEnabled
  | spawnDetached
  | taskStatus (id : TaskId)
  | cancel (id : TaskId)
  | join (id : TaskId)
  | shutdown (mode : ConcurrentShutdownMode)
  deriving DecidableEq

/-- Where a function of the executor stands before its next step. The waits of
`worker_loop` and `help_join_on_worker` have a timeout when the queue has an entry
that is not due. -/
inductive Frame (n : Nat) where
  | body (body : Body n)
  | workerLoop
  | workerWait (timeout : Option Nat)
  | taken (control : ConcurrentTask n)
  | checking (control : ConcurrentTask n)
  | polled (control : ConcurrentTask n) (hint : Option Nat)
  | storing (control : ConcurrentTask n) (wakeup : Nat)
  | requeueing (control : ConcurrentTask n) (wakeup : Nat)
  | finishing (control : ConcurrentTask n) (status : FinalStatus)
  | entering (call : Call)
  | cancelShared (id : TaskId)
  | joinStatus (id : TaskId)
  | joinShared (id : TaskId)
  | joinLoop (id : TaskId)
  | joinWait (id : TaskId)
  | helpLoop (id : TaskId)
  | helpWait (id : TaskId) (timeout : Option Nat)
  | shutdownStart (mode : ConcurrentShutdownMode)
  | shutdownLoop
  | shutdownWait
  | shutdownJoin
  deriving DecidableEq

/-- Which condition variables a step notifies. -/
structure Notify (n : Nat) where
  taskFinished : Bool
  workerReady : Fin n → Bool

/-- What a step is to somebody who watches the tasks. -/
inductive Event (n : Nat) where
  | silent
  | spurious
  | called (body : Body n) (call : Call)
  | poll (id : TaskId)
  | cancel (id : TaskId)
  | onSchedulerDrop (id : TaskId)
  | shutdownReturned
  deriving DecidableEq

/-- What a step of a thread leaves behind: memory, the thread's stack, the event
and the notifications. -/
structure Outcome (n : Nat) where
  shared : Shared n
  stack : List (Frame n)
  event : Event n
  notify : Notify n

/-- How foreign code ends. -/
inductive Answer where
  | complete
  | pending (hint : Option Nat)
  | canceled (done : Bool)
  | returned
  | panicked
  deriving DecidableEq

inductive Move where
  | advance
  | answer (answer : Answer)
  | call (call : Call)
  | wakeUp
  deriving DecidableEq

section Steps

variable {n : Nat}

def Notify.none : Notify n := ⟨false, fun _ => false⟩

def Notify.one (index : Fin n) : Notify n := ⟨false, fun i => i == index⟩

def Notify.workers : Notify n := ⟨false, fun _ => true⟩

def Notify.all : Notify n := ⟨true, fun _ => true⟩

/-- Where a wait goes on when it is over. -/
def Frame.resume : Frame n → Option (Frame n)
  | .workerWait _ => some .workerLoop
  | .joinWait id => some (.joinLoop id)
  | .helpWait id _ => some (.helpLoop id)
  | .shutdownWait => some .shutdownLoop
  | _ => none

/-- Whether a wait is on a notified condition variable. -/
def Frame.notified (notify : Notify n) (thread : Thread n) : Frame n → Bool
  | .workerWait _ | .helpWait _ (some _) =>
    match thread with
    | .worker index => notify.workerReady index
    | .outside _ => false
  | .helpWait _ none | .joinWait _ | .shutdownWait => notify.taskFinished
  | _ => false

def Frame.wake (notify : Notify n) (thread : Thread n) (frame : Frame n) : Frame n :=
  if frame.notified notify thread then frame.resume.getD frame else frame

def Frame.timed : Frame n → Bool
  | .workerWait (some _) | .helpWait _ (some _) => true
  | _ => false

/-- A step that touches nothing but the thread's own stack. -/
def Outcome.quiet (s : Shared n) (stack : List (Frame n)) : Outcome n :=
  ⟨s, stack, .silent, .none⟩

/-- The step of a thread that stands in `worker_loop` or `help_join_on_worker` and
has seen that it must go on. -/
def serveQueue (s : Shared n) (index : Fin n) (loop : Frame n) (wait : Option Nat → Frame n)
    (rest : List (Frame n)) : Outcome n :=
  match nextReadyTask s index with
  | (some task, _, queue) =>
    .quiet (s.setQueue index queue) (.taken task.control :: loop :: rest)
  | (none, delay, queue) =>
    .quiet (s.setQueue index queue) (wait (delay.map (min · idleRepollDelay)) :: rest)

/-- The test of `shutdown` for tasks that are still active, with what was notified
before it. -/
def awaitIdle (s : Shared n) (rest : List (Frame n)) (notify : Notify n) : Outcome n :=
  if s.state.active ≠ 0 then ⟨s, .shutdownWait :: rest, .silent, notify⟩
  else ⟨s.stopWorkers, .shutdownJoin :: rest, .silent, .workers⟩

/-- The step of a thread that has taken the `EXECUTOR` mutex. -/
def enter [NeZero n] (capacity : Nat) (thread : Thread n) (s : Shared n) (rest : List (Frame n)) :
    Call → Option (Outcome n)
  | .isEnabled | .taskStatus _ => some (.quiet s rest)
  | .spawnDetached =>
    match spawnReturningTask capacity s with
    | (t, .ok control) => some ⟨t, rest, .silent, .one control.workerIndex⟩
    | (t, .error _) => some (.quiet (t.lock thread) (.body .releaseRejected :: rest))
  | .cancel id => some (.quiet s (.cancelShared id :: rest))
  | .join id => some (.quiet s (.joinStatus id :: rest))
  | .shutdown mode =>
    some (.quiet ({ s with executor := .gone }.lock thread) (.shutdownStart mode :: rest))

/-- The next step of the function on top of the stack, if it can go on. A mutex or
a thread to wait for stops it. -/
def advance [NeZero n] (capacity : Nat) (thread : Thread n) (exited : Bool) (s : Shared n)
    (rest : List (Frame n)) : Frame n → Option (Outcome n)
  | .workerLoop =>
    match thread with
    | .outside _ => none
    | .worker index =>
      if s.state.stopWorkers then some (.quiet s rest)
      else some (serveQueue s index .workerLoop .workerWait rest)
  | .taken control =>
    if s.task control.id then
      some (.quiet (s.setTask control.id false) (.checking control :: rest))
    else some (.quiet s rest)
  | .checking control =>
    if s.cancelRequested control.id then
      some ⟨s, .body (.cancel control) :: rest, .cancel control.id, .none⟩
    else some ⟨s, .body (.poll control) :: rest, .poll control.id, .none⟩
  | .polled control hint =>
    if s.cancelRequested control.id then
      some ⟨s, .body (.cancel control) :: rest, .cancel control.id, .none⟩
    else some (.quiet s (.storing control (hint.getD (s.now + idleRepollDelay)) :: rest))
  | .storing control wakeup =>
    some (.quiet (s.setTask control.id true) (.requeueing control wakeup :: rest))
  | .requeueing control wakeup =>
    some ⟨s.setQueue control.workerIndex
      (s.state.queues control.workerIndex ++ [⟨control, some wakeup⟩]), rest, .silent,
      .one control.workerIndex⟩
  | .finishing control status =>
    if s.state.status control.id = .pending then
      some ⟨s.finish control.id status, .body (.dropped control) :: rest, .silent, .all⟩
    else some (.quiet s (.body (.dropped control) :: rest))
  | .entering call =>
    if s.owner.isSome then none
    else if s.executor = .present then enter capacity thread s rest call
    else some (.quiet s rest)
  | .cancelShared id =>
    match cancelTarget s id with
    | some control => some ⟨s.requestCancel id, rest, .silent, .one control.workerIndex⟩
    | none => some (.quiet s rest)
  | .joinStatus id =>
    if s.state.status id = .unknown then some (.quiet s rest)
    else some (.quiet s (.joinShared id :: rest))
  | .joinShared id =>
    -- only a worker looks where the task is pinned
    if (s.state.controls.lookup id).map (fun control => .worker control.workerIndex) = some thread
    then some (.quiet s (.helpLoop id :: rest))
    else some (.quiet s (.joinLoop id :: rest))
  | .joinLoop id =>
    if s.state.status id = .pending then some (.quiet s (.joinWait id :: rest))
    else some (.quiet s rest)
  | .helpLoop id =>
    match thread with
    | .outside _ => none
    | .worker index =>
      if s.state.status id = .pending then
        some (serveQueue s index (.helpLoop id) (.helpWait id) rest)
      else some (.quiet s rest)
  | .shutdownStart mode => some (awaitIdle (s.beginShutdown mode) rest .workers)
  | .shutdownLoop => some (awaitIdle s rest .none)
  | .shutdownJoin =>
    match thread with
    | .worker _ => some (.quiet (s.unlock .poisoned) rest) -- joining itself panics
    | .outside _ =>
      if exited then some ⟨s.unlock s.executor, rest, .shutdownReturned, .none⟩ else none
  | .body _ | .workerWait _ | .joinWait _ | .helpWait _ _ | .shutdownWait => none

/-- A panic leaves the loop that called `poll_task`. -/
def unwind : List (Frame n) → List (Frame n)
  | .workerLoop :: rest | .helpLoop _ :: rest => rest
  | rest => rest

/-- How the executor goes on when foreign code ends. The `Drop` of a task runs
outside every `catch_unwind`: its panic takes the loop below along. -/
def answer (s : Shared n) (rest : List (Frame n)) : Body n → Answer → Option (Outcome n)
  | .poll control, .complete => some (.quiet s (.finishing control ⟨.completed, rfl⟩ :: rest))
  | .poll control, .pending hint => some (.quiet s (.polled control hint :: rest))
  | .poll control, .panicked =>
    some ⟨s, .body (.onSchedulerDrop control ⟨.failed, rfl⟩ ⟨.failed, rfl⟩) :: rest,
      .onSchedulerDrop control.id, .none⟩
  | .cancel control, .canceled true =>
    some (.quiet s (.finishing control ⟨.canceled, rfl⟩ :: rest))
  | .cancel control, .canceled false =>
    some ⟨s, .body (.onSchedulerDrop control ⟨.canceled, rfl⟩ ⟨.failed, rfl⟩) :: rest,
      .onSchedulerDrop control.id, .none⟩
  | .cancel control, .panicked =>
    some ⟨s, .body (.onSchedulerDrop control ⟨.failed, rfl⟩ ⟨.failed, rfl⟩) :: rest,
      .onSchedulerDrop control.id, .none⟩
  | .onSchedulerDrop control returned _, .returned =>
    some (.quiet s (.finishing control returned :: rest))
  | .onSchedulerDrop control _ panicked, .panicked =>
    some (.quiet s (.finishing control panicked :: rest))
  | .dropped _, .returned => some (.quiet s rest)
  | .dropped _, .panicked => some (.quiet s (unwind rest))
  | .releaseRejected, .returned => some (.quiet (s.unlock s.executor) rest)
  | .releaseRejected, .panicked => some (.quiet (s.unlock .poisoned) rest)
  | _, _ => none

def act [NeZero n] (capacity : Nat) (thread : Thread n) (exited : Bool) (s : Shared n)
    (frame : Frame n) (rest : List (Frame n)) : Move → Option (Outcome n)
  | .advance => advance capacity thread exited s rest frame
  | .answer ending =>
    match frame with
    | .body body => answer s rest body ending
    | _ => none
  | .call call =>
    match frame with
    | .body body => some ⟨s, .entering call :: frame :: rest, .called body call, .none⟩
    | _ => none
  | .wakeUp =>
    frame.resume.map fun next =>
      ⟨s, next :: rest, if frame.timed then .silent else .spurious, .none⟩

end Steps

structure State (n : Nat) where
  shared : Shared n
  threads : Thread n → List (Frame n)

inductive Label (n : Nat) where
  | tick (elapsed : Nat)
  | step (thread : Thread n) (move : Move) (event : Event n)

section Runs

variable {n : Nat}

/-- Whether every worker thread has ended. -/
def State.exited (s : State n) : Bool :=
  (List.finRange n).all fun index => (s.threads (.worker index)).isEmpty

/-- The state after a step of a thread: the others are woken. -/
def State.after (s : State n) (thread : Thread n) (outcome : Outcome n) : State n where
  shared := outcome.shared
  threads other :=
    if other = thread then outcome.stack
    else (s.threads other).map (Frame.wake outcome.notify other)

inductive Step [NeZero n] (capacity : Nat) : State n → Label n → State n → Prop
  | tick (s : State n) (elapsed : Nat) : Step capacity s (.tick elapsed)
        { s with shared := { s.shared with now := s.shared.now + elapsed } }
  | step (s : State n) (thread : Thread n) (move : Move) (frame : Frame n)
      (rest : List (Frame n)) (outcome : Outcome n)
      (hroom : s.shared.state.statuses.keys.length < statusRoom)
      (hstack : s.threads thread = frame :: rest)
      (hact : act capacity thread s.exited s.shared frame rest move = some outcome) :
      Step capacity s (.step thread move outcome.event) (s.after thread outcome)

/-- A new executor, in a process that has given out task ids before. -/
def initial (n nextConcurrentTaskId : Nat) : State n where
  shared :=
    { state :=
        { queues := fun _ => []
          nextWorker := 0
          controls := ∅
          statuses := ∅
          active := 0
          accepting := true
          shutdownMode := none
          stopWorkers := false }
      task := fun _ => false
      cancelRequested := fun _ => false
      executor := .present
      owner := none
      nextConcurrentTaskId := nextConcurrentTaskId % 2 ^ 64
      now := 0 }
  threads
    | .worker _ => [.workerLoop]
    | .outside _ => [.body .outside]

end Runs

end Sengoo.Runtime.Executor
