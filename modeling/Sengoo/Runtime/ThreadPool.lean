import Mathlib.Data.List.Rotate
import Mathlib.Logic.Function.Basic
import Sengoo.History

/-!
The worker threads for blocking jobs: each has a queue from which it takes at the
front and the others steal at the back, and the drop of the pool tells them to stop
and waits for their threads. Each access to a queue or to a shared field is a step,
with three exceptions that no other thread can tell: `submit_job` has the pool's lock
throughout, the value of a job's body comes with its start, and the result, which
is read only once the job is completed, is stored with the test before.
-/

namespace Sengoo.Runtime.ThreadPool

open History

/-- Where the thread of a worker stands. -/
inductive Worker (n : Nat) where
  /-- In `pop_or_steal`, with the queues it has yet to look at. -/
  | looking (left : List (Fin n))
  | taken (job : Nat)
  | executing (job : Nat)
  | ran (job : Nat) (value : Int)
  | stored (job : Nat)
  /-- It has found no job and is to test the flag. -/
  | idle
  | waiting
  | exited
  deriving DecidableEq

structure State (n : Nat) where
  queues : Fin n → List Nat
  /-- How many jobs were accepted; they are numbered in this order. -/
  accepted : Nat
  /-- The shared fields of the jobs, of the work only whether it is still there. -/
  work : Nat → Bool
  result : Nat → Option Int
  completed : Nat → Bool
  canceled : Nat → Bool
  workers : Fin n → Worker n
  /-- Whether a submission finds the pool. -/
  pool : Bool
  shutdown : Bool

inductive Op (n : Nat) where
  /-- A submission that is accepted; the others change nothing. -/
  | enqueueTo (index : Fin n)
  | cancel (job : Nat)
  /-- The pool is taken out of `POOL` to be dropped. -/
  | take
  | shutdown
  | join
  | work (worker : Fin n) (value : Int)

inductive Event where
  | silent
  | ran (job : Nat) (value : Int)
  /-- A worker finds the job it took canceled. -/
  | discarded (job : Nat)
  | joined
  deriving DecidableEq

def Event.runs (job : Nat) : Event → Bool
  | .ran other _ => other = job
  | _ => false

/-- The queues in the order in which a worker looks at them, its own first. -/
def order {n : Nat} (worker : Fin n) : List (Fin n) := (List.finRange n).rotate worker

def initial (n : Nat) : State n where
  queues _ := []
  accepted := 0
  work _ := true
  result _ := none
  completed _ := false
  canceled _ := false
  workers worker := .looking (order worker)
  pool := true
  shutdown := false

def takeFrom (own : Bool) (queue : List Nat) : Option (Nat × List Nat) :=
  if own then queue.head?.map (·, queue.tail) else queue.getLast?.map (·, queue.dropLast)

variable {n : Nat}

def State.stand (s : State n) (worker : Fin n) (now : Worker n) : State n :=
  { s with workers := Function.update s.workers worker now }

/-- A step of the loop of a worker, by where it stands; the value is what the body
of a job returns. -/
def work (s : State n) (worker : Fin n) (value : Int) : Worker n → Option (State n × Event)
  | .looking [] => some (s.stand worker .idle, .silent)
  | .looking (index :: left) =>
    match takeFrom (index = worker) (s.queues index) with
    | none => some (s.stand worker (.looking left), .silent)
    | some (job, rest) =>
      let s := { s with queues := Function.update s.queues index rest }
      some (s.stand worker (.taken job), .silent)
  | .taken job =>
    if s.canceled job then some (s.stand worker (.looking (order worker)), .discarded job)
    else some (s.stand worker (.executing job), .silent)
  | .executing job =>
    if s.work job then
      let s := { s with work := Function.update s.work job false }
      some (s.stand worker (.ran job value), .ran job value)
    else some (s.stand worker (.looking (order worker)), .silent)
  | .ran job value =>
    if s.canceled job then some (s.stand worker (.looking (order worker)), .discarded job)
    else
      let s := { s with result := Function.update s.result job (some value) }
      some (s.stand worker (.stored job), .silent)
  | .stored job =>
    let s := { s with completed := Function.update s.completed job true }
    some (s.stand worker (.looking (order worker)), .silent)
  | .idle => some (s.stand worker (if s.shutdown then .exited else .waiting), .silent)
  | .waiting => some (s.stand worker (.looking (order worker)), .silent)
  | .exited => none

def exec (s : State n) : Op n → Option (State n × Event)
  | .enqueueTo index =>
    if s.pool && !s.shutdown then
      some ({ s with
        accepted := s.accepted + 1
        queues := Function.update s.queues index (s.queues index ++ [s.accepted]) }, .silent)
    else none
  | .cancel job => some ({ s with canceled := Function.update s.canceled job true }, .silent)
  | .take => some ({ s with pool := false }, .silent)
  | .shutdown => if s.pool then none else some ({ s with shutdown := true }, .silent)
  | .join => if s.shutdown ∧ ∀ worker, s.workers worker = .exited then some (s, .joined) else none
  | .work worker value => work s worker value (s.workers worker)

/-- The worker will look at the queue before it tests the flag. -/
def Worker.Ahead (index : Fin n) : Worker n → Prop
  | .looking left => index ∈ left
  | .idle | .exited => False
  | _ => True

def State.Covered (s : State n) : Prop :=
  ∀ index, s.queues index ≠ [] → ∃ worker, (s.workers worker).Ahead index

def Step (s : State n) (event : Event) (t : State n) : Prop := ∃ op, exec s op = some (t, event)

/-- A step; the flag is set when no worker has looked past a job. -/
def TimelyStep (s : State n) (event : Event) (t : State n) : Prop :=
  ∃ op, (op = .shutdown → s.Covered) ∧ exec s op = some (t, event)

theorem TimelyStep.step {s t : State n} {event : Event} (h : TimelyStep s event t) :
    Step s event t := by
  obtain ⟨op, -, hexec⟩ := h
  exact ⟨op, hexec⟩

/-- The job a worker has in hand, and whether its work is still there. -/
def Worker.job : Worker n → Option (Nat × Bool)
  | .taken job | .executing job => some (job, true)
  | .ran job _ | .stored job => some (job, false)
  | _ => none

structure Invariant (events : List Event) (s : State n) : Prop where
  once : ∀ job, events.countP (·.runs job) = (!s.work job).toNat
  ran : ∀ worker job value, s.workers worker = .ran job value → .ran job value ∈ events
  stored : ∀ worker job, s.workers worker = .stored job →
    ∃ value, s.result job = some value ∧ .ran job value ∈ events
  completed : ∀ job, s.completed job = true →
    ∃ value, s.result job = some value ∧ .ran job value ∈ events
  /-- A job is done with, or a worker will come by or has it in hand. -/
  kept : ∀ job, job < s.accepted ∨ s.work job = false →
    s.completed job = true ∨ .discarded job ∈ events ∨
      (s.work job = true ∧ ∃ index, job ∈ s.queues index) ∨
      ∃ worker, (s.workers worker).job = some (job, s.work job)
  joined : .joined ∈ events → s.shutdown = true ∧ ∀ worker, s.workers worker = .exited

theorem mem_takeFrom {own : Bool} {queue rest : List Nat} {job : Nat}
    (h : takeFrom own queue = some (job, rest)) (other : Nat) :
    other ∈ queue ↔ other = job ∨ other ∈ rest := by
  unfold takeFrom at h
  split at h
  · cases queue with
    | nil => cases h
    | cons first rest =>
      cases h
      exact List.mem_cons
  · obtain ⟨last, hlast, heq⟩ := Option.map_eq_some_iff.mp h
    cases heq
    rw [← List.dropLast_append_getLast? _ hlast]
    simp [or_comm]

theorem takeFrom_eq_none {own : Bool} {queue : List Nat} :
    takeFrom own queue = none ↔ queue = [] := by
  cases own <;> simp [takeFrom]

theorem mem_order (worker index : Fin n) : index ∈ order worker := by
  simp [order]

section Work

variable {events : List Event} {s t : State n} {worker : Fin n} {value : Int} {event : Event}
  (hwork : work s worker value (s.workers worker) = some (t, event))
include hwork

theorem covered_work (h : s.shutdown = true → s.Covered) (hshutdown : t.shutdown = true) :
    t.Covered := by
  intro index hqueue
  have horder := mem_order worker index
  have hbefore : s.queues index ≠ [] ∧ s.shutdown = true := by
    unfold work State.stand at hwork
    split at hwork <;> try split at hwork
    all_goals cases hwork <;> grind [Function.update_apply, takeFrom_eq_none]
  obtain ⟨other, hother⟩ := h hbefore.2 index hbefore.1
  refine ⟨other, ?_⟩
  unfold work State.stand at hwork
  split at hwork <;> try split at hwork
  all_goals cases hwork <;> grind [Function.update_apply, Worker.Ahead, takeFrom_eq_none]

variable (h : Invariant events s)
include h

theorem kept_work (job : Nat) (hjob : job < t.accepted ∨ t.work job = false) :
    t.completed job = true ∨ .discarded job ∈ events ++ [event] ∨
      (t.work job = true ∧ ∃ index, job ∈ t.queues index) ∨
      ∃ worker, (t.workers worker).job = some (job, t.work job) := by
  by_contra hlost
  simp only [not_or, not_and, not_exists] at hlost
  obtain ⟨hcompleted, hdiscarded, hqueue, hworkers⟩ := hlost
  have hnow := hworkers worker
  by_cases hbefore : job < s.accepted ∨ s.work job = false
  on_goal 1 => rcases h.kept job hbefore with hkept | hkept | ⟨hkept, index, hmem⟩ | ⟨other, hkept⟩
  on_goal 3 => have hsame := (hqueue · index)
  on_goal 4 => have hsame := hworkers other
  all_goals
    unfold work State.stand at hwork
    split at hwork <;> try split at hwork
    all_goals cases hwork <;> grind [Function.update_apply, Worker.job, mem_takeFrom]

theorem invariant_work : Invariant (events ++ [event]) t := by
  have hkept := kept_work hwork h
  obtain ⟨honce, hran, hstored, hcompleted, -, hjoined⟩ := h
  refine ⟨?_, ?_, ?_, ?_, hkept, ?_⟩
  all_goals
    clear hkept
    unfold work State.stand at hwork
    split at hwork <;> try split at hwork
    all_goals cases hwork <;> grind [Event.runs, Function.update_apply]

end Work

/-- A step of a thread that is not a worker's leaves the jobs as they are, and may
add one more to a queue. -/
theorem Invariant.outside {events : List Event} {s t : State n} {event : Event}
    (h : Invariant events s) (hevent : event = .silent ∨ event = .joined)
    (hjobs : t.work = s.work ∧ t.result = s.result ∧ t.completed = s.completed)
    (hworkers : t.workers = s.workers)
    (hqueues : ∀ index job, job ∈ s.queues index → job ∈ t.queues index)
    (haccepted : ∀ job < t.accepted, job < s.accepted ∨ ∃ index, job ∈ t.queues index)
    (hjoined : .joined ∈ events ++ [event] →
      t.shutdown = true ∧ ∀ worker, s.workers worker = .exited) :
    Invariant (events ++ [event]) t := by
  obtain ⟨honce, hran, hstored, hcompleted, hkept, -⟩ := h
  obtain ⟨hwork, hresult, hdone⟩ := hjobs
  refine ⟨?_, ?_, ?_, ?_, ?_, hworkers ▸ hjoined⟩
  all_goals
    simp only [hwork, hresult, hdone, hworkers]
    grind [Event.runs]

theorem invariant_step {events : List Event} {s t : State n} {event : Event}
    (h : Invariant events s) (hstep : Step s event t) : Invariant (events ++ [event]) t := by
  obtain ⟨op, hexec⟩ := hstep
  have hjoined : .joined ∈ events ++ [.silent] →
      s.shutdown = true ∧ ∀ worker, s.workers worker = .exited := by
    simpa using h.joined
  cases op with
  | work worker value => exact invariant_work hexec h
  | enqueueTo index =>
    obtain ⟨hopen, hset⟩ := Option.ite_none_right_eq_some.mp hexec
    cases hset
    have hupdate := Function.update_apply s.queues index (s.queues index ++ [s.accepted])
    refine h.outside (.inl rfl) ⟨rfl, rfl, rfl⟩ rfl ?_ ?_ hjoined
    · grind
    · intro job hjob
      by_cases hnew : job = s.accepted
      · exact .inr ⟨index, by simp [hnew]⟩
      · exact .inl (by grind)
  | cancel job =>
    cases hexec
    exact h.outside (.inl rfl) ⟨rfl, rfl, rfl⟩ rfl (fun _ _ => id) (fun _ => .inl) hjoined
  | take =>
    cases hexec
    exact h.outside (.inl rfl) ⟨rfl, rfl, rfl⟩ rfl (fun _ _ => id) (fun _ => .inl) hjoined
  | shutdown =>
    obtain ⟨-, hset⟩ := Option.ite_none_left_eq_some.mp hexec
    cases hset
    exact h.outside (.inl rfl) ⟨rfl, rfl, rfl⟩ rfl (fun _ _ => id) (fun _ => .inl)
      fun hmem => ⟨rfl, (hjoined hmem).2⟩
  | join =>
    obtain ⟨hexited, hset⟩ := Option.ite_none_right_eq_some.mp hexec
    cases hset
    exact h.outside (.inr rfl) ⟨rfl, rfl, rfl⟩ rfl (fun _ _ => id) (fun _ => .inl)
      fun _ => hexited

theorem covered_step {s t : State n} {event : Event} (h : s.shutdown = true → s.Covered)
    (hstep : TimelyStep s event t) : t.shutdown = true → t.Covered := by
  obtain ⟨op, hflag, hexec⟩ := hstep
  cases op with
  | work worker value => exact covered_work hexec h
  | enqueueTo index =>
    obtain ⟨hopen, hset⟩ := Option.ite_none_right_eq_some.mp hexec
    cases hset
    grind
  | cancel | take =>
    cases hexec
    exact h
  | shutdown =>
    obtain ⟨-, hset⟩ := Option.ite_none_left_eq_some.mp hexec
    cases hset
    exact fun _ => hflag rfl
  | join =>
    obtain ⟨-, hset⟩ := Option.ite_none_right_eq_some.mp hexec
    cases hset
    exact h

theorem invariant_initial : Invariant [] (initial n) where
  once _ := rfl
  ran := nofun
  stored := nofun
  completed := nofun
  kept := nofun
  joined := nofun

/-- In every run the work of each job is run at most once, and a job is completed only
with the value its run returned. When the drop has joined the workers, and it had set
the flag when no worker had looked past a queue that has a job, no job is left in a
queue and each job was completed or found canceled by its worker. -/
theorem jobs_run_once {events : List Event} {s : State n} (hrun : Run Step (initial n) events s) :
    (∀ job, events.countP (·.runs job) ≤ 1) ∧
      (∀ job, s.completed job = true →
        ∃ value, s.result job = some value ∧ .ran job value ∈ events) ∧
      (Run TimelyStep (initial n) events s → .joined ∈ events →
        (∀ index, s.queues index = []) ∧
          ∀ job < s.accepted, s.completed job = true ∨ .discarded job ∈ events) := by
  have h : Invariant events s := hrun.invariant invariant_initial fun _ _ _ _ _ => invariant_step
  refine ⟨fun job => ?_, h.completed, fun htimely hjoined => ?_⟩
  · rw [h.once]
    exact Bool.toNat_le _
  obtain ⟨hshutdown, hexited⟩ := h.joined hjoined
  have hcovered : s.shutdown = true → s.Covered :=
    htimely.invariant (P := fun _ s => s.shutdown = true → s.Covered) nofun
      fun _ _ _ _ _ => covered_step
  have hempty : ∀ index, s.queues index = [] := by
    intro index
    by_contra hqueue
    obtain ⟨worker, hahead⟩ := hcovered hshutdown index hqueue
    rw [hexited] at hahead
    exact hahead
  refine ⟨hempty, fun job hjob => ?_⟩
  rcases h.kept job (.inl hjob) with hdone | hdone | ⟨-, index, hmem⟩ | ⟨worker, hworker⟩
  · exact .inl hdone
  · exact .inr hdone
  · rw [hempty] at hmem
    cases hmem
  · rw [hexited] at hworker
    cases hworker

theorem jobs_run_once_one : ∃ events s, Run TimelyStep (initial 1) events s ∧ .joined ∈ events ∧
    (∃ value, s.result 0 = some value ∧ .ran 0 value ∈ events) ∧
    ∀ job < s.accepted, s.completed job = true ∨ .discarded job ∈ events := by
  have start : Run TimelyStep (initial 1) [] (initial 1) := .nil _
  have taken := (start.snoc ⟨.enqueueTo 0, nofun, rfl⟩).snoc ⟨.work 0 0, nofun, rfl⟩
  have ran := (taken.snoc ⟨.work 0 0, nofun, rfl⟩).snoc ⟨.work 0 5, nofun, rfl⟩
  have completed := (ran.snoc ⟨.work 0 0, nofun, rfl⟩).snoc ⟨.work 0 0, nofun, rfl⟩
  have stopped := (completed.snoc ⟨.take, nofun, rfl⟩).snoc
    ⟨.shutdown, fun _ index _ => ⟨0, mem_order 0 index⟩, rfl⟩
  have idle := (stopped.snoc ⟨.work 0 0, nofun, rfl⟩).snoc ⟨.work 0 0, nofun, rfl⟩
  have joined := (idle.snoc ⟨.work 0 0, nofun, rfl⟩).snoc ⟨.join, nofun, rfl⟩
  obtain ⟨-, hcompleted, hleft⟩ := jobs_run_once (joined.mono fun _ _ _ => TimelyStep.step)
  exact ⟨_, _, joined, by simp, hcompleted 0 rfl, (hleft joined (by simp)).2⟩

/-- A job is left in its queue when the flag is set between the worker's look at the
queue and its test of the flag, and a job that is canceled while it runs is not
completed. -/
theorem joined_pool_leaves_jobs :
    (∃ events s, Run Step (initial 1) events s ∧ .joined ∈ events ∧ s.queues 0 = [0] ∧
      s.canceled 0 = false ∧ s.completed 0 = false) ∧
    ∃ events s, Run Step (initial 1) events s ∧ .joined ∈ events ∧ .ran 0 5 ∈ events ∧
      s.completed 0 = false := by
  have start : Run Step (initial 1) [] (initial 1) := .nil _
  constructor
  · have submitted := (start.snoc ⟨.work 0 0, rfl⟩).snoc ⟨.enqueueTo 0, rfl⟩
    have stopped := (submitted.snoc ⟨.take, rfl⟩).snoc ⟨.shutdown, rfl⟩
    have exited := (stopped.snoc ⟨.work 0 0, rfl⟩).snoc ⟨.work 0 0, rfl⟩
    exact ⟨_, _, exited.snoc ⟨.join, rfl⟩, by simp, rfl, rfl, rfl⟩
  · have taken := (start.snoc ⟨.enqueueTo 0, rfl⟩).snoc ⟨.work 0 0, rfl⟩
    have ran := (taken.snoc ⟨.work 0 0, rfl⟩).snoc (e := .ran 0 5) ⟨.work 0 5, rfl⟩
    have discarded := (ran.snoc ⟨.cancel 0, rfl⟩).snoc ⟨.work 0 0, rfl⟩
    have stopped := (discarded.snoc ⟨.take, rfl⟩).snoc ⟨.shutdown, rfl⟩
    have idle := (stopped.snoc ⟨.work 0 0, rfl⟩).snoc ⟨.work 0 0, rfl⟩
    have joined := (idle.snoc ⟨.work 0 0, rfl⟩).snoc ⟨.join, rfl⟩
    exact ⟨_, _, joined, by simp, by simp, rfl⟩

end Sengoo.Runtime.ThreadPool
