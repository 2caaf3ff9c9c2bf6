import Sengoo.History

/-!
The flag and the condition variable over which a worker that finished a blocking
job wakes the sleeping scheduler. Each atomic access, each taking and releasing
of the mutex and each operation of the condition variable is one step. There is
one waiter, the thread that runs the scheduler; a signal call is known only by
how far it has come.
-/

namespace Sengoo.Runtime.SchedulerWakeup

open History

/-- Where the scheduler's thread stands in `wait_for_signal_or_timeout`. -/
inductive Waiter where
  | outside
  /-- It has read the flag as unset and has not yet taken the mutex. -/
  | tested
  | locked
  | waiting
  /-- It has left the wait and has to take the mutex again. -/
  | woken
  | returning
  deriving DecidableEq

/-- Who has the mutex; of a signal call, whether it has notified. -/
inductive Holder where
  | waiter
  | signal (notified : Bool)
  deriving DecidableEq

structure State where
  signaled : Bool
  mutex : Option Holder
  /-- The signal calls that have set the flag and wait for the mutex. -/
  entering : Nat
  waiter : Waiter

inductive Action where
  | store | signalLock | notify | signalUnlock
  | take | load | lock | wait | wake | relock | unlock
  deriving DecidableEq

def new : State := ⟨false, none, 0, .outside⟩

/-- One step of some thread, if it can be taken. A wait ends by a notification, by
the timeout or spuriously, the latter two being `wake`. -/
def step (s : State) : Action → Option State
  | .store => some { s with signaled := true, entering := s.entering + 1 }
  | .signalLock =>
    if s.mutex = none ∧ 0 < s.entering then
      some { s with mutex := some (.signal false), entering := s.entering - 1 }
    else none
  | .notify =>
    if s.mutex = some (.signal false) then
      some { s with
        mutex := some (.signal true)
        waiter := if s.waiter = .waiting then .woken else s.waiter }
    else none
  | .signalUnlock =>
    if s.mutex = some (.signal true) then some { s with mutex := none } else none
  -- `take_signaled`, which the scheduler calls before it decides to sleep
  | .take => if s.waiter = .outside then some { s with signaled := false } else none
  | .load =>
    if s.waiter = .outside then
      some { s with waiter := if s.signaled then .outside else .tested }
    else none
  | .lock =>
    if s.waiter = .tested ∧ s.mutex = none then
      some { s with waiter := .locked, mutex := some .waiter }
    else none
  -- the wait gives the mutex back and begins in one step
  | .wait => if s.waiter = .locked then some { s with waiter := .waiting, mutex := none } else none
  | .wake => if s.waiter = .waiting then some { s with waiter := .woken } else none
  | .relock =>
    if s.waiter = .woken ∧ s.mutex = none then
      some { s with waiter := .returning, mutex := some .waiter }
    else none
  | .unlock =>
    if s.waiter = .returning then some { s with waiter := .outside, mutex := none } else none

/-- The signal calls that have set the flag and not yet notified. -/
def State.undelivered (s : State) : Nat :=
  s.entering + if s.mutex = some (.signal false) then 1 else 0

/-- The waiter sleeps although the flag is set and nobody is about to wake it. -/
def State.Lost (s : State) : Prop :=
  s.waiter = .waiting ∧ s.signaled = true ∧ s.undelivered = 0

/-- No notification is sent for a set flag while the waiter is between its test of
the flag and the mutex. -/
def Timely (s : State) (action : Action) : Prop :=
  action = .notify → s.signaled = true → s.waiter ≠ .tested

/-- What the steps keep: the holder of the mutex is where it claims to be, and from
the test on a set flag has a notification on its way. -/
structure Invariant (s : State) : Prop where
  holder : s.mutex = some .waiter ↔ s.waiter = .locked ∨ s.waiter = .returning
  announced : s.signaled = true → s.waiter = .tested ∨ s.waiter = .locked ∨ s.waiter = .waiting →
    0 < s.undelivered

theorem invariant_new : Invariant new := by
  constructor
  · decide
  · intro h
    cases h

theorem invariant_step {s t : State} {action : Action} (h : Invariant s)
    (htimely : Timely s action) (hstep : step s action = some t) : Invariant t := by
  obtain ⟨hholder, hannounced⟩ := h
  cases action with
  | store =>
    cases hstep
    refine ⟨hholder, ?_⟩
    intro _ _
    exact Nat.add_pos_left (Nat.succ_pos _) _
  | take =>
    obtain ⟨hat, hset⟩ := Option.ite_none_right_eq_some.mp hstep
    cases hset
    refine ⟨hholder, ?_⟩
    intro hunset
    cases hunset
  | load =>
    obtain ⟨hat, hset⟩ := Option.ite_none_right_eq_some.mp hstep
    constructor <;> grind
  | notify =>
    obtain ⟨hmutex, hset⟩ := Option.ite_none_right_eq_some.mp hstep
    have htested := htimely rfl
    constructor <;> grind
  | signalLock | signalUnlock | lock | wait | wake | relock | unlock =>
    obtain ⟨hguard, hset⟩ := Option.ite_none_right_eq_some.mp hstep
    constructor <;> grind [State.undelivered]

/-- In every run in which each notification finds the waiter before its test or in
the wait, the waiter never sleeps through a flag that is set: a signal call that
set it still has its notification to deliver. -/
theorem set_flag_wakes_waiter {actions : List Action} {t : State}
    (hrun : Run (fun s action t => Timely s action ∧ step s action = some t) new actions t) :
    ¬ t.Lost := by
  have hinvariant : Invariant t := by
    apply hrun.invariant (P := fun _ s => Invariant s) invariant_new
    intro _ s action u _ h hstep
    exact invariant_step h hstep.1 hstep.2
  rintro ⟨hwaiting, hsignaled, hnone⟩
  have hsome := hinvariant.announced hsignaled (.inr (.inr hwaiting))
  omega

theorem set_flag_wakes_waiter_asleep :
    ∃ actions t, Run (fun s action t => Timely s action ∧ step s action = some t) new actions t ∧
      t.waiter = .waiting ∧ t.signaled = true ∧ ¬ t.Lost := by
  have asleep : Run (fun s action t => Timely s action ∧ step s action = some t) new _ _ :=
    (((Run.nil new).snoc (e := .load) ⟨nofun, rfl⟩).snoc (e := .lock) ⟨nofun, rfl⟩).snoc
      (e := .wait) ⟨nofun, rfl⟩
  have signaled := (asleep.snoc (e := .store) ⟨nofun, rfl⟩).snoc (e := .signalLock) ⟨nofun, rfl⟩
  exact ⟨_, _, signaled, rfl, rfl, set_flag_wakes_waiter signaled⟩

/-- The flag is tested before the mutex is taken: a whole signal call fits between
the two, and the waiter goes to sleep with the flag set. -/
theorem signal_before_lock_is_lost :
    ∃ actions t, Run (fun s action t => step s action = some t) new actions t ∧ t.Lost := by
  have tested : Run (fun s action t => step s action = some t) new _ _ :=
    .snoc (e := .load) (.nil new) rfl
  have signaled := (((tested.snoc (e := .store) rfl).snoc (e := .signalLock) rfl).snoc
    (e := .notify) rfl).snoc (e := .signalUnlock) rfl
  have asleep := (signaled.snoc (e := .lock) rfl).snoc (e := .wait) rfl
  exact ⟨_, _, asleep, rfl, rfl, rfl⟩

end Sengoo.Runtime.SchedulerWakeup
