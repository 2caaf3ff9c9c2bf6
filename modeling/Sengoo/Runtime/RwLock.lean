import Mathlib.Data.Int.Order.Basic
import Mathlib.Data.List.Nodup
import Mathlib.Data.List.Perm.Subperm
import Mathlib.Logic.Function.Iterate
import Sengoo.History
import Sengoo.Runtime.Poll
import Sengoo.Table

/-!
The asynchronous read-write lock. The state is the inner record behind the mutex
together with the acquisition futures that callers hold; every entry point runs
under the mutex and is one step. A future has a number of its own for a handle,
and the payload is a value with a size.
-/

namespace Sengoo.Runtime.RwLock

/-- What an entry point hands back to its caller. -/
inductive Reply where
  | code (value : Int)
  | flag (value : Bool)
  | handle (value : Nat)
  | none
  deriving DecidableEq

inductive RwLockGuardKind where
  | read
  | write
  deriving DecidableEq

structure AsyncRwLockInner (α : Type) where
  readers : Nat
  writer : Bool
  closed : Bool
  nextGuardId : Int
  nextWaiterId : Int
  guards : Table Int RwLockGuardKind
  waiters : Table Int RwLockGuardKind
  waiterQueue : List Int
  payload : α
  payloadSize : Nat

structure RwLockAcquireState where
  kind : RwLockGuardKind
  lifecycle : PollLifecycle
  outcome : Option Int
  waiterId : Option Int
  deriving DecidableEq

structure State (α : Type) where
  inner : AsyncRwLockInner α
  futures : Table Nat RwLockAcquireState
  nextHandle : Nat

section Ids

def i64Max : Int := 0x7FFFFFFFFFFFFFFF

def nextId (candidate : Int) : Int := if candidate = i64Max then 1 else candidate + 1

/-- The search for an id that is not in use, with the id to start from next time.
The source searches without a bound; a table of ids is exhausted after as many
candidates as it has entries. -/
def allocateId (table : Table Int RwLockGuardKind) : Nat → Int → Option (Int × Int)
  | 0, _ => none
  | fuel + 1, next =>
    if max next 1 ∈ table then allocateId table fuel (nextId (max next 1))
    else some (max next 1, nextId (max next 1))

theorem allocateId_spec {table : Table Int RwLockGuardKind} {fuel : Nat} {next id after : Int}
    (h : allocateId table fuel next = some (id, after)) : 0 < id ∧ id ∉ table := by
  induction fuel generalizing next with
  | zero => cases h
  | succ fuel ih =>
    unfold allocateId at h
    split at h
    · exact ih h
    · rename_i hfree
      cases h
      exact ⟨by omega, hfree⟩

end Ids

variable {α : Type}

section Inner

variable (inner : AsyncRwLockInner α)

def allocateRwlockGuardId : Option (Int × AsyncRwLockInner α) := do
  let (id, after) ← allocateId inner.guards (inner.guards.keys.length + 1) inner.nextGuardId
  some (id, { inner with nextGuardId := after })

def allocateRwlockWaiterId : Option (Int × AsyncRwLockInner α) := do
  let (id, after) ← allocateId inner.waiters (inner.waiters.keys.length + 1) inner.nextWaiterId
  some (id, { inner with nextWaiterId := after })

def rwlockHasWaitingWriter : Bool :=
  inner.waiters.any (· == .write)

def rwlockFirstWaiterId : Option Int :=
  inner.waiterQueue.find? fun id => decide (id ∈ inner.waiters)

def rwlockRegisterWaiter (kind : RwLockGuardKind) :
    Option (Int × AsyncRwLockInner α) := do
  let (id, inner) ← allocateRwlockWaiterId inner
  some (id, { inner with
    waiters := inner.waiters.insert id kind
    waiterQueue := inner.waiterQueue ++ [id] })

def rwlockUnregisterWaiter (id : Int) : AsyncRwLockInner α :=
  if id ∈ inner.waiters then
    { inner with
      waiters := inner.waiters.erase id
      waiterQueue := inner.waiterQueue.erase id }
  else inner

def rwlockAcquireGuard (kind : RwLockGuardKind) :
    Option (Int × AsyncRwLockInner α) := do
  let (id, inner) ← allocateRwlockGuardId inner
  let inner := match kind with
    | .read => { inner with readers := inner.readers + 1 }
    | .write => { inner with writer := true }
  some (id, { inner with guards := inner.guards.insert id kind })

def rwlockWaiterCanAcquire (id : Int) : Bool :=
  match inner.waiters.lookup id with
  | none => false
  | some kind =>
    if rwlockFirstWaiterId inner ≠ some id then false
    else match kind with
      | .read => !inner.writer
      | .write => !inner.writer && inner.readers == 0

/-- Whether an acquisition that is not registered may have the lock at once. -/
def canAcquireAtOnce : RwLockGuardKind → Bool
  | .read => !inner.writer && !rwlockHasWaitingWriter inner
  | .write => !inner.writer && inner.readers == 0 && (rwlockFirstWaiterId inner).isNone

end Inner

section Entries

variable (inner : AsyncRwLockInner α) (s : State α) (kind : RwLockGuardKind) (handle : Nat)

def tryRead : Option (State α × Reply) :=
  if s.inner.closed then some (s, .code (-statusInvalidHandle))
  else if s.inner.writer || rwlockHasWaitingWriter s.inner then
    some (s, .code (-statusLockUnavailable))
  else do
    let (id, inner) ← rwlockAcquireGuard s.inner .read
    some ({ s with inner := inner }, .code id)

def tryWrite : Option (State α × Reply) :=
  if s.inner.closed then some (s, .code (-statusInvalidHandle))
  else if s.inner.writer || s.inner.readers != 0 || !s.inner.waiters.keys.isEmpty then
    some (s, .code (-statusLockUnavailable))
  else do
    let (id, inner) ← rwlockAcquireGuard s.inner .write
    some ({ s with inner := inner }, .code id)

def start : State α × Reply :=
  ({ s with
    futures := s.futures.insert s.nextHandle ⟨kind, .idle, none, none⟩
    nextHandle := s.nextHandle + 1 }, .handle s.nextHandle)

/-- A finished acquisition keeps its outcome for `result`. -/
def ready (state : RwLockAcquireState) (outcome : Int) : RwLockAcquireState :=
  { state with lifecycle := .completed, outcome := some outcome, waiterId := none }

def unregisterWaiterOf (state : RwLockAcquireState) :
    AsyncRwLockInner α :=
  match state.waiterId with
  | some id => rwlockUnregisterWaiter inner id
  | none => inner

def acquireFor (state : RwLockAcquireState) :
    Option (AsyncRwLockInner α × RwLockAcquireState × Int) := do
  let (id, inner) ← rwlockAcquireGuard inner state.kind
  some (inner, ready state id, 1)

def rwlockAcquirePoll (state : RwLockAcquireState) :
    Option (AsyncRwLockInner α × RwLockAcquireState × Int) :=
  match state.lifecycle.enter with
  | .error code => some (inner, state, code)
  | .ok _ =>
    if state.outcome.isSome then some (inner, { state with lifecycle := .completed }, 1)
    else if inner.closed then
      some (unregisterWaiterOf inner state, ready state (-statusInvalidHandle), 1)
    else match state.waiterId with
      | some id =>
        if rwlockWaiterCanAcquire inner id then
          acquireFor (rwlockUnregisterWaiter inner id) state
        else some (inner, state, 0)
      | none =>
        if canAcquireAtOnce inner state.kind then acquireFor inner state
        else do
          let (id, inner) ← rwlockRegisterWaiter inner state.kind
          some (inner, { state with waiterId := some id }, 0)

def poll : Option (State α × Reply) :=
  match s.futures.lookup handle with
  | none => some (s, .code 1)
  | some state =>
    if state.kind ≠ kind then some (s, .code (-statusInvalidHandle))
    else do
      let (inner, state, code) ← rwlockAcquirePoll s.inner state
      some ({ s with inner := inner, futures := s.futures.insert handle state }, .code code)

/-- The part that `result`, `cancel` and `drop` share: the future is consumed and
its waiter unregistered, when the kind is the expected one. -/
def consume (state : RwLockAcquireState) : State α :=
  { s with
    inner := unregisterWaiterOf s.inner state
    futures := s.futures.erase handle }

def take
    (missing : Reply) (found : RwLockAcquireState → Reply) : State α × Reply :=
  match s.futures.lookup handle with
  | none => (s, missing)
  | some state =>
    if state.kind ≠ kind then ({ s with futures := s.futures.erase handle }, missing)
    else (consume s handle state, found state)

def rwlockAcquireResult :
    State α × Reply :=
  take s kind handle (.code (-statusInvalidHandle))
    fun state => .code (state.outcome.getD (-statusInvalidHandle))

def rwlockAcquireCancel :
    State α × Reply :=
  take s kind handle (.flag false) fun _ => .flag true

def rwlockAcquireDrop :
    State α × Reply :=
  take s kind handle .none fun _ => .none

def rwlockGuardCopyInto (guardId : Int) (hasOutput : Bool)
    (size : Int) : Reply :=
  if !hasOutput || size ≤ 0 then .code (-statusInvalidArgument)
  else if s.inner.guards.lookup guardId ≠ some kind then .code (-statusInvalidHandle)
  else if size.toNat ≠ s.inner.payloadSize then .code (-statusInvalidArgument)
  else .code 0

def writeGuardSet (guardId : Int) (value : Option α) (hasDrop : Bool) :
    State α × Reply :=
  match value with
  | none => (s, .code (-statusInvalidArgument))
  | some value =>
    if !hasDrop then (s, .code (-statusInvalidArgument))
    else if s.inner.guards.lookup guardId ≠ some .write then
      (s, .code (-statusInvalidHandle))
    else ({ s with inner := { s.inner with payload := value } }, .code 0)

def rwlockGuardUnlock (guardId : Int) :
    State α × Reply :=
  if s.inner.guards.lookup guardId ≠ some kind then (s, .code (-statusInvalidHandle))
  else
    let inner := { s.inner with guards := s.inner.guards.erase guardId }
    ({ s with inner := match kind with
        | .read => { inner with readers := inner.readers - 1 }
        | .write => { inner with writer := false } }, .code 0)

def close : State α × Reply :=
  ({ s with inner := { s.inner with closed := true } }, .none)

end Entries

inductive Op (α : Type) where
  | tryRead
  | tryWrite
  | start (kind : RwLockGuardKind)
  | poll (kind : RwLockGuardKind) (handle : Nat)
  | result (kind : RwLockGuardKind) (handle : Nat)
  | cancel (kind : RwLockGuardKind) (handle : Nat)
  | drop (kind : RwLockGuardKind) (handle : Nat)
  | copyInto (kind : RwLockGuardKind) (guardId : Int) (hasOutput : Bool) (size : Int)
  | set (guardId : Int) (value : Option α) (hasDrop : Bool)
  | unlock (kind : RwLockGuardKind) (guardId : Int)
  | close

/-- One call. It has no outcome when the search for an id does not end. -/
def exec (s : State α) : Op α → Option (State α × Reply)
  | .tryRead => tryRead s
  | .tryWrite => tryWrite s
  | .start kind => some (start s kind)
  | .poll kind handle => poll s kind handle
  | .result kind handle => some (rwlockAcquireResult s kind handle)
  | .cancel kind handle => some (rwlockAcquireCancel s kind handle)
  | .drop kind handle => some (rwlockAcquireDrop s kind handle)
  | .copyInto kind guardId hasOutput size =>
    some (s, rwlockGuardCopyInto s kind guardId hasOutput size)
  | .set guardId value hasDrop => some (writeGuardSet s guardId value hasDrop)
  | .unlock kind guardId => some (rwlockGuardUnlock s kind guardId)
  | .close => some (close s)

def rwlockNew (payload : α) (payloadSize : Nat) : State α where
  inner := ⟨0, false, false, 1, 1, ∅, ∅, [], payload, payloadSize⟩
  futures := ∅
  nextHandle := 1

/-- A future is used through the entry points of its own kind. -/
def Matching (s : State α) : Op α → Prop
  | .poll kind handle | .result kind handle | .cancel kind handle | .drop kind handle =>
    ∀ state, s.futures.lookup handle = some state → state.kind = kind
  | _ => True

def Step (s : State α) (op : Op α) (t : State α) : Prop :=
  Matching s op ∧ ∃ reply, exec s op = some (t, reply)

end Sengoo.Runtime.RwLock
