import Sengoo.Runtime.RwLock

/-!
The read-write lock keeps its counters, its table of guards and its two views of
the waiters in agreement, hands the lock to waiters in the order in which they
registered, and lets nobody who comes later pass a waiting writer.
-/

namespace Sengoo.Runtime.RwLock

open AList Function History List Option Table

variable {α : Type}

/-- The waiter and the kind under which a future is registered. -/
def State.waiting (s : State α) (handle : Nat) : Option (Int × RwLockGuardKind) := do
  let state ← s.futures.lookup handle
  let id ← state.waiterId
  some (id, state.kind)

/-- The lock was handed out for the acquisition behind a future. -/
def State.Granted (s : State α) (handle : Nat) : Prop :=
  ∃ state id, s.futures.lookup handle = some state ∧ state.outcome = some id ∧ 0 < id

/-- Between the two states somebody obtained the lock. -/
def Obtains (s t : State α) : Prop := ∃ id, id ∉ s.inner.guards ∧ id ∈ t.inner.guards

/-- The call belongs to an acquisition that began after the state `s`. -/
def BeganAfter (s : State α) : Op α → Prop
  | .tryRead | .tryWrite => True
  | .poll _ handle => handle ∉ s.futures
  | _ => False

/-- The counters agree with the guards that are out, of which a writer's is the
only one. -/
structure GuardsAgree (s : State α) : Prop where
  readers : s.inner.readers = s.inner.guards.count (· == .read)
  writer : s.inner.writer = true ↔ ∃ id, s.inner.guards.lookup id = some .write
  alone : ∀ id, s.inner.guards.lookup id = some .write → s.inner.guards.keys = [id]
  positive : ∀ id ∈ s.inner.guards, 0 < id
  distinct : s.inner.guards.keys.Nodup

/-- The queue lists the waiters, and each waiter belongs to one future. -/
structure WaitersAgree (s : State α) : Prop where
  queue_nodup : s.inner.waiterQueue.Nodup
  queue_keys : ∀ id, id ∈ s.inner.waiterQueue ↔ id ∈ s.inner.waiters
  registered : ∀ id kind, s.inner.waiters.lookup id = some kind →
    ∃! handle, s.waiting handle = some (id, kind)
  waiter : ∀ handle id kind, s.waiting handle = some (id, kind) →
    s.inner.waiters.lookup id = some kind

structure Consistent (s : State α) : Prop extends GuardsAgree s, WaitersAgree s

section Waiting

variable (s : State α) (inner : AsyncRwLockInner α) (handle : Nat) (state : RwLockAcquireState)
  (next : Nat)

theorem waiting_insert : State.waiting ⟨inner, s.futures.insert handle state, next⟩ =
      Function.update s.waiting handle (state.waiterId.map fun id => (id, state.kind)) := by
  funext other
  rcases eq_or_ne other handle with rfl | hne
  · cases hid : state.waiterId <;> simp [State.waiting, hid]
  · simp [State.waiting, lookup_insert_ne hne, update_of_ne hne]

theorem waiting_erase : State.waiting ⟨inner, s.futures.erase handle, next⟩ =
      Function.update s.waiting handle none := by
  funext other
  rcases eq_or_ne other handle with rfl | hne
  · simp [State.waiting]
  · simp [State.waiting, lookup_erase_ne hne, update_of_ne hne]

variable {s handle state}

theorem waiting_of_lookup (h : s.futures.lookup handle = some state) {waiterId : Option Int}
    (hid : state.waiterId = waiterId) :
    s.waiting handle = waiterId.map fun id => (id, state.kind) := by
  cases waiterId <;> simp [State.waiting, h, hid]

theorem waiting_of_notMem (h : handle ∉ s.futures) : s.waiting handle = none := by
  simp [State.waiting, lookup_eq_none.mpr h]

end Waiting

section Change

structure SameGuards (s t : State α) : Prop where
  readers : t.inner.readers = s.inner.readers
  writer : t.inner.writer = s.inner.writer
  guards : t.inner.guards = s.inner.guards

structure SameWaiters (s t : State α) : Prop where
  waiters : t.inner.waiters = s.inner.waiters
  queue : t.inner.waiterQueue = s.inner.waiterQueue
  waiting : t.waiting = s.waiting

/-- A guard is handed out, which no guard of the other kind and no writer forbids. -/
structure AddsGuard (s t : State α) (id : Int) (kind : RwLockGuardKind) : Prop where
  isOpen : s.inner.closed = false
  fresh : id ∉ s.inner.guards
  positive : 0 < id
  noWriter : s.inner.writer = false
  noReader : kind = .write → s.inner.readers = 0
  readers : t.inner.readers = s.inner.readers + if kind == .read then 1 else 0
  writer : t.inner.writer = (kind == .write)
  guards : t.inner.guards = s.inner.guards.insert id kind

/-- A waiter is taken out of all three views. -/
structure RemovesWaiter (s t : State α) (handle : Nat) (id : Int) (kind : RwLockGuardKind) :
    Prop where
  before : s.waiting handle = some (id, kind)
  waiting : t.waiting = Function.update s.waiting handle none
  waiters : t.inner.waiters = s.inner.waiters.erase id
  queue : t.inner.waiterQueue = s.inner.waiterQueue.erase id

/-- Everything a call can do to the guards and the waiters. -/
inductive Change (s : State α) (op : Op α) (t : State α) : Prop
  | quiet : SameGuards s t → SameWaiters s t → Change s op t
  | acquire (id : Int) (kind : RwLockGuardKind) : AddsGuard s t id kind → SameWaiters s t →
      (∀ waiter, s.inner.waiters.lookup waiter ≠ some .write) →
      (∀ kind' handle, op = .poll kind' handle → s.waiting handle = none) → Change s op t
  | grant (handle : Nat) (waiter : Int) (kind kind' : RwLockGuardKind) (id : Int) :
      AddsGuard s t id kind → RemovesWaiter s t handle waiter kind →
      rwlockFirstWaiterId s.inner = some waiter → op = .poll kind' handle → Change s op t
  | register (handle : Nat) (id : Int) (kind : RwLockGuardKind) : SameGuards s t →
      s.waiting handle = none → id ∉ s.inner.waiters →
      t.waiting = Function.update s.waiting handle (some (id, kind)) →
      t.inner.waiters = s.inner.waiters.insert id kind →
      t.inner.waiterQueue = s.inner.waiterQueue ++ [id] → Change s op t
  | unregister (handle : Nat) (id : Int) (kind : RwLockGuardKind) : SameGuards s t →
      RemovesWaiter s t handle id kind → Change s op t
  | unlock (id : Int) (kind : RwLockGuardKind) : s.inner.guards.lookup id = some kind →
      t.inner.readers = s.inner.readers - (if kind == .read then 1 else 0) →
      t.inner.writer = (s.inner.writer && kind == .read) →
      t.inner.guards = s.inner.guards.erase id → SameWaiters s t → Change s op t

/-- What becomes of the record of a future: `closed` is the state of the lock. -/
inductive Polled (closed : Bool) (state : RwLockAcquireState) : RwLockAcquireState → Prop
  | same : Polled closed state state
  | finished : state.outcome.isSome = true →
      Polled closed state { state with lifecycle := .completed }
  | settled (outcome : Int) : state.outcome = none → closed = true ∨ 0 < outcome →
      Polled closed state (ready state outcome)
  | registered (id : Int) : state.outcome = none → state.waiterId = none →
      Polled closed state { state with waiterId := some id }

/-- How a call moves the futures that were there before it. -/
structure Evolves (s t : State α) : Prop where
  next : s.nextHandle ≤ t.nextHandle
  closed : s.inner.closed = true → t.inner.closed = true
  handles : (∀ handle ∈ s.futures, handle < s.nextHandle) →
    ∀ handle ∈ t.futures, handle < t.nextHandle
  future : ∀ handle < s.nextHandle, ∀ state', t.futures.lookup handle = some state' →
    ∃ state, s.futures.lookup handle = some state ∧ Polled s.inner.closed state state'

/-- What a call does, to the lock and to the futures. -/
structure Effect (s : State α) (op : Op α) (t : State α) : Prop where
  change : Change s op t
  evolves : Evolves s t

variable {s t : State α} {op : Op α}

theorem Evolves.of_futures_eq (hnext : t.nextHandle = s.nextHandle)
    (hclosed : s.inner.closed = true → t.inner.closed = true) (hfutures : t.futures = s.futures) :
    Evolves s t where
  next := Nat.le_of_eq hnext.symm
  closed := hclosed
  handles h := by rw [hfutures, hnext]; exact h
  future handle _ state' hlookup := ⟨state', by rwa [hfutures] at hlookup, .same⟩

theorem Evolves.of_insert {inner : AsyncRwLockInner α} {handle : Nat}
    {state state' : RwLockAcquireState} (hlookup : s.futures.lookup handle = some state)
    (hclosed : inner.closed = s.inner.closed) (hpolled : Polled s.inner.closed state state') :
    Evolves s ⟨inner, s.futures.insert handle state', s.nextHandle⟩ where
  next := le_rfl
  closed h := hclosed.trans h
  handles h other hmem := by
    rcases mem_insert _ |>.mp hmem with rfl | hmem
    · exact h other (mem_of_lookup hlookup)
    · exact h other hmem
  future other _ found hfound := by
    rcases lookup_insert_some hfound with ⟨rfl, rfl⟩ | ⟨-, hfound⟩
    · exact ⟨state, hlookup, hpolled⟩
    · exact ⟨found, hfound, .same⟩

theorem Evolves.of_erase {inner : AsyncRwLockInner α} {handle : Nat}
    (hclosed : inner.closed = s.inner.closed) :
    Evolves s ⟨inner, s.futures.erase handle, s.nextHandle⟩ where
  next := le_rfl
  closed h := hclosed.trans h
  handles h other hmem := h other (mem_erase.mp hmem).2
  future _ _ found hfound := ⟨found, (lookup_erase_some hfound).2, .same⟩

theorem start_evolves (kind : RwLockGuardKind) : Evolves s (start s kind).1 where
  next := Nat.le_succ _
  closed h := h
  handles h other hmem := by
    rcases mem_insert _ |>.mp hmem with rfl | hmem
    · exact Nat.lt_succ_self _
    · exact Nat.lt_succ_of_lt (h other hmem)
  future other hlt found hfound := by
    simp only [start, lookup_insert_ne (Nat.ne_of_lt hlt)] at hfound
    exact ⟨found, hfound, .same⟩

/-- A call that leaves the guards, the waiters and the futures alone. -/
theorem Effect.quiet (hguards : SameGuards s t) (hwaiters : SameWaiters s t)
    (hnext : t.nextHandle = s.nextHandle)
    (hclosed : s.inner.closed = true → t.inner.closed = true) (hfutures : t.futures = s.futures) :
    Effect s op t :=
  ⟨.quiet hguards hwaiters, .of_futures_eq hnext hclosed hfutures⟩

theorem Effect.refl : Effect s op s :=
  .quiet ⟨rfl, rfl, rfl⟩ ⟨rfl, rfl, rfl⟩ rfl id rfl

end Change

variable {s t u : State α} {op : Op α} {ops : List (Op α)} {handle : Nat} {id : Int}
  {kind : RwLockGuardKind}

variable {first : Nat} {inner after : AsyncRwLockInner α} {state state' : RwLockAcquireState}
  {k kind' : RwLockGuardKind}

section Specs

theorem rwlockAcquireGuard_spec (h : rwlockAcquireGuard inner kind = some (id, after)) :
    (0 < id ∧ id ∉ inner.guards) ∧ ∃ next, after = { inner with
      readers := inner.readers + if kind == .read then 1 else 0
      writer := inner.writer || kind == .write
      nextGuardId := next
      guards := inner.guards.insert id kind } := by
  obtain ⟨⟨_, _⟩, hid, ⟨⟩⟩ := bind_eq_some_iff.mp h
  obtain ⟨⟨_, next⟩, halloc, ⟨⟩⟩ := bind_eq_some_iff.mp hid
  refine ⟨allocateId_spec halloc, next, ?_⟩
  cases kind <;> simp

theorem rwlockRegisterWaiter_spec (h : rwlockRegisterWaiter inner kind = some (id, after)) :
    id ∉ inner.waiters ∧ ∃ next, after = { inner with
      nextWaiterId := next
      waiters := inner.waiters.insert id kind
      waiterQueue := inner.waiterQueue ++ [id] } := by
  obtain ⟨⟨_, _⟩, hid, ⟨⟩⟩ := bind_eq_some_iff.mp h
  obtain ⟨⟨_, next⟩, halloc, ⟨⟩⟩ := bind_eq_some_iff.mp hid
  exact ⟨(allocateId_spec halloc).2, next, rfl⟩

theorem rwlockUnregisterWaiter_spec (h : id ∈ inner.waiters) : rwlockUnregisterWaiter inner id =
      { inner with
        waiters := inner.waiters.erase id
        waiterQueue := inner.waiterQueue.erase id } := by
  rw [rwlockUnregisterWaiter, if_pos h]

theorem rwlockHasWaitingWriter_eq_false (h : rwlockHasWaitingWriter inner = false) (waiter : Int) :
    inner.waiters.lookup waiter ≠ some .write := by
  intro hlookup
  have hany : rwlockHasWaitingWriter inner = true :=
    (Table.any_eq_true _).mpr ⟨waiter, .write, hlookup, rfl⟩
  rw [h] at hany
  cases hany

end Specs

/-- What holds between calls: the views agree, and handles are given out upwards. -/
structure Inv (s : State α) : Prop where
  consistent : Consistent s
  handles : ∀ handle ∈ s.futures, handle < s.nextHandle

section Effects

variable {reply : Reply}

theorem Consistent.mem_waiters (h : Consistent s)
    (hwaiting : s.waiting handle = some (id, kind)) :
    id ∈ s.inner.waiters :=
  mem_of_lookup (h.waiter handle id kind hwaiting)

/-- An empty search of the queue leaves no waiter at all. -/
theorem Consistent.lookup_of_first_none (h : Consistent s)
    (hfirst : rwlockFirstWaiterId s.inner = none) (id : Int) :
    s.inner.waiters.lookup id = none := by
  rw [lookup_eq_none]
  intro hmem
  have hqueue := (h.queue_keys id).mpr hmem
  have := find?_eq_none.mp hfirst id hqueue
  simp [hmem] at this

/-- An acquisition that does not wait: it is refused, or the lock is free for its kind. -/
theorem tryAcquire_effect (kind : RwLockGuardKind) {busy : Bool} {refused : Reply}
    (hop : ∀ kind' handle, op ≠ .poll kind' handle)
    (hfree : busy = false → s.inner.writer = false ∧ (kind = .write → s.inner.readers = 0) ∧
      ∀ waiter, s.inner.waiters.lookup waiter ≠ some .write)
    (h : (if s.inner.closed then some (s, .code (-statusInvalidHandle))
      else if busy then some (s, refused)
      else do
        let (id, inner) ← rwlockAcquireGuard s.inner kind
        some ({ s with inner := inner }, .code id)) = some (t, reply)) : Effect s op t := by
  split at h
  · cases h
    exact .refl
  · rename_i hopen
    split at h
    · cases h
      exact .refl
    · rename_i hbusy
      obtain ⟨hwriter, hreaders, hwriters⟩ := hfree (Bool.not_eq_true _ ▸ hbusy)
      obtain ⟨⟨guardId, _⟩, hacquire, ⟨⟩⟩ := bind_eq_some_iff.mp h
      obtain ⟨⟨hpos, hfresh⟩, next, rfl⟩ := rwlockAcquireGuard_spec hacquire
      refine ⟨.acquire guardId kind ?_ ⟨rfl, rfl, rfl⟩ hwriters ?_, .of_futures_eq rfl id rfl⟩
      · exact ⟨by simpa using hopen, hfresh, hpos, hwriter, hreaders, rfl, by simp [hwriter], rfl⟩
      · exact fun kind' handle hpoll => absurd hpoll (hop kind' handle)

theorem tryRead_effect (h : tryRead s = some (t, reply)) : Effect s .tryRead t := by
  refine tryAcquire_effect .read nofun (fun hfree => ?_) h
  rw [Bool.or_eq_false_iff] at hfree
  exact ⟨hfree.1, nofun, rwlockHasWaitingWriter_eq_false hfree.2⟩

theorem tryWrite_effect (h : tryWrite s = some (t, reply)) : Effect s .tryWrite t := by
  refine tryAcquire_effect .write nofun (fun hfree => ?_) h
  simp only [Bool.or_eq_false_iff, bne_eq_false_iff_eq, Bool.not_eq_false'] at hfree
  obtain ⟨⟨hwriter, hreaders⟩, hempty⟩ := hfree
  refine ⟨hwriter, fun _ => hreaders, fun waiter hlookup => ?_⟩
  exact List.ne_nil_of_mem (mem_keys.mp (mem_of_lookup hlookup)) (isEmpty_iff.mp hempty)

/-- The poll of a future that the lock is free for. -/
theorem canAcquireAtOnce_spec (hcons : Consistent s)
    (h : canAcquireAtOnce s.inner kind = true) :
    s.inner.writer = false ∧ (kind = .write → s.inner.readers = 0) ∧
      ∀ waiter, s.inner.waiters.lookup waiter ≠ some .write := by
  cases kind with
  | read =>
    simp only [canAcquireAtOnce, Bool.and_eq_true, Bool.not_eq_eq_eq_not] at h
    exact ⟨h.1, by simp, rwlockHasWaitingWriter_eq_false h.2⟩
  | write =>
    simp only [canAcquireAtOnce, Bool.and_eq_true, Bool.not_eq_eq_eq_not, Bool.not_true,
      beq_iff_eq, isNone_iff_eq_none] at h
    refine ⟨h.1.1, fun _ => h.1.2, fun waiter => ?_⟩
    rw [hcons.lookup_of_first_none h.2 waiter]
    exact nofun

theorem rwlockWaiterCanAcquire_spec
    (hlookup : s.inner.waiters.lookup id = some kind)
    (h : rwlockWaiterCanAcquire s.inner id = true) :
    rwlockFirstWaiterId s.inner = some id ∧ s.inner.writer = false ∧
      (kind = .write → s.inner.readers = 0) := by
  simp only [rwlockWaiterCanAcquire, hlookup] at h
  split at h
  · cases h
  · rename_i hfirst
    refine ⟨by simpa using hfirst, ?_⟩
    cases kind <;> simpa using h

/-- Taking the waiter of a future out of the views, if it has one. -/
theorem unregisterWaiterOf_change (hcons : Consistent s) {futures : Table Nat RwLockAcquireState}
    (hlookup : s.futures.lookup handle = some state)
    (hwaiting : State.waiting ⟨unregisterWaiterOf s.inner state, futures, s.nextHandle⟩ =
      Function.update s.waiting handle none) :
    Change s op ⟨unregisterWaiterOf s.inner state, futures, s.nextHandle⟩ ∧
      (unregisterWaiterOf s.inner state).closed = s.inner.closed := by
  cases hid : state.waiterId with
  | none =>
    have hbefore : s.waiting handle = none := waiting_of_lookup hlookup hid
    simp only [unregisterWaiterOf, hid] at hwaiting ⊢
    rw [update_eq_self_iff.mpr hbefore.symm] at hwaiting
    exact ⟨.quiet ⟨rfl, rfl, rfl⟩ ⟨rfl, rfl, hwaiting⟩, trivial⟩
  | some id =>
    have hbefore : s.waiting handle = some (id, state.kind) := waiting_of_lookup hlookup hid
    simp only [unregisterWaiterOf, hid,
      rwlockUnregisterWaiter_spec (hcons.mem_waiters hbefore)] at hwaiting ⊢
    exact ⟨.unregister handle id state.kind ⟨rfl, rfl, rfl⟩ ⟨hbefore, hwaiting, rfl, rfl⟩,
      trivial⟩

/-- A poll that leaves the lock as it is and its own registration, too. -/
theorem quiet_insert (hlookup : s.futures.lookup handle = some state)
    (hid : state'.waiterId = state.waiterId) (hkind : state'.kind = state.kind)
    (hpolled : Polled s.inner.closed state state') :
    Effect s op ⟨s.inner, s.futures.insert handle state', s.nextHandle⟩ := by
  refine ⟨.quiet ⟨rfl, rfl, rfl⟩ ⟨rfl, rfl, ?_⟩, .of_insert hlookup rfl hpolled⟩
  rw [waiting_insert, hid, hkind, ← waiting_of_lookup hlookup rfl]
  exact update_eq_self ..

theorem acquireFor_eq_some {code : Int} (h : acquireFor inner state = some (after, state', code)) :
    ∃ id, rwlockAcquireGuard inner state.kind = some (id, after) ∧ state' = ready state id := by
  obtain ⟨⟨id, _⟩, hacquire, ⟨⟩⟩ := bind_eq_some_iff.mp h
  exact ⟨id, hacquire, rfl⟩

section Poll

variable (hcons : Consistent s) {code : Int} (hlookup : s.futures.lookup handle = some state)
include hcons hlookup

theorem poll_registered_effect {id : Int} (hnone : state.outcome = none)
    (hopen : s.inner.closed = false) (hid : state.waiterId = some id)
    (h : (if rwlockWaiterCanAcquire s.inner id then
        acquireFor (rwlockUnregisterWaiter s.inner id) state
      else some (s.inner, state, 0)) = some (inner, state', code)) :
    Effect s (.poll kind handle) ⟨inner, s.futures.insert handle state', s.nextHandle⟩ := by
  split at h
  · rename_i hcan
    have hbefore : s.waiting handle = some (id, state.kind) := waiting_of_lookup hlookup hid
    obtain ⟨hfirst, hfree, hempty⟩ :=
      rwlockWaiterCanAcquire_spec (hcons.waiter handle id state.kind hbefore) hcan
    rw [rwlockUnregisterWaiter_spec (hcons.mem_waiters hbefore)] at h
    obtain ⟨guardId, hacquire, rfl⟩ := acquireFor_eq_some h
    obtain ⟨⟨hpos, hfresh⟩, next, rfl⟩ := rwlockAcquireGuard_spec hacquire
    refine ⟨.grant handle id state.kind kind guardId ?_ ?_ hfirst rfl,
      .of_insert hlookup rfl (.settled _ hnone (.inr hpos))⟩
    · exact ⟨hopen, hfresh, hpos, hfree, hempty, rfl, by simp [hfree], rfl⟩
    · exact ⟨hbefore, waiting_insert .., rfl, rfl⟩
  · cases h
    exact quiet_insert hlookup rfl rfl .same

theorem poll_unregistered_effect (hnone : state.outcome = none) (hopen : s.inner.closed = false)
    (hid : state.waiterId = none)
    (h : (if canAcquireAtOnce s.inner state.kind then acquireFor s.inner state
      else do
        let (id, inner) ← rwlockRegisterWaiter s.inner state.kind
        some (inner, { state with waiterId := some id }, 0)) = some (inner, state', code)) :
    Effect s (.poll kind handle) ⟨inner, s.futures.insert handle state', s.nextHandle⟩ := by
  have hbefore : s.waiting handle = none := waiting_of_lookup hlookup hid
  split at h
  · rename_i hcan
    obtain ⟨hfree, hempty, hwriters⟩ := canAcquireAtOnce_spec hcons hcan
    obtain ⟨guardId, hacquire, rfl⟩ := acquireFor_eq_some h
    obtain ⟨⟨hpos, hfresh⟩, next, rfl⟩ := rwlockAcquireGuard_spec hacquire
    refine ⟨.acquire guardId state.kind ?_ ⟨rfl, rfl, ?_⟩ hwriters
      (fun kind' handle' hop => by cases hop; exact hbefore),
      .of_insert hlookup rfl (.settled _ hnone (.inr hpos))⟩
    · exact ⟨hopen, hfresh, hpos, hfree, hempty, rfl, by simp [hfree], rfl⟩
    · rw [waiting_insert]
      exact update_eq_self_iff.mpr hbefore.symm
  · obtain ⟨⟨id, _⟩, hregister, ⟨⟩⟩ := bind_eq_some_iff.mp h
    obtain ⟨hfresh, next, rfl⟩ := rwlockRegisterWaiter_spec hregister
    exact ⟨.register handle id state.kind ⟨rfl, rfl, rfl⟩ hbefore hfresh (waiting_insert ..) rfl rfl,
      .of_insert hlookup rfl (.registered _ hnone hid)⟩

theorem rwlockAcquirePoll_effect
    (h : rwlockAcquirePoll s.inner state = some (inner, state', code)) :
    Effect s (.poll kind handle) ⟨inner, s.futures.insert handle state', s.nextHandle⟩ := by
  unfold rwlockAcquirePoll at h
  split at h
  · cases h
    exact quiet_insert hlookup rfl rfl .same
  · split at h
    · rename_i hsome
      cases h
      exact quiet_insert hlookup rfl rfl (.finished hsome)
    · rename_i hnone
      rw [Bool.not_eq_true, isSome_eq_false_iff, isNone_iff_eq_none] at hnone
      split at h
      · rename_i hisClosed
        cases h
        obtain ⟨hchange, hclosed⟩ := unregisterWaiterOf_change hcons hlookup
          (waiting_insert s _ handle (ready state (-statusInvalidHandle)) _)
        exact ⟨hchange, .of_insert hlookup hclosed (.settled _ hnone (.inl hisClosed))⟩
      · rename_i hopen
        rw [Bool.not_eq_true] at hopen
        split at h
        · rename_i id hid
          exact poll_registered_effect hcons hlookup hnone hopen hid h
        · rename_i hid
          exact poll_unregistered_effect hcons hlookup hnone hopen hid h

end Poll

theorem poll_effect (hcons : Consistent s)
    (h : poll s kind handle = some (t, reply)) : Effect s (.poll kind handle) t := by
  unfold poll at h
  split at h
  · cases h
    exact .refl
  · rename_i state hlookup
    split at h
    · cases h
      exact .refl
    · obtain ⟨⟨inner, state', code⟩, hpoll, ⟨⟩⟩ := bind_eq_some_iff.mp h
      exact rwlockAcquirePoll_effect hcons hlookup hpoll

/-- Consuming a future takes its waiter, if it has one, out of the views. -/
theorem take_effect (hcons : Consistent s)
    (hkind : ∀ state, s.futures.lookup handle = some state → state.kind = kind)
    (missing : Reply) (found : RwLockAcquireState → Reply) :
    Effect s op (take s kind handle missing found).1 := by
  unfold take
  split
  · exact .refl
  · rename_i state hlookup
    rw [if_neg (by simpa using hkind state hlookup)]
    obtain ⟨hchange, hclosed⟩ := unregisterWaiterOf_change hcons hlookup (waiting_erase ..)
    exact ⟨hchange, .of_erase hclosed⟩

theorem start_effect (hinv : Inv s) (kind : RwLockGuardKind) : Effect s op (start s kind).1 := by
  have hfresh : s.nextHandle ∉ s.futures := by
    intro hmem
    exact Nat.lt_irrefl _ (hinv.handles _ hmem)
  refine ⟨.quiet ⟨rfl, rfl, rfl⟩ ⟨rfl, rfl, ?_⟩, start_evolves kind⟩
  rw [start, waiting_insert]
  exact update_eq_self_iff.mpr (waiting_of_notMem hfresh).symm

theorem writeGuardSet_effect (guardId : Int) (value : Option α) (hasDrop : Bool) :
    Effect s op (writeGuardSet s guardId value hasDrop).1 := by
  unfold writeGuardSet
  split
  · exact .refl
  · split_ifs
    · exact .refl
    · exact .refl
    · exact .quiet ⟨rfl, rfl, rfl⟩ ⟨rfl, rfl, rfl⟩ rfl id rfl

theorem rwlockGuardUnlock_effect (kind : RwLockGuardKind) (guardId : Int) :
    Effect s op (rwlockGuardUnlock s kind guardId).1 := by
  unfold rwlockGuardUnlock
  split
  · exact .refl
  · rename_i hlookup
    rw [not_not] at hlookup
    cases kind <;> exact ⟨.unlock guardId _ hlookup rfl (by simp) rfl ⟨rfl, rfl, rfl⟩,
      .of_futures_eq rfl id rfl⟩

theorem effect_of_total {outcome : State α × Reply} (hexec : some outcome = some (t, reply))
    (h : Effect s op outcome.1) : Effect s op t := by
  cases Option.some.inj hexec
  exact h

/-- Every call is one of the changes. -/
theorem step_effect (hinv : Inv s) (h : Step s op t) : Effect s op t := by
  obtain ⟨hmatching, reply, hexec⟩ := h
  cases op with
  | tryRead => exact tryRead_effect hexec
  | tryWrite => exact tryWrite_effect hexec
  | start kind => exact effect_of_total hexec (start_effect hinv kind)
  | poll kind handle => exact poll_effect hinv.consistent hexec
  | result | cancel | drop =>
    exact effect_of_total hexec (take_effect hinv.consistent hmatching _ _)
  | copyInto => exact effect_of_total hexec .refl
  | set guardId value hasDrop =>
    exact effect_of_total hexec (writeGuardSet_effect guardId value hasDrop)
  | unlock kind guardId =>
    exact effect_of_total hexec (rwlockGuardUnlock_effect kind guardId)
  | close =>
    exact effect_of_total hexec (.quiet ⟨rfl, rfl, rfl⟩ ⟨rfl, rfl, rfl⟩ rfl (fun _ => rfl) rfl)

end Effects

section Guards

theorem SameGuards.agree (h : SameGuards s t) (hs : GuardsAgree s) : GuardsAgree t where
  readers := by rw [h.readers, h.guards, hs.readers]
  writer := by rw [h.writer, h.guards, hs.writer]
  alone := by rw [h.guards]; exact hs.alone
  positive := by rw [h.guards]; exact hs.positive
  distinct := t.inner.guards.keys_nodup

theorem GuardsAgree.no_write (hs : GuardsAgree s) (hfree : s.inner.writer = false) (id : Int) :
    s.inner.guards.lookup id ≠ some .write := by
  intro hlookup
  cases hfree.symm.trans (hs.writer.mpr ⟨id, hlookup⟩)

/-- Without readers and without a writer there is no guard. -/
theorem GuardsAgree.keys_eq_nil (hs : GuardsAgree s) (hfree : s.inner.writer = false)
    (hempty : s.inner.readers = 0) : s.inner.guards.keys = [] := by
  apply eq_nil_iff_forall_not_mem.mpr
  intro id hmem
  obtain ⟨kind, hlookup⟩ := isSome_iff_exists.mp
    (lookup_isSome.mpr (mem_keys.mpr hmem))
  cases kind with
  | read =>
    have := count_pos (· == .read) hlookup rfl
    rw [← hs.readers] at this
    omega
  | write => exact hs.no_write hfree id hlookup

theorem AddsGuard.agree (h : AddsGuard s t id kind) (hs : GuardsAgree s) : GuardsAgree t where
  readers := by rw [h.readers, h.guards, count_insert _ h.fresh, hs.readers]
  writer := by
    rw [h.writer, h.guards, beq_iff_eq]
    constructor
    · rintro rfl
      exact ⟨id, lookup_insert _⟩
    · rintro ⟨other, hlookup⟩
      rcases lookup_insert_some hlookup with ⟨-, hkind⟩ | ⟨-, hold⟩
      · exact hkind.symm
      · exact absurd hold (hs.no_write h.noWriter other)
  alone := by
    intro other hlookup
    rw [h.guards] at hlookup ⊢
    rcases lookup_insert_some hlookup with ⟨rfl, hkind⟩ | ⟨-, hold⟩
    · rw [keys_insert, hs.keys_eq_nil h.noWriter (h.noReader hkind.symm)]
      rfl
    · exact absurd hold (hs.no_write h.noWriter other)
  positive := by
    intro other hmem
    rw [h.guards, mem_insert] at hmem
    rcases hmem with rfl | hmem
    · exact h.positive
    · exact hs.positive other hmem
  distinct := t.inner.guards.keys_nodup

/-- Beside a writer's guard there is no other. -/
theorem GuardsAgree.eq_writer (hs : GuardsAgree s) {other : Int}
    (hother : s.inner.guards.lookup other = some .write)
    (hlookup : s.inner.guards.lookup id = some kind) : other = id := by
  have hmem : id ∈ s.inner.guards.keys :=
    mem_keys.mp (mem_of_lookup hlookup)
  rw [hs.alone other hother, mem_singleton] at hmem
  exact hmem.symm

/-- Without the guard that is given back there is no writer's. -/
theorem GuardsAgree.erase_write (hs : GuardsAgree s)
    (hlookup : s.inner.guards.lookup id = some kind) (other : Int) :
    (s.inner.guards.erase id).lookup other ≠ some .write := by
  intro hother
  obtain ⟨hne, hother⟩ := lookup_erase_some hother
  exact hne (hs.eq_writer hother hlookup)

theorem GuardsAgree.unlock (hs : GuardsAgree s) (hlookup : s.inner.guards.lookup id = some kind)
    (hreaders : t.inner.readers = s.inner.readers - if kind == .read then 1 else 0)
    (hwriter : t.inner.writer = (s.inner.writer && kind == .read))
    (hguards : t.inner.guards = s.inner.guards.erase id) : GuardsAgree t where
  readers := by
    have hcount := count_erase (· == RwLockGuardKind.read) hlookup
    rw [hreaders, hguards, hs.readers]
    omega
  writer := by
    rw [hwriter, hguards, Bool.and_eq_true, beq_iff_eq, hs.writer]
    constructor
    · rintro ⟨⟨other, hother⟩, rfl⟩
      obtain rfl := hs.eq_writer hother hlookup
      cases hlookup.symm.trans hother
    · rintro ⟨other, hother⟩
      exact absurd hother (hs.erase_write hlookup other)
  alone other hother := absurd (hguards ▸ hother) (hs.erase_write hlookup other)
  positive := by
    intro other hmem
    rw [hguards, mem_erase] at hmem
    exact hs.positive other hmem.2
  distinct := t.inner.guards.keys_nodup

end Guards

section Waiters

theorem SameWaiters.agree (h : SameWaiters s t) (hs : WaitersAgree s) : WaitersAgree t where
  queue_nodup := by rw [h.queue]; exact hs.queue_nodup
  queue_keys := by rw [h.queue, h.waiters]; exact hs.queue_keys
  registered := by rw [h.waiters, h.waiting]; exact hs.registered
  waiter := by rw [h.waiters, h.waiting]; exact hs.waiter

/-- No two futures share a waiter. -/
theorem WaitersAgree.handle_unique (hs : WaitersAgree s) {handle' : Nat}
    (h : s.waiting handle = some (id, kind)) (h' : s.waiting handle' = some (id, kind')) :
    handle = handle' := by
  have hkind := hs.waiter handle id kind h
  cases hkind.symm.trans (hs.waiter handle' id kind' h')
  exact (hs.registered id kind hkind).unique h h'

/-- Whoever still waits is not the one taken out, and does not share its waiter. -/
theorem RemovesWaiter.stays (h : RemovesWaiter s t handle id kind) (hs : WaitersAgree s)
    {other : Nat} {v : Int} (hother : t.waiting other = some (v, kind')) :
    s.waiting other = some (v, kind') ∧ v ≠ id := by
  rw [h.waiting] at hother
  rcases eq_or_ne other handle with rfl | hne
  · simp at hother
  · rw [update_of_ne hne] at hother
    refine ⟨hother, ?_⟩
    rintro rfl
    exact hne (hs.handle_unique hother h.before)

theorem RemovesWaiter.agree (h : RemovesWaiter s t handle id kind) (hs : WaitersAgree s) :
    WaitersAgree t where
  queue_nodup := by rw [h.queue]; exact hs.queue_nodup.erase id
  queue_keys := by
    intro other
    rw [h.queue, h.waiters, hs.queue_nodup.mem_erase_iff, mem_erase, hs.queue_keys]
  registered := by
    intro other kind' hlookup
    rw [h.waiters] at hlookup
    obtain ⟨hne, hlookup⟩ := lookup_erase_some hlookup
    obtain ⟨owner, howner, hunique⟩ := hs.registered other kind' hlookup
    have howner_ne : owner ≠ handle := by
      rintro rfl
      rw [h.before] at howner
      exact hne (by simpa using (congrArg Prod.fst (Option.some.inj howner)).symm)
    refine ⟨owner, ?_, fun found hfound => hunique found (h.stays hs hfound).1⟩
    simpa [h.waiting, howner_ne] using howner
  waiter := by
    intro found other kind' hfound
    obtain ⟨hbefore, hid⟩ := h.stays hs hfound
    rw [h.waiters, lookup_erase_ne hid]
    exact hs.waiter found other kind' hbefore

theorem waiting_of_update {w : Int × RwLockGuardKind} {found : Nat}
    (hwaiting : t.waiting = Function.update s.waiting handle (some (id, kind)))
    (hfound : t.waiting found = some w) :
    found = handle ∧ w = (id, kind) ∨ s.waiting found = some w := by
  rw [hwaiting] at hfound
  rcases eq_or_ne found handle with rfl | hne
  · rw [update_self, Option.some.injEq] at hfound
    exact .inl ⟨rfl, hfound.symm⟩
  · rw [update_of_ne hne] at hfound
    exact .inr hfound

theorem WaitersAgree.register (hs : WaitersAgree s) (hnone : s.waiting handle = none)
    (hfresh : id ∉ s.inner.waiters)
    (hwaiting : t.waiting = Function.update s.waiting handle (some (id, kind)))
    (hwaiters : t.inner.waiters = s.inner.waiters.insert id kind)
    (hqueue : t.inner.waiterQueue = s.inner.waiterQueue ++ [id]) : WaitersAgree t where
  queue_nodup := by
    rw [hqueue, nodup_append']
    refine ⟨hs.queue_nodup, nodup_singleton _, disjoint_singleton.mpr ?_⟩
    rw [hs.queue_keys]
    exact hfresh
  queue_keys := by
    intro other
    rw [hqueue, hwaiters, mem_append, mem_singleton, mem_insert, hs.queue_keys,
      or_comm]
  registered := by
    intro other kind' hlookup
    rw [hwaiters] at hlookup
    rcases lookup_insert_some hlookup with ⟨rfl, rfl⟩ | ⟨hne, hlookup⟩
    · refine ⟨handle, by simp [hwaiting], fun found hfound => ?_⟩
      by_contra hne
      simp only [hwaiting, update_of_ne hne] at hfound
      exact hfresh (mem_of_lookup (hs.waiter found other kind' hfound))
    · obtain ⟨owner, howner, hunique⟩ := hs.registered other kind' hlookup
      have howner_ne : owner ≠ handle := by
        rintro rfl
        cases hnone.symm.trans howner
      refine ⟨owner, by simpa [hwaiting, howner_ne] using howner, fun found hfound => ?_⟩
      rcases waiting_of_update hwaiting hfound with ⟨-, hsame⟩ | hfound
      · exact absurd (congrArg Prod.fst hsame) hne
      · exact hunique found hfound
  waiter := by
    intro found other kind' hfound
    rcases waiting_of_update hwaiting hfound with ⟨-, hsame⟩ | hfound
    · cases hsame
      rw [hwaiters, lookup_insert]
    · have hlookup := hs.waiter found other kind' hfound
      have hid : other ≠ id := by
        rintro rfl
        exact hfresh (mem_of_lookup hlookup)
      rw [hwaiters, lookup_insert_ne hid]
      exact hlookup

end Waiters

theorem Change.consistent (h : Change s op t) (hs : Consistent s) :
    Consistent t := by
  cases h with
  | quiet hguards hwaiters | acquire _ _ hguards hwaiters _ _
  | grant _ _ _ _ _ hguards hwaiters _ _ | unregister _ _ _ hguards hwaiters =>
    exact ⟨hguards.agree hs.toGuardsAgree, hwaiters.agree hs.toWaitersAgree⟩
  | register handle id kind hguards hnone hfresh hwaiting hwaiters hqueue =>
    exact ⟨hguards.agree hs.toGuardsAgree,
      hs.toWaitersAgree.register hnone hfresh hwaiting hwaiters hqueue⟩
  | unlock id kind hlookup hreaders hwriter hguards hwaiters =>
    exact ⟨hs.toGuardsAgree.unlock hlookup hreaders hwriter hguards,
      hwaiters.agree hs.toWaitersAgree⟩

section Runs

theorem step_inv (hinv : Inv s) (h : Step s op t) : Inv t :=
  ⟨(step_effect hinv h).change.consistent hinv.consistent, (step_effect hinv h).evolves.handles hinv.handles⟩

theorem rwlockNew_inv (payload : α) (payloadSize : Nat) : Inv (rwlockNew payload payloadSize) := by
  refine ⟨⟨⟨rfl, ?_, ?_, ?_, nodup_nil⟩, ⟨nodup_nil, ?_, ?_, ?_⟩⟩, ?_⟩
  all_goals simp [rwlockNew, State.waiting]

theorem run_inv (hinv : Inv s) (hrun : Run Step s ops t) : Inv t :=
  hrun.invariant (P := fun _ t => Inv t) hinv fun _ _ _ _ _ => step_inv

/-- The wait behind a future is over: the future is gone, or it has its outcome. -/
def Over (t : State α) (handle : Nat) : Prop :=
  ∀ state, t.futures.lookup handle = some state →
    state.waiterId = none ∧ ∃ outcome, state.outcome = some outcome ∧
      (t.inner.closed = true ∨ 0 < outcome)

theorem Over.waiting (h : Over t handle) : t.waiting handle = none := by
  cases hlookup : t.futures.lookup handle with
  | none => simp [State.waiting, hlookup]
  | some state =>
    exact waiting_of_lookup hlookup (h state hlookup).1

theorem Over.step (h : Over s handle) (hlt : handle < s.nextHandle)
    (hevolves : Evolves s t) : Over t handle := by
  intro state' hlookup'
  obtain ⟨state, hlookup, hpolled⟩ := hevolves.future handle hlt state' hlookup'
  obtain ⟨hid, outcome, houtcome, hwhy⟩ := h state hlookup
  have hwhy' := hwhy.imp_left hevolves.closed
  cases hpolled with
  | same | finished => exact ⟨hid, outcome, houtcome, hwhy'⟩
  | settled _ hnone | registered _ hnone => simp [houtcome] at hnone

theorem Inv.lt_of_waiting {w : Int × RwLockGuardKind} (hinv : Inv s)
    (h : s.waiting handle = some w) : handle < s.nextHandle := by
  apply hinv.handles
  by_contra hmem
  rw [waiting_of_notMem hmem] at h
  cases h

/-- A registered future stays registered under its waiter until its wait is over. -/
theorem waiting_step {w : Int × RwLockGuardKind} (hinv : Inv s)
    (h : s.waiting handle = some w) (hevolves : Evolves s t) :
    t.waiting handle = some w ∨ Over t handle := by
  have hlt := hinv.lt_of_waiting h
  cases hlookup' : t.futures.lookup handle with
  | none => exact .inr fun state hlookup => by rw [hlookup'] at hlookup; cases hlookup
  | some state' =>
    obtain ⟨state, hlookup, hpolled⟩ := hevolves.future handle hlt state' hlookup'
    rw [waiting_of_lookup hlookup rfl] at h
    rw [waiting_of_lookup hlookup' rfl]
    cases hpolled with
    | same | finished => exact .inl h
    | settled outcome _ hwhy =>
      right
      intro found hfound
      cases hlookup'.symm.trans hfound
      exact ⟨rfl, outcome, rfl, hwhy.imp_left hevolves.closed⟩
    | registered _ _ hnone => simp [hnone] at h

/-- The futures that were not registered in `s` and are now stand behind `w`. -/
def Behind (s t : State α) (w : Int) : Prop :=
  ∀ second w' kind', s.waiting second = none → t.waiting second = some (w', kind') →
    [w, w'].Sublist t.inner.waiterQueue

theorem SameWaiters.behind {w : Int} (h : SameWaiters t u) (hbehind : Behind s t w) :
    Behind s u w := by
  intro second w' kind' hbefore hnow
  rw [h.queue]
  rw [h.waiting] at hnow
  exact hbehind second w' kind' hbefore hnow

theorem RemovesWaiter.behind {w : Int} (h : RemovesWaiter t u handle id kind) (hcons : Consistent t)
    (hfirst' : u.waiting first = some (w, k))
    (hbehind : Behind s t w) : Behind s u w := by
  intro second w' kind' hbefore hnow
  obtain ⟨hsecond, hw'⟩ := h.stays hcons.toWaitersAgree hnow
  obtain ⟨-, hw⟩ := h.stays hcons.toWaitersAgree hfirst'
  have herase := (hbehind second w' kind' hbefore hsecond).erase id
  rwa [erase_of_not_mem (by simp [hw.symm, hw'.symm]), ← h.queue] at herase

theorem Change.behind {w : Int} (h : Change t op u)
    (hcons : Consistent t) (hfirst : t.waiting first = some (w, k))
    (hfirst' : u.waiting first = some (w, k)) (hbehind : Behind s t w) : Behind s u w := by
  cases h with
  | quiet _ hwaiters | acquire _ _ _ hwaiters | unlock _ _ _ _ _ _ hwaiters =>
    exact hwaiters.behind hbehind
  | grant _ _ _ _ _ _ hremoves | unregister _ _ _ _ hremoves =>
    exact hremoves.behind hcons hfirst' hbehind
  | register handle id kind _ _ _ hwaiting _ hqueue =>
    intro second w' kind' hbefore hnow
    rw [hqueue]
    rcases waiting_of_update hwaiting hnow with ⟨-, hsame⟩ | hnow
    · cases hsame
      have hmem := (hcons.queue_keys w).mpr (hcons.mem_waiters hfirst)
      exact (singleton_sublist.mpr hmem).append (List.Sublist.refl [id])
    · exact (hbehind second w' kind' hbefore hnow).trans (sublist_append_left _ _)

/-- Along a run a registered future keeps its place before all that register later. -/
theorem run_behind {w : Int} (hinv : Inv s)
    (hfirst : s.waiting first = some (w, k)) (hrun : Run Step s ops t) :
    Over t first ∨ t.waiting first = some (w, k) ∧ Behind s t w := by
  have hlt := hinv.lt_of_waiting hfirst
  suffices hboth : s.nextHandle ≤ t.nextHandle ∧
      (Over t first ∨ t.waiting first = some (w, k) ∧ Behind s t w) from hboth.2
  refine hrun.invariant (P := fun _ t => s.nextHandle ≤ t.nextHandle ∧
    (Over t first ∨ t.waiting first = some (w, k) ∧ Behind s t w)) ?_ ?_
  · refine ⟨Nat.le_refl _, .inr ⟨hfirst, fun second w' kind' hbefore hnow => ?_⟩⟩
    rw [hbefore] at hnow
    cases hnow
  · rintro _ t op u hrun ⟨hnext, hcases⟩ hstep
    have hinv' := run_inv hinv hrun
    have hevolves := (step_effect hinv' hstep).evolves
    refine ⟨Nat.le_trans hnext hevolves.next, ?_⟩
    rcases hcases with hover | ⟨hwaits, hbehind⟩
    · exact .inl (hover.step (Nat.lt_of_lt_of_le hlt hnext) hevolves)
    · rcases waiting_step hinv' hwaits hevolves with hwaits' | hover
      · exact .inr ⟨hwaits',
          (step_effect hinv' hstep).change.behind hinv'.consistent hwaits hwaits' hbehind⟩
      · exact .inl hover

theorem waiting_run_eq {w : Int × RwLockGuardKind} (hinv : Inv s)
    (hfirst : s.waiting first = some w) (hrun : Run Step s ops t)
    (hstill : t.waiting first ≠ none) : t.waiting first = some w ∧ Behind s t w.1 := by
  rcases run_behind hinv hfirst hrun with hover | hkept
  · exact absurd hover.waiting hstill
  · exact hkept

end Runs

section Grants

theorem Consistent.first_eq_head (h : Consistent s) :
    rwlockFirstWaiterId s.inner = s.inner.waiterQueue.head? := by
  unfold rwlockFirstWaiterId
  cases hqueue : s.inner.waiterQueue with
  | nil => rfl
  | cons id rest =>
    have hmem : id ∈ s.inner.waiters := by
      rw [← h.queue_keys, hqueue]
      exact mem_cons_self
    simp [hmem]

/-- The lock changes hands by a free acquisition, which no registered writer
allows, or by a grant to the head of the queue. -/
theorem obtains_cases (hinv : Inv s) (hstep : Step s op t) (hobtains : Obtains s t) :
    s.inner.closed = false ∧ ((∀ waiter, s.inner.waiters.lookup waiter ≠ some .write) ∧
          (∀ kind handle, op = .poll kind handle → s.waiting handle = none) ∨
        ∃ kind handle w, op = .poll kind handle ∧ s.waiting handle = some w ∧
          s.inner.waiterQueue.head? = some w.1) := by
  obtain ⟨guard, hbefore, hafter⟩ := hobtains
  cases (step_effect hinv hstep).change with
  | quiet hguards | register _ _ _ hguards | unregister _ _ _ hguards =>
    rw [hguards.guards] at hafter
    exact absurd hafter hbefore
  | acquire _ _ hadds _ hwriters hfree => exact ⟨hadds.isOpen, .inl ⟨hwriters, hfree⟩⟩
  | grant handle waiter kind kind' _ hadds hremoves hfirst hop =>
    rw [hinv.consistent.first_eq_head] at hfirst
    exact ⟨hadds.isOpen, .inr ⟨kind', handle, (waiter, kind), hop, hremoves.before, hfirst⟩⟩
  | unlock _ _ _ _ _ hguards =>
    rw [hguards, mem_erase] at hafter
    exact absurd hafter.2 hbefore

theorem not_behind_head {queue : List Int} {w w' : Int} (hnodup : queue.Nodup)
    (hhead : queue.head? = some w') : ¬ [w, w'].Sublist queue := by
  intro hsub
  cases queue with
  | nil => cases hhead
  | cons id rest =>
    simp only [head?_cons, Option.some.injEq] at hhead
    subst hhead
    have hnotMem := (nodup_cons.mp hnodup).1
    rcases sublist_cons_iff.mp hsub with hrest | ⟨tail, heq, htail⟩
    · exact hnotMem (hrest.subset (by simp))
    · simp only [List.cons.injEq] at heq
      exact hnotMem (htail.subset (by simp [← heq.2]))

/-- What the waiters of `s` may rely on in every continuation. -/
structure Fair (s : State α) : Prop where
  order : ∀ ops t, Run Step s ops t → ∀ first second w w', s.waiting first = some w →
    s.waiting second = none → t.waiting first ≠ none → t.waiting second = some w' →
      t.waiting first = some w ∧ [w.1, w'.1].Sublist t.inner.waiterQueue
  turn : ∀ ops t kind second u, Run Step s ops t → Step t (.poll kind second) u →
    Obtains t u → ∀ first, s.waiting first ≠ none → s.waiting second = none →
      t.waiting second ≠ none → t.waiting first = none
  writer : ∀ ops t op u writer id, s.waiting writer = some (id, .write) → Run Step s ops t →
    Step t op u → Obtains t u → BeganAfter s op → writer ∉ t.futures ∨ t.Granted writer

theorem Over.granted (h : Over t handle) (hopen : t.inner.closed = false) :
    handle ∉ t.futures ∨ t.Granted handle := by
  cases hlookup : t.futures.lookup handle with
  | none => exact .inl (lookup_eq_none.mp hlookup)
  | some state =>
    obtain ⟨-, outcome, houtcome, hclosed | hpos⟩ := h state hlookup
    · rw [hopen] at hclosed
      cases hclosed
    · exact .inr ⟨state, outcome, hlookup, houtcome, hpos⟩

theorem Inv.fair (hinv : Inv s) : Fair s where
  order ops t hrun first second w w' hfirst hsecond hstill hnow := by
    obtain ⟨hkept, hbehind⟩ := waiting_run_eq hinv hfirst hrun hstill
    exact ⟨hkept, hbehind second w'.1 w'.2 hsecond hnow⟩
  turn ops t kind second u hrun hstep hobtains first hfirst hsecond hnow := by
    have hinv' := run_inv hinv hrun
    obtain ⟨w, hw⟩ := ne_none_iff_exists'.mp hfirst
    by_contra hstill
    obtain ⟨-, ⟨-, hfree⟩ | ⟨kind', handle, w', hop, hw', hhead⟩⟩ :=
      obtains_cases hinv' hstep hobtains
    · exact hnow (hfree kind second rfl)
    · cases hop
      have hsub := (waiting_run_eq hinv hw hrun hstill).2 second w'.1 w'.2 hsecond hw'
      exact not_behind_head hinv'.consistent.queue_nodup hhead hsub
  writer ops t op u writer id hwriter hrun hstep hobtains hbegan := by
    have hinv' := run_inv hinv hrun
    obtain ⟨hopen, hcases⟩ := obtains_cases hinv' hstep hobtains
    rcases run_behind hinv hwriter hrun with hover | ⟨hwaits, hbehind⟩
    · exact hover.granted hopen
    · exfalso
      rcases hcases with ⟨hwriters, -⟩ | ⟨kind, handle, w', rfl, hw', hhead⟩
      · exact hwriters id (hinv'.consistent.waiter writer id .write hwaits)
      · have hsub := hbehind handle w'.1 w'.2 (waiting_of_notMem hbegan) hw'
        exact not_behind_head hinv'.consistent.queue_nodup hhead hsub

/-- In every state that calls can reach, the views of the lock agree and its
waiters are served in order. -/
theorem rwlock_consistent_and_fair (payload : α) (payloadSize : Nat) (ops : List (Op α))
    (s : State α) (hrun : Run Step (rwlockNew payload payloadSize) ops s) :
    Consistent s ∧ Fair s := by
  have hinv := run_inv (rwlockNew_inv payload payloadSize) hrun
  exact ⟨hinv.consistent, hinv.fair⟩

/-- A reader holds the lock and a writer waits for it. -/
theorem rwlock_consistent_and_fair_waiting :
    ∃ s : State Unit, Run Step (rwlockNew () 8) [.tryRead, .start .write, .poll .write 1] s ∧
      s.inner.readers = 1 ∧ s.waiting 1 = some (1, .write) ∧ Consistent s ∧ Fair s := by
  have hrun : Run Step (rwlockNew () 8) [.tryRead, .start .write, .poll .write 1] _ :=
    .snoc (.snoc (.snoc (.nil _) ⟨trivial, _, rfl⟩) ⟨trivial, _, rfl⟩) ⟨by rintro _ ⟨⟩; rfl, _, rfl⟩
  exact ⟨_, hrun, rfl, rfl, rwlock_consistent_and_fair () 8 _ _ hrun⟩

end Grants

end Sengoo.Runtime.RwLock
