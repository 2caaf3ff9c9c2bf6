import Sengoo.Runtime.Channel

/-!
What an entry point of the channel does to the one object it works on and to the
inner record: the queue changes by the entries it pushes, pops and clears, a
payload moves from place to place, and a future stays in step with its own part
of the logs.
-/

namespace Sengoo.Runtime.Channel

open List

variable {α : Type}

section Calls

def Effect.pushed : Effect α → Option (Nat × ChannelQueueEntry α)
  | .push handle entry => some (handle, entry)
  | _ => none

def Effect.popped : Effect α → Option (Nat × ChannelQueueEntry α)
  | .pop handle entry => some (handle, entry)
  | _ => none

def Effect.cleared : Effect α → Option (ChannelQueueEntry α)
  | .clear entry => some entry
  | _ => none

def ChannelQueueEntry.payload : ChannelQueueEntry α → Option α
  | .i64 _ => none
  | .descriptor payload => some payload

variable {o : Object α} {kind : FutureKind}

/-- The payload whose ownership ends here: it is moved out to a caller, or dropped. -/
def Effect.disposed : Effect α → Option α
  | .moveOut payload => some payload
  | .drop payload => some payload
  | .clear entry => entry.payload
  | _ => none

/-- The value a successful start was given, with the handle it returned. -/
def Call.input : Call α → Option (Nat × ChannelQueueEntry α)
  | ⟨.sendI64Start _ value, .handle (next + 1), _⟩ => some (next + 1, .i64 value)
  | ⟨.sendStart _ (some payload) _ _, .handle (next + 1), _⟩ =>
    some (next + 1, .descriptor payload)
  | _ => none

/-- The value the result of a receive hands out. -/
def Call.handed : Call α → Option (ChannelQueueEntry α)
  | ⟨_, .recvResult true value _, _⟩ => some (.i64 value)
  | ⟨_, .value _ payload, _⟩ => some (.descriptor payload)
  | _ => none

/-- The payload given to a start. -/
def Call.passed : Call α → Option α
  | ⟨.sendStart _ value _ _, _, _⟩ => value
  | _ => none

/-- The payload that a failing start without a drop function leaves to the caller. -/
def Call.left : Call α → Option α
  | ⟨.sendStart _ value false _, .handle 0, _⟩ => value
  | _ => none

def Call.succeeded : Call α → Bool
  | ⟨_, .sendResult isOk _, _⟩ => isOk
  | ⟨_, .code value, _⟩ => value == 0
  | _ => false

def effects (calls : List (Call α)) : List (Effect α) := calls.flatMap (·.effects)

def pushed (calls : List (Call α)) : List (Nat × ChannelQueueEntry α) :=
  (effects calls).filterMap Effect.pushed

def popped (calls : List (Call α)) : List (Nat × ChannelQueueEntry α) :=
  (effects calls).filterMap Effect.popped

def cleared (calls : List (Call α)) : List (ChannelQueueEntry α) :=
  (effects calls).filterMap Effect.cleared

/-- The entries of a log that belong to a handle. -/
def entriesOf (handle : Nat) (log : List (Nat × ChannelQueueEntry α)) :
    List (ChannelQueueEntry α) :=
  (log.filter (·.1 = handle)).map (·.2)

def inputs (calls : List (Call α)) : List (Nat × ChannelQueueEntry α) :=
  calls.filterMap Call.input

end Calls

section Local

def owns [DecidableEq α] (p : α) (object : Object α) : Nat := object.payload.toList.count p

def inQueue [DecidableEq α] (p : α) (queue : List (ChannelQueueEntry α)) : Nat :=
  (queue.filterMap ChannelQueueEntry.payload).count p

def disposedIn [DecidableEq α] (p : α) (effects : List (Effect α)) : Nat :=
  (effects.filterMap Effect.disposed).count p

def senders : Object α → Nat
  | .pair sender _ => sender.toNat
  | .sender => 1
  | _ => 0

def weigh (f : Object α → Nat) (object : Option (Object α)) : Nat := (object.map f).getD 0

@[simp]
theorem weigh_none (f : Object α → Nat) : weigh f none = 0 := rfl

@[simp]
theorem weigh_some (f : Object α → Nat) (object : Object α) : weigh f (some object) = f object :=
  rfl

/-- Futures for integers and futures for described payloads do not meet. -/
def Typed (described : Bool) : Object α → Prop
  | .sendI64 _ | .recvI64 _ => described = false
  | .send _ | .recv _ => described = true
  | _ => True

/-- The receive has found the channel closed. -/
def ReportsClosed : Object α → Prop
  | .recvI64 state => ∃ code, state.outcome = some (.error code)
  | .recv state => ∃ code, state.outcome = some (.error code)
  | _ => False

/-- A future and its own part of the logs: the value it was started with, the
entries pushed for it and the entries popped for it. -/
def Tracks (given pushes pops : List (ChannelQueueEntry α)) : Object α → Prop
  | .sendI64 state => given = [.i64 state.value] ∧ pops = [] ∧
      pushes = if state.outcome matches some (.ok _) then [.i64 state.value] else []
  | .send state => pops = [] ∧ ∃ payload, given = [.descriptor payload] ∧
      if state.outcome = some 0 then state.value = none ∧ pushes = [.descriptor payload]
      else state.value = some payload ∧ pushes = []
  | .recvI64 state => pushes = [] ∧ pops = match state.outcome with
      | some (.ok value) => [.i64 value]
      | _ => []
  | .recv state => pushes = [] ∧ pops = state.outcome.elim [] fun
      | .ok payload => [.descriptor payload]
      | .error _ => []
  | _ => pushes = [] ∧ pops = []

/-- What an entry point may rely on. -/
structure Ready (inner : ChannelInner α) (object : Option (Object α)) : Prop where
  counted : weigh senders object ≤ inner.senderCount
  closed : inner.closed = true ↔ inner.senderCount = 0
  room : inner.queue.length ≤ inner.capacity
  kinds : ∀ entry ∈ inner.queue, entry.payload.isSome = inner.descriptor.isSome
  dead : inner.receiverAlive = false → inner.queue = []
  typed : ∀ o, object = some o → Typed inner.descriptor.isSome o

def pushesIn (out : Outcome α) : List (Nat × ChannelQueueEntry α) :=
  out.effects.filterMap Effect.pushed

def popsIn (out : Outcome α) : List (Nat × ChannelQueueEntry α) :=
  out.effects.filterMap Effect.popped

def clearsIn (out : Outcome α) : List (ChannelQueueEntry α) :=
  out.effects.filterMap Effect.cleared

/-- The endpoints and the queue after a call. -/
structure KeepsQueue (inner : ChannelInner α) (object : Option (Object α)) (out : Outcome α) :
    Prop where
  capacity : out.inner.capacity = inner.capacity
  descriptor : out.inner.descriptor = inner.descriptor
  senders : out.inner.senderCount + weigh senders object =
    inner.senderCount + weigh senders out.after + weigh senders out.fresh
  closed : out.inner.closed = true ↔ out.inner.senderCount = 0
  stays : inner.closed = true → out.inner.closed = true
  quiet : inner.closed = true ∨ inner.receiverAlive = false → pushesIn out = []
  fifo : inner.queue ++ (pushesIn out).map (·.2) =
    (popsIn out).map (·.2) ++ clearsIn out ++ out.inner.queue
  room : out.inner.queue.length ≤ out.inner.capacity
  kinds : ∀ entry ∈ out.inner.queue, entry.payload.isSome = inner.descriptor.isSome
  alive : out.inner.receiverAlive = true → inner.receiverAlive = true ∧ clearsIn out = []
  dead : out.inner.receiverAlive = false → out.inner.queue = []

end Local

variable {inner : ChannelInner α} {next : Nat} {op : Op α} {object : Option (Object α)}
  {out : Outcome α} {reply : Reply α} {handle : Nat}

variable {kind : FutureKind} {o : Object α} {after : Option (Object α)}

section Entered

def Object.isEndpoint : Object α → Bool
  | .pair _ _ | .sender | .receiver => true
  | _ => false

theorem endpoint_spec (h : o.isEndpoint = true) :
    (∀ given pushes pops, Tracks given pushes pops o ↔ pushes = [] ∧ pops = []) ∧
      (∀ described, Typed described o) ∧ ¬ ReportsClosed o := by
  cases o <;> simp_all [Object.isEndpoint, Tracks, Typed, ReportsClosed]

theorem payload_endpoint (h : o.isEndpoint = true) : o.payload = none := by
  cases o <;> first | rfl | cases h

theorem senders_of_accepts (h : kind.accepts o = true) : senders o = 0 := by
  cases kind <;> cases o <;> first | rfl | cases h

theorem typed_iff_of_accepts (h : kind.accepts o = true)
    {described : Bool} : Typed described o ↔ described = decide (kind = .send ∨ kind = .recv) := by
  cases kind <;> cases o <;> first | exact Iff.rfl | cases h

/-- The call neither takes a value nor leaves one with its caller. -/
def Quiet (op : Op α) (reply : Reply α) : Prop :=
  ∀ effects, Call.input ⟨op, reply, effects⟩ = none ∧ Call.passed ⟨op, reply, effects⟩ = none ∧
    Call.left ⟨op, reply, effects⟩ = none

def Silent (effects : List (Effect α)) : Prop :=
  effects.filterMap Effect.pushed = [] ∧ effects.filterMap Effect.popped = [] ∧
    effects.filterMap Effect.cleared = []

theorem silent_dropOwned (payload : Option α) : Silent (dropOwned payload) := by
  cases payload <;> exact ⟨rfl, rfl, rfl⟩

theorem silent_dropFailedChannelSendInput (value : Option α) (dropValue : Bool) :
    Silent (dropFailedChannelSendInput value dropValue) := by
  cases value <;> cases dropValue <;> exact ⟨rfl, rfl, rfl⟩

theorem disposed_dropOwned (payload : Option α) :
    (dropOwned payload).filterMap Effect.disposed = payload.toList := by
  cases payload <;> rfl

/-- What a poll makes of a future: it waits, or ends without the channel, or moves
one entry. -/
inductive Polled (inner : ChannelInner α) (handle : Nat) (o o' : Object α) :
    ChannelInner α → List (Effect α) → Prop
  | wait : o'.payload = o.payload →
      (∀ given pushes pops, Tracks given pushes pops o → Tracks given pushes pops o') →
      (ReportsClosed o' → ReportsClosed o ∨ inner.closed = true ∧ inner.queue = []) →
      Polled inner handle o o' inner []
  | push (entry : ChannelQueueEntry α) : inner.closed = false → inner.receiverAlive = true →
      inner.queue.length < inner.capacity → entry.payload.isSome = inner.descriptor.isSome →
      o.payload = entry.payload → o'.payload = none →
      (∀ given pushes pops, Tracks given pushes pops o →
        Tracks given (pushes ++ [entry]) pops o') → ¬ ReportsClosed o' →
      Polled inner handle o o' { inner with queue := inner.queue ++ [entry] } [.push handle entry]
  | pop (entry : ChannelQueueEntry α) (rest : List (ChannelQueueEntry α)) :
      inner.queue = entry :: rest → o.payload = none → o'.payload = entry.payload →
      (∀ given pushes pops, Tracks given pushes pops o →
        Tracks given pushes (pops ++ [entry]) o') → ¬ ReportsClosed o' →
      Polled inner handle o o' { inner with queue := rest } [.pop handle entry]

theorem Polled.refl (o : Object α) : Polled inner handle o o inner [] :=
  .wait rfl (fun _ _ _ h => h) .inl

theorem sendI64Poll_polled (state : ChannelSendI64State) (hkind : inner.descriptor.isSome = false) :
    Polled inner handle (.sendI64 state) (.sendI64 (sendI64Poll inner handle state).2.1)
      (sendI64Poll inner handle state).1 (sendI64Poll inner handle state).2.2.2 := by
  unfold sendI64Poll
  split
  · exact .refl _
  · split_ifs with houtcome hclosed hroom
    · exact .wait rfl (fun _ _ _ h => h) .inl
    · refine .wait rfl (fun _ _ _ h => ?_) .inl
      have hnone : state.outcome = none := by simpa using houtcome
      simpa [Tracks, hnone] using h
    · have hnone : state.outcome = none := by simpa using houtcome
      simp only [Bool.or_eq_true, not_or, Bool.not_eq_true, Bool.not_eq_eq_eq_not, Bool.not_true,
        Bool.not_eq_false] at hclosed
      refine .push _ hclosed.1 hclosed.2 hroom hkind.symm rfl rfl (fun _ _ _ h => ?_) nofun
      simp only [Tracks, hnone] at h
      simp [Tracks, h]
    · exact .refl _

theorem sendPoll_polled (state : ChannelSendState α) (hkind : inner.descriptor.isSome = true) :
    Polled inner handle (.send state) (.send (sendPoll inner handle state).2.1)
      (sendPoll inner handle state).1 (sendPoll inner handle state).2.2.2 := by
  have hgone (hnone : state.outcome = none) (lifecycle : PollLifecycle) :
      Polled inner handle (.send state) (.send { state with
        lifecycle := lifecycle, outcome := some (-statusInvalidHandle) }) inner [] := by
    refine .wait rfl (fun _ _ _ h => ?_) .inl
    simpa [Tracks, hnone, statusInvalidHandle] using h
  unfold sendPoll
  split
  · exact .refl _
  · split_ifs with houtcome hclosed hroom
    · exact .wait rfl (fun _ _ _ h => h) .inl
    · exact hgone (by simpa using houtcome) _
    · have hnone : state.outcome = none := by simpa using houtcome
      simp only [Bool.or_eq_true, not_or, Bool.not_eq_true, Bool.not_eq_eq_eq_not, Bool.not_true,
        Bool.not_eq_false] at hclosed
      split
      · exact hgone hnone _
      · rename_i payload hvalue
        refine .push _ hclosed.1.1 hclosed.1.2 hroom hkind.symm hvalue rfl (fun _ _ _ h => ?_) nofun
        simp only [Tracks, hnone, hvalue, Option.some.injEq] at h
        obtain ⟨rfl, payload', rfl, rfl, rfl⟩ := h
        simp [Tracks]
    · exact .refl _

theorem recvI64Poll_polled (hready : Ready inner object) (state : ChannelRecvI64State)
    (hkind : inner.descriptor.isSome = false) :
    Polled inner handle (.recvI64 state) (.recvI64 (recvI64Poll inner handle state).2.1)
      (recvI64Poll inner handle state).1 (recvI64Poll inner handle state).2.2.2 := by
  unfold recvI64Poll
  split
  · exact .refl _
  · split
    · exact .wait rfl (fun _ _ _ h => h) .inl
    · rename_i houtcome
      have hnone : state.outcome = none := by simpa using houtcome
      split
      · rename_i value rest hqueue
        refine .pop _ rest hqueue rfl rfl (fun _ _ _ h => ?_) nofun
        simp only [Tracks, hnone] at h
        simp [Tracks, h]
      · rename_i payload rest hqueue
        have := hready.kinds (.descriptor payload) (by rw [hqueue]; exact mem_cons_self)
        simp [ChannelQueueEntry.payload, hkind] at this
      · rename_i hqueue
        split_ifs with hclosed
        · refine .wait rfl (fun _ _ _ h => ?_) fun _ => .inr ⟨hclosed, hqueue⟩
          simpa [Tracks, hnone] using h
        · exact .refl _

theorem recvPoll_polled (hready : Ready inner object) (state : ChannelRecvState α)
    (hkind : inner.descriptor.isSome = true) :
    Polled inner handle (.recv state) (.recv (recvPoll inner handle state).2.1)
      (recvPoll inner handle state).1 (recvPoll inner handle state).2.2.2 := by
  unfold recvPoll
  split
  · exact .refl _
  · split
    · exact .wait rfl (fun _ _ _ h => h) .inl
    · rename_i houtcome
      have hnone : state.outcome = none := by simpa using houtcome
      have hpayload : (Object.recv state).payload = none := by simp [Object.payload, hnone]
      split
      · rename_i payload rest hqueue
        refine .pop _ rest hqueue hpayload rfl (fun _ _ _ h => ?_) nofun
        simp only [Tracks, hnone] at h
        simp [Tracks, h]
      · rename_i value rest hqueue
        have := hready.kinds (.i64 value) (by rw [hqueue]; exact mem_cons_self)
        simp [ChannelQueueEntry.payload, hkind] at this
      · rename_i hqueue
        split_ifs with hclosed
        · refine .wait hpayload.symm (fun _ _ _ h => ?_) fun _ => .inr ⟨hclosed, hqueue⟩
          simpa [Tracks, hnone] using h
        · exact .refl _

/-- The record and the cleared entries once the endpoints of a handle are gone,
first the sender and then the receiver. -/
def freed (inner : ChannelInner α) (sender receiver : Bool) : ChannelInner α × List (Effect α) :=
  let inner := if sender then channelDropSender inner else inner
  if receiver then channelDropReceiver inner else (inner, [])

/-- What an entry point can do. -/
inductive Entered (inner : ChannelInner α) (next : Nat) (op : Op α) :
    Option (Object α) → Outcome α → Prop
  | idle (object : Option (Object α)) (reply : Reply α) : Quiet op reply →
      Entered inner next op object ⟨inner, object, none, reply, []⟩
  | refuse (object : Option (Object α)) (handle : Nat) (value : Option α)
      (dropValue allocated : Bool) : op = .sendStart handle value dropValue allocated →
      Entered inner next op object
        ⟨inner, object, none, .handle 0, dropFailedChannelSendInput value dropValue⟩
  | split (o o' fresh : Object α) : o.isEndpoint = true → o'.isEndpoint = true →
      fresh.isEndpoint = true → senders o = senders o' + senders fresh →
      Quiet op (.handle next) →
      Entered inner next op (some o) ⟨inner, some o', some fresh, .handle next, []⟩
  | clone : Quiet op (.handle next) → Entered inner next op (some .sender)
        ⟨{ inner with senderCount := inner.senderCount + 1 }, some .sender, some .sender,
          .handle next, []⟩
  | start (o fresh : Object α) : o.isEndpoint = true → senders fresh = 0 →
      Typed inner.descriptor.isSome fresh → ¬ ReportsClosed fresh →
      Tracks ((Call.input ⟨op, .handle next, []⟩).toList.map (·.2)) [] [] fresh →
      (∀ log, Call.input ⟨op, .handle next, []⟩ = some log → log.1 = next) →
      Call.passed ⟨op, .handle next, []⟩ = fresh.payload →
      Call.left ⟨op, .handle next, []⟩ = none →
      Entered inner next op (some o) ⟨inner, some o, some fresh, .handle next, []⟩
  | free (o : Object α) (sender receiver : Bool) : o.isEndpoint = true →
      senders o = sender.toNat → Quiet op .none →
      Entered inner next op (some o) ⟨(freed inner sender receiver).1, none, none, .none,
        (freed inner sender receiver).2⟩
  | poll (kind : FutureKind) (handle : Nat) (o o' : Object α) (after : ChannelInner α)
      (code : Int) (effects : List (Effect α)) : op = .poll kind handle →
      kind.accepts o = true → kind.accepts o' = true → Polled inner handle o o' after effects →
      Entered inner next op (some o) ⟨after, some o', none, .code code, effects⟩
  | consume (o : Object α) (fresh : Option (Object α)) (reply : Reply α)
      (effects : List (Effect α)) : senders o = 0 → Silent effects →
      (∀ o', fresh = some o' → ∃ payload, o' = .value payload) →
      (fresh.bind Object.payload).toList ++ effects.filterMap Effect.disposed =
        o.payload.toList → Quiet op reply →
      Entered inner next op (some o) ⟨inner, none, fresh, reply, effects⟩

theorem Entered.dropOwned (hsenders : senders o = 0) (hquiet : Quiet op reply) :
    Entered inner next op (some o) ⟨inner, none, none, reply, dropOwned o.payload⟩ :=
  .consume o none reply _ hsenders (silent_dropOwned _) nofun (disposed_dropOwned _) hquiet

theorem channelSendStart_entered {value : Option α} {dropValue allocated : Bool}
    (hnext : 0 < next)
    (h : channelSendStart inner next value dropValue allocated (some o) = some out) :
    Entered inner next (.sendStart handle value dropValue allocated) (some o) out := by
  cases o with
  | sender =>
    simp only [channelSendStart] at h
    split at h
    · cases h
      exact .refuse _ _ _ _ _ rfl
    · rename_i descriptor hdescriptor
      split at h
      · cases h
        exact .refuse _ _ _ _ _ rfl
      · rename_i payload howned
        have hvalue : value = some payload := by
          unfold ownedDescriptorValueNew at howned
          split_ifs at howned
          exact howned
        subst hvalue
        cases h
        obtain ⟨n, rfl⟩ := Nat.exists_eq_succ_of_ne_zero (Nat.ne_of_gt hnext)
        refine .start _ _ rfl rfl ?_ ?_ ?_ ?_ rfl (by cases dropValue <;> rfl)
        · simp [Typed, hdescriptor]
        · simp [ReportsClosed]
        · simp [Tracks, Call.input]
        · simp [Call.input]
  | _ => cases h

/-- A call with the null handle. -/
theorem entry_none_entered (h : entry inner next op none = some out) :
    Entered inner next op none out := by
  cases op with
  | sendStart =>
    cases h
    exact .refuse _ _ _ _ _ rfl
  | poll kind | result kind =>
    cases kind <;> cases h <;> exact .idle _ _ fun _ => ⟨rfl, rfl, rfl⟩
  | _ =>
    cases h
    exact .idle _ _ fun _ => ⟨rfl, rfl, rfl⟩

/-- An entry point on an object of its kind. -/
theorem entry_entered (hready : Ready inner object) (hnext : 0 < next)
    (h : entry inner next op object = some out) : Entered inner next op object out := by
  obtain _ | o := object
  · exact entry_none_entered h
  cases op with
  | pairSender | pairReceiver =>
    cases o with
    | pair sender receiver =>
      cases sender <;> cases receiver <;> cases h
      all_goals first
      | exact .idle _ _ fun _ => ⟨rfl, rfl, rfl⟩
      | exact .split _ _ _ rfl rfl rfl rfl fun _ => ⟨rfl, rfl, rfl⟩
    | _ => cases h
  | pairFree | receiverDrop | senderClone | senderClose =>
    cases o <;> cases h
    first
    | exact .clone fun _ => ⟨rfl, rfl, rfl⟩
    | exact .free _ _ _ rfl rfl fun _ => ⟨rfl, rfl, rfl⟩
    | exact .free _ false true rfl rfl fun _ => ⟨rfl, rfl, rfl⟩
    | exact .free _ true false rfl rfl fun _ => ⟨rfl, rfl, rfl⟩
  | sendI64Start _ value =>
    cases o with
    | sender =>
      simp only [entry, channelSendI64Start] at h
      split_ifs at h with hdescriptor <;> cases h
      · exact .idle _ _ fun _ => ⟨rfl, rfl, rfl⟩
      · obtain ⟨n, rfl⟩ := Nat.exists_eq_succ_of_ne_zero (Nat.ne_of_gt hnext)
        refine .start _ _ rfl rfl (by simpa [Typed] using hdescriptor) ?_ ?_ ?_ rfl rfl
        · simp [ReportsClosed]
        · simp [Tracks, Call.input]
        · simp [Call.input]
    | _ => cases h
  | sendStart handle value dropValue allocated => exact channelSendStart_entered hnext h
  | recvI64Start | recvStart =>
    cases o with
    | receiver =>
      simp only [entry, channelRecvI64Start, channelRecvStart] at h
      split_ifs at h with hdescriptor <;> cases h
      · exact .idle _ _ fun _ => ⟨rfl, rfl, rfl⟩
      · refine .start _ _ rfl rfl ?_ (by simp [ReportsClosed]) ⟨rfl, rfl⟩ nofun rfl rfl
        cases hkind : inner.descriptor <;> simp_all [Typed]
    | _ => cases h
  | poll kind handle =>
    have htyped := hready.typed o rfl
    cases kind <;> cases o <;> cases h
    · exact .poll .sendI64 handle _ _ _ _ _ rfl rfl rfl (sendI64Poll_polled _ htyped)
    · exact .poll .recvI64 handle _ _ _ _ _ rfl rfl rfl (recvI64Poll_polled hready _ htyped)
    · exact .poll .send handle _ _ _ _ _ rfl rfl rfl (sendPoll_polled _ htyped)
    · exact .poll .recv handle _ _ _ _ _ rfl rfl rfl (recvPoll_polled hready _ htyped)
  | result kind handle =>
    cases kind with
    | sendI64 | recvI64 =>
      cases o <;> cases h
      exact .consume _ _ _ _ rfl ⟨rfl, rfl, rfl⟩ nofun rfl fun _ => ⟨rfl, rfl, rfl⟩
    | send =>
      cases o <;> cases h
      exact .dropOwned rfl fun _ => ⟨rfl, rfl, rfl⟩
    | recv =>
      cases o with
      | recv state =>
        simp only [entry, channelRecvResult] at h
        split at h <;> cases h <;> rename_i houtcome <;>
          refine .consume _ _ _ _ rfl ⟨rfl, rfl, rfl⟩ ?_ ?_ fun _ => ⟨rfl, rfl, rfl⟩ <;>
          simp [Object.payload, houtcome]
      | _ => cases h
  | cancel kind handle | drop kind handle =>
    simp only [entry, channelFutureCancel, channelFutureDrop] at h
    split_ifs at h with haccepts
    cases h
    exact .dropOwned (senders_of_accepts haccepts) fun _ => ⟨rfl, rfl, rfl⟩
  | valueMoveInto handle hasOutput =>
    cases o with
    | value payload =>
      simp only [entry, channelValueMoveInto] at h
      split_ifs at h
      · cases h
        exact .dropOwned rfl fun _ => ⟨rfl, rfl, rfl⟩
      · split at h <;> cases h <;>
          exact .consume _ _ _ _ rfl ⟨rfl, rfl, rfl⟩ nofun rfl fun _ => ⟨rfl, rfl, rfl⟩
    | _ => cases h
  | valueDrop handle =>
    cases o <;> cases h
    exact .dropOwned rfl fun _ => ⟨rfl, rfl, rfl⟩

end Entered

section Queue

/-- A call that leaves the inner record and the queue alone. -/
theorem KeepsQueue.still (hready : Ready inner object) (hinner : out.inner = inner)
    (hsenders : weigh Channel.senders object =
      weigh Channel.senders out.after + weigh Channel.senders out.fresh)
    (hpush : pushesIn out = []) (hpop : popsIn out = []) (hclear : clearsIn out = []) :
    KeepsQueue inner object out := by
  subst hinner
  exact ⟨rfl, rfl, by omega, hready.closed, id, fun _ => hpush, by simp [hpush, hpop, hclear],
    hready.room, hready.kinds, fun h => ⟨h, hclear⟩, hready.dead⟩

theorem channelDropSender_keepsQueue (hready : Ready inner object)
    (hsender : weigh senders object = 1)
    (hafter : weigh senders after = 0) :
    KeepsQueue inner object ⟨channelDropSender inner, after, none, reply, []⟩ := by
  have hcount := hready.counted
  refine ⟨rfl, rfl, ?_, ?_, ?_, fun _ => rfl,
    by simp [pushesIn, popsIn, clearsIn, channelDropSender], hready.room, hready.kinds, fun h => ⟨h, rfl⟩, hready.dead⟩
  · simp only [channelDropSender, weigh_none]
    omega
  · simp only [channelDropSender, Bool.or_eq_true, beq_iff_eq, hready.closed]
    omega
  · intro hclosed
    simp [channelDropSender, hclosed]

theorem channelDropReceiver_keepsQueue (hready : Ready inner object)
    (hsender : weigh senders object = 0) :
    KeepsQueue inner object ⟨(channelDropReceiver inner).1, none, none, reply,
      (channelDropReceiver inner).2⟩ := by
  unfold channelDropReceiver
  split
  · have hpush : (inner.queue.map Effect.clear).filterMap Effect.pushed = [] := by
      simp [Effect.pushed]
    have hpop : (inner.queue.map Effect.clear).filterMap Effect.popped = [] := by
      simp [Effect.popped]
    have hclear : (inner.queue.map Effect.clear).filterMap Effect.cleared = inner.queue := by
      rw [filterMap_map]
      exact filterMap_some
    refine ⟨rfl, rfl, ?_, hready.closed, id, fun _ => hpush, ?_, Nat.zero_le _, by simp, by simp,
      fun _ => rfl⟩
    · simp [hsender]
    · simp [pushesIn, popsIn, clearsIn, hpush, hpop, hclear]
  · exact .still hready rfl (by simp [hsender]) rfl rfl rfl

/-- Two silent parts of one call, the first of which returns no handle. -/
theorem KeepsQueue.trans {middle : Outcome α} (h₁ : KeepsQueue inner object middle)
    (heffects : middle.effects = []) (hfresh : middle.fresh = none)
    (h₂ : KeepsQueue middle.inner middle.after out) : KeepsQueue inner object out where
  capacity := h₂.capacity.trans h₁.capacity
  descriptor := h₂.descriptor.trans h₁.descriptor
  senders := by
    have hs₁ := h₁.senders
    have hs₂ := h₂.senders
    rw [hfresh, weigh_none] at hs₁
    omega
  closed := h₂.closed
  stays h := h₂.stays (h₁.stays h)
  quiet h := by
    apply h₂.quiet
    rcases h with hclosed | hdead
    · exact .inl (h₁.stays hclosed)
    · cases halive : middle.inner.receiverAlive with
      | false => exact .inr rfl
      | true =>
        rw [(h₁.alive halive).1] at hdead
        cases hdead
  fifo := by
    have hf := h₁.fifo
    simp only [pushesIn, popsIn, clearsIn, heffects, filterMap_nil, map_nil,
      append_nil, nil_append] at hf
    rw [hf]
    exact h₂.fifo
  room := h₂.room
  kinds := by rw [← h₁.descriptor]; exact h₂.kinds
  alive h := ⟨(h₁.alive (h₂.alive h).1).1, (h₂.alive h).2⟩
  dead := h₂.dead

theorem KeepsQueue.ready {object' : Option (Object α)} (h : KeepsQueue inner object out)
    (hcounted : weigh Channel.senders object' ≤ out.inner.senderCount)
    (htyped : ∀ o, object' = some o → Typed inner.descriptor.isSome o) :
    Ready out.inner object' where
  counted := hcounted
  closed := h.closed
  room := h.room
  kinds := by rw [h.descriptor]; exact h.kinds
  dead := h.dead
  typed := by rw [h.descriptor]; exact htyped

theorem freed_keepsQueue (hready : Ready inner (some o)) {sender receiver : Bool}
    (hsender : senders o = sender.toNat) :
    KeepsQueue inner (some o) ⟨(freed inner sender receiver).1, none, none, reply,
      (freed inner sender receiver).2⟩ := by
  have hfirst : KeepsQueue inner (some o)
      ⟨if sender then channelDropSender inner else inner, none, none, reply, []⟩ := by
    cases sender with
    | false => exact .still hready rfl hsender rfl rfl rfl
    | true => exact channelDropSender_keepsQueue hready hsender rfl
  have hready' : Ready _ none := hfirst.ready (Nat.zero_le _) nofun
  apply hfirst.trans rfl rfl
  cases receiver with
  | false => exact .still hready' rfl rfl rfl rfl rfl
  | true => exact channelDropReceiver_keepsQueue hready' rfl

/-- A push by a future, when the channel is open and has room. -/
theorem KeepsQueue.push (hready : Ready inner object) {entry : ChannelQueueEntry α}
    (hopen : inner.closed = false) (halive : inner.receiverAlive = true)
    (hroom : inner.queue.length < inner.capacity)
    (hkind : entry.payload.isSome = inner.descriptor.isSome)
    (hsenders : weigh Channel.senders object = weigh Channel.senders after) :
    KeepsQueue inner object ⟨{ inner with queue := inner.queue ++ [entry] }, after, none, reply,
      [.push handle entry]⟩ where
  capacity := rfl
  descriptor := rfl
  senders := by simp [hsenders]
  closed := hready.closed
  stays h := by simp [hopen] at h
  quiet h := by simp [hopen, halive] at h
  fifo := rfl
  room := by simpa using Nat.succ_le_of_lt hroom
  kinds other hmem := by
    rcases mem_append.mp hmem with hmem | hmem
    · exact hready.kinds other hmem
    · rw [mem_singleton.mp hmem]
      exact hkind
  alive h := ⟨h, rfl⟩
  dead h := by simp [halive] at h

/-- A pop by a future. -/
theorem KeepsQueue.pop (hready : Ready inner object) {entry : ChannelQueueEntry α}
    {rest : List (ChannelQueueEntry α)} (hqueue : inner.queue = entry :: rest)
    (hsenders : weigh Channel.senders object = weigh Channel.senders after) :
    KeepsQueue inner object ⟨{ inner with queue := rest }, after, none, reply,
      [.pop handle entry]⟩ where
  capacity := rfl
  descriptor := rfl
  senders := by simp [hsenders]
  closed := hready.closed
  stays h := h
  quiet _ := rfl
  fifo := by rw [hqueue]; exact append_nil _
  room := by
    have := hready.room
    rw [hqueue] at this
    exact Nat.le_of_succ_le this
  kinds other hmem := hready.kinds other (by rw [hqueue]; exact mem_cons_of_mem _ hmem)
  alive h := ⟨h, rfl⟩
  dead h := by
    have := hready.dead h
    rw [hqueue] at this
    cases this

theorem entry_keepsQueue (hready : Ready inner object) (hnext : 0 < next)
    (h : entry inner next op object = some out) : KeepsQueue inner object out := by
  cases entry_entered hready hnext h with
  | idle => exact .still hready rfl rfl rfl rfl rfl
  | refuse _ _ value dropValue =>
    obtain ⟨hpush, hpop, hclear⟩ := silent_dropFailedChannelSendInput value dropValue
    exact .still hready rfl rfl hpush hpop hclear
  | split _ _ _ _ _ _ hsenders => exact .still hready rfl hsenders rfl rfl rfl
  | clone =>
    have hcounted : 1 ≤ inner.senderCount := hready.counted
    refine ⟨rfl, rfl, by simp [senders], ?_, id, fun _ => rfl,
      by simp [pushesIn, popsIn, clearsIn], hready.room, hready.kinds, fun h => ⟨h, rfl⟩,
      hready.dead⟩
    simp only [hready.closed]
    omega
  | start _ _ _ hsenders => exact .still hready rfl (by simp [hsenders]) rfl rfl rfl
  | free _ _ _ _ hsenders => exact freed_keepsQueue hready hsenders
  | poll _ _ _ _ _ _ _ _ haccepts haccepts' hpoll =>
    have hsenders := (senders_of_accepts haccepts).trans (senders_of_accepts haccepts').symm
    cases hpoll with
    | wait => exact .still hready rfl hsenders rfl rfl rfl
    | push _ hopen halive hroom hkind => exact .push hready hopen halive hroom hkind hsenders
    | pop _ _ hqueue => exact .pop hready hqueue hsenders
  | consume _ fresh _ _ hsenders hsilent hfresh =>
    refine .still hready rfl ?_ hsilent.1 hsilent.2.1 hsilent.2.2
    cases fresh with
    | none => exact hsenders
    | some o' =>
      obtain ⟨payload, rfl⟩ := hfresh o' rfl
      exact hsenders

end Queue

section Balance

variable [DecidableEq α] {p : α}

/-- The payload `p` moves from place to place: what was held or passed in is held
afterwards, disposed of, or left with the caller. -/
def Balanced (p : α) (inner : ChannelInner α) (op : Op α) (object : Option (Object α))
    (out : Outcome α) : Prop :=
  weigh (owns p) out.after + weigh (owns p) out.fresh + inQueue p out.inner.queue +
      disposedIn p out.effects + (Call.left ⟨op, out.reply, out.effects⟩).toList.count p =
    weigh (owns p) object + inQueue p inner.queue +
      (Call.passed ⟨op, out.reply, out.effects⟩).toList.count p

theorem disposedIn_clear (queue : List (ChannelQueueEntry α)) :
    disposedIn p (queue.map .clear) = inQueue p queue := by
  rw [disposedIn, filterMap_map]
  rfl

theorem inQueue_append (queue queue' : List (ChannelQueueEntry α)) :
    inQueue p (queue ++ queue') = inQueue p queue + inQueue p queue' := by
  rw [inQueue, filterMap_append, count_append]
  rfl

theorem inQueue_cons (entry : ChannelQueueEntry α) (queue : List (ChannelQueueEntry α)) :
    inQueue p (entry :: queue) = entry.payload.toList.count p + inQueue p queue := by
  rw [← singleton_append, inQueue_append]
  cases entry <;> rfl

/-- A call that is not a start and leaves the queue alone. -/
theorem Balanced.still (hqueue : out.inner.queue = inner.queue)
    (hpassed : Call.passed ⟨op, out.reply, out.effects⟩ = none)
    (hleft : Call.left ⟨op, out.reply, out.effects⟩ = none)
    (howns : weigh (owns p) out.after + weigh (owns p) out.fresh + disposedIn p out.effects =
      weigh (owns p) object) : Balanced p inner op object out := by
  simp only [Balanced, hqueue, hpassed, hleft]
  omega

theorem Balanced.push {entry : ChannelQueueEntry α}
    (howns : weigh (owns p) object = weigh (owns p) after + entry.payload.toList.count p) :
    Balanced p inner (.poll kind handle) object
      ⟨{ inner with queue := inner.queue ++ [entry] }, after, none, reply,
        [.push handle entry]⟩ := by
  have hlast : inQueue p [entry] = entry.payload.toList.count p := by cases entry <;> rfl
  have hsilent : disposedIn p [.push handle entry] = 0 := rfl
  simp only [Balanced, weigh_none, inQueue_append, hlast, hsilent, Call.left, Call.passed, howns,
    count_nil, Option.toList_none]
  omega

theorem Balanced.pop {entry : ChannelQueueEntry α} {rest : List (ChannelQueueEntry α)}
    (hqueue : inner.queue = entry :: rest)
    (howns : weigh (owns p) object + entry.payload.toList.count p = weigh (owns p) after) :
    Balanced p inner (.poll kind handle) object
      ⟨{ inner with queue := rest }, after, none, reply, [.pop handle entry]⟩ := by
  have hsilent : disposedIn p [.pop handle entry] = 0 := rfl
  simp only [Balanced, weigh_none, hqueue, inQueue_cons, hsilent, Call.left, Call.passed, ← howns,
    count_nil, Option.toList_none]
  omega

theorem channelDropReceiver_balance
    (hpassed : Call.passed ⟨op, reply, (channelDropReceiver inner).2⟩ = none)
    (hleft : Call.left ⟨op, reply, (channelDropReceiver inner).2⟩ = none)
    (howns : weigh (owns p) object = 0) :
    Balanced p inner op object ⟨(channelDropReceiver inner).1, none, none, reply,
      (channelDropReceiver inner).2⟩ := by
  simp only [Balanced, hpassed, hleft, howns]
  unfold channelDropReceiver
  split
  · simp only [disposedIn_clear]
    simp [inQueue]
  · simp [disposedIn]

theorem freed_balance {sender receiver : Bool}
    (hquiet : Quiet op reply) (howns : weigh (owns p) (some o) = 0) :
    Balanced p inner op (some o) ⟨(freed inner sender receiver).1, none, none, reply,
      (freed inner sender receiver).2⟩ := by
  have hqueue : (if sender then channelDropSender inner else inner).queue = inner.queue := by
    cases sender <;> rfl
  cases receiver with
  | false => exact .still hqueue (hquiet _).2.1 (hquiet _).2.2 howns.symm
  | true =>
    unfold Balanced
    rw [← hqueue]
    exact channelDropReceiver_balance (hquiet _).2.1 (hquiet _).2.2 howns

theorem refuse_balance (handle : Nat) (value : Option α) (dropValue allocated : Bool) :
    Balanced p inner (.sendStart handle value dropValue allocated) object
      ⟨inner, object, none, .handle 0, dropFailedChannelSendInput value dropValue⟩ := by
  cases value <;> cases dropValue <;>
    simp [Balanced, dropFailedChannelSendInput, Call.left, Call.passed, disposedIn, Effect.disposed]

theorem entry_balance (hready : Ready inner object) (hnext : 0 < next)
    (h : entry inner next op object = some out) : Balanced p inner op object out := by
  cases entry_entered hready hnext h with
  | idle _ _ hquiet | clone hquiet => exact .still rfl (hquiet _).2.1 (hquiet _).2.2 rfl
  | refuse _ handle value dropValue allocated hop =>
    subst hop
    exact refuse_balance handle value dropValue allocated
  | split o o' fresh ho ho' hfresh _ hquiet =>
    refine .still rfl (hquiet _).2.1 (hquiet _).2.2 ?_
    simp [owns, payload_endpoint ho, payload_endpoint ho', payload_endpoint hfresh, disposedIn]
  | start o fresh ho _ _ _ _ _ hpassed hleft =>
    simp only [Balanced, hpassed, hleft, weigh_some, owns, payload_endpoint ho]
    simp [disposedIn, Nat.add_comm]
  | free o sender receiver ho _ hquiet =>
    exact freed_balance hquiet (by simp [owns, payload_endpoint ho])
  | poll kind handle o o' after code effects hop _ _ hpoll =>
    subst hop
    cases hpoll with
    | wait hpayload => exact .still rfl rfl rfl (by simp [owns, hpayload, disposedIn])
    | push _ _ _ _ _ hpayload hpayload' => exact .push (by simp [owns, hpayload, hpayload'])
    | pop _ _ hqueue hpayload hpayload' => exact .pop hqueue (by simp [owns, hpayload, hpayload'])
  | consume o fresh _ effects _ _ _ hpayload hquiet =>
    refine .still rfl (hquiet _).2.1 (hquiet _).2.2 ?_
    have hcount := congrArg (List.count p) hpayload
    cases fresh with
    | none | some o' => simpa [owns, disposedIn] using hcount

end Balance

section Follow

/-- The objects after a call and their part of the logs. -/
structure Follows (inner : ChannelInner α) (next : Nat) (op : Op α) (object : Option (Object α))
    (out : Outcome α) : Prop where
  null : object = none → out.after = none ∧ out.fresh = none
  own : ∀ log ∈ pushesIn out ++ popsIn out, log.1 = op.handle
  ends : out.after = none → pushesIn out = [] ∧ popsIn out = []
  keeps : ∀ o o' given pushes pops, object = some o → out.after = some o' →
    Tracks given pushes pops o →
      Tracks given (pushes ++ (pushesIn out).map (·.2)) (pops ++ (popsIn out).map (·.2)) o'
  starts : ∀ o, out.fresh = some o →
    Tracks ((Call.input ⟨op, out.reply, out.effects⟩).toList.map (·.2)) [] [] o
  input : ∀ log, Call.input ⟨op, out.reply, out.effects⟩ = some log →
    log.1 = next ∧ out.fresh.isSome = true
  typed : ∀ o, out.after = some o ∨ out.fresh = some o → Typed inner.descriptor.isSome o
  closed : ∀ o, out.after = some o ∨ out.fresh = some o → ReportsClosed o →
    (∃ o', object = some o' ∧ ReportsClosed o') ∨ inner.closed = true ∧ inner.queue = []

/-- A call that leaves its object as it is and returns no handle. -/
theorem Follows.idle (hready : Ready inner object) (hafter : out.after = object)
    (hfresh : out.fresh = none) (hpush : pushesIn out = []) (hpop : popsIn out = [])
    (hinput : Call.input ⟨op, out.reply, out.effects⟩ = none) :
    Follows inner next op object out where
  null h := ⟨hafter.trans h, hfresh⟩
  own := by simp [hpush, hpop]
  ends _ := ⟨hpush, hpop⟩
  keeps o o' given pushes pops ho ho' htracks := by
    rw [hafter, ho, Option.some.injEq] at ho'
    subst ho'
    simpa [hpush, hpop] using htracks
  starts := by simp [hfresh]
  input := by simp [hinput]
  typed o ho := by
    rw [hafter, hfresh] at ho
    exact hready.typed o (by simpa using ho)
  closed o ho hclosed := by
    rw [hafter, hfresh] at ho
    exact .inl ⟨o, by simpa using ho, hclosed⟩

/-- A call on an endpoint. -/
theorem Follows.endpoint (hpoint : o.isEndpoint = true)
    (hafter : ∀ o', out.after = some o' → o'.isEndpoint = true)
    (hpush : pushesIn out = []) (hpop : popsIn out = [])
    (hfresh : ∀ o', out.fresh = some o' → Typed inner.descriptor.isSome o' ∧ ¬ ReportsClosed o' ∧
        Tracks ((Call.input ⟨op, out.reply, out.effects⟩).toList.map (·.2)) [] [] o')
    (hinput : ∀ log, Call.input ⟨op, out.reply, out.effects⟩ = some log →
      log.1 = next ∧ out.fresh.isSome = true) :
    Follows inner next op (some o) out where
  null := nofun
  own := by simp [hpush, hpop]
  ends _ := ⟨hpush, hpop⟩
  keeps o₁ o' given pushes pops ho ho' htracks := by
    cases ho
    simp only [hpush, hpop, map_nil, append_nil]
    exact (endpoint_spec (hafter o' ho')).1 .. |>.mpr ((endpoint_spec hpoint).1 .. |>.mp htracks)
  starts o' ho' := (hfresh o' ho').2.2
  input := hinput
  typed o' ho' := by
    rcases ho' with ho' | ho'
    · exact (endpoint_spec (hafter o' ho')).2.1 _
    · exact (hfresh o' ho').1
  closed o' ho' hclosed := by
    rcases ho' with ho' | ho'
    · exact absurd hclosed (endpoint_spec (hafter o' ho')).2.2
    · exact absurd hclosed (hfresh o' ho').2.1

/-- A call that consumes its object, and hands out at most a payload. -/
theorem Follows.consume (hafter : out.after = none)
    (hfresh : ∀ o', out.fresh = some o' → ∃ payload, o' = .value payload)
    (hpush : pushesIn out = []) (hpop : popsIn out = [])
    (hinput : Call.input ⟨op, out.reply, out.effects⟩ = none) :
    Follows inner next op (some o) out where
  null := nofun
  own := by simp [hpush, hpop]
  ends _ := ⟨hpush, hpop⟩
  keeps := by simp [hafter]
  starts o' ho' := by
    obtain ⟨payload, rfl⟩ := hfresh o' ho'
    exact ⟨rfl, rfl⟩
  input := by simp [hinput]
  typed o' ho' := by
    obtain ⟨payload, rfl⟩ := hfresh o' (by simpa [hafter] using ho')
    trivial
  closed o' ho' hclosed := by
    obtain ⟨payload, rfl⟩ := hfresh o' (by simpa [hafter] using ho')
    exact hclosed.elim

/-- A poll replaces a future by what it has become. -/
theorem Follows.poll {o' : Object α} {reply : Reply α}
    {after : ChannelInner α} {effects : List (Effect α)}
    (hown : ∀ log ∈ effects.filterMap Effect.pushed ++ effects.filterMap Effect.popped,
      log.1 = handle)
    (hkeeps : ∀ given pushes pops, Tracks given pushes pops o →
      Tracks given (pushes ++ (effects.filterMap Effect.pushed).map (·.2))
        (pops ++ (effects.filterMap Effect.popped).map (·.2)) o')
    (htyped : Typed inner.descriptor.isSome o')
    (hclosed : ReportsClosed o' → ReportsClosed o ∨ inner.closed = true ∧ inner.queue = []) :
    Follows inner next (.poll kind handle) (some o) ⟨after, some o', none, reply, effects⟩ where
  null := nofun
  own := hown
  ends := nofun
  keeps _ _ given pushes pops ho ho' htracks := by
    cases ho
    cases ho'
    exact hkeeps given pushes pops htracks
  starts := nofun
  input := nofun
  typed x hx := by
    obtain rfl : o' = x := by simpa using hx
    exact htyped
  closed x hx h := by
    obtain rfl : o' = x := by simpa using hx
    exact (hclosed h).imp_left fun ho => ⟨o, rfl, ho⟩

theorem channelDropReceiver_silent (inner : ChannelInner α) :
    (channelDropReceiver inner).2.filterMap Effect.pushed = [] ∧
      (channelDropReceiver inner).2.filterMap Effect.popped = [] := by
  unfold channelDropReceiver
  split
  · simp [Effect.pushed, Effect.popped]
  · exact ⟨rfl, rfl⟩

theorem entry_follows (hready : Ready inner object) (hnext : 0 < next)
    (h : entry inner next op object = some out) : Follows inner next op object out := by
  cases entry_entered hready hnext h with
  | idle _ _ hquiet => exact .idle hready rfl rfl rfl rfl (hquiet _).1
  | refuse _ handle value dropValue allocated hop =>
    subst hop
    obtain ⟨hpush, hpop, -⟩ := silent_dropFailedChannelSendInput value dropValue
    exact .idle hready rfl rfl hpush hpop (by cases value <;> rfl)
  | split o o' fresh ho ho' hfresh _ hquiet =>
    refine .endpoint ho (by rintro _ ⟨⟩; exact ho') rfl rfl ?_ (by simp [(hquiet _).1])
    rintro _ ⟨⟩
    obtain ⟨htracks, htyped, hclosed⟩ := endpoint_spec hfresh
    exact ⟨htyped _, hclosed, (htracks _ _ _).mpr ⟨rfl, rfl⟩⟩
  | clone hquiet =>
    refine .endpoint rfl (by rintro _ ⟨⟩; rfl) rfl rfl ?_ (by simp [(hquiet _).1])
    rintro _ ⟨⟩
    exact ⟨trivial, id, rfl, rfl⟩
  | start o fresh ho _ htyped hclosed htracks hinput =>
    refine .endpoint ho (by rintro _ ⟨⟩; exact ho) rfl rfl ?_ fun log hlog => ⟨hinput log hlog, rfl⟩
    rintro _ ⟨⟩
    exact ⟨htyped, hclosed, htracks⟩
  | free o sender receiver ho _ hquiet =>
    have hsilent : (freed inner sender receiver).2.filterMap Effect.pushed = [] ∧
        (freed inner sender receiver).2.filterMap Effect.popped = [] := by
      cases receiver with
      | false => exact ⟨rfl, rfl⟩
      | true => exact channelDropReceiver_silent _
    exact .endpoint ho nofun hsilent.1 hsilent.2 nofun (by simp [(hquiet _).1])
  | poll kind handle o o' after code effects hop haccepts haccepts' hpoll =>
    subst hop
    have htyped := (typed_iff_of_accepts haccepts').mpr
      ((typed_iff_of_accepts haccepts).mp (hready.typed o rfl))
    cases hpoll with
    | wait _ htracks hclosed => exact .poll nofun (by simpa using htracks) htyped hclosed
    | push entry _ _ _ _ _ _ htracks hclosed | pop entry rest _ _ _ htracks hclosed =>
      refine .poll (by simp [Effect.pushed, Effect.popped]) ?_ htyped fun h => absurd h hclosed
      simpa [filterMap_cons, Effect.pushed, Effect.popped] using htracks
  | consume o fresh _ _ _ hsilent hfresh _ hquiet =>
    exact .consume rfl hfresh hsilent.1 hsilent.2.1 (hquiet _).1

variable {given pushes pops : List (ChannelQueueEntry α)}

/-- The result of a send tells whether its value was pushed. -/
theorem sendResult_spec
    (hkind : kind = .sendI64 ∨ kind = .send)
    (h : entry inner next (.result kind handle) (some o) = some out)
    (htracks : Tracks given pushes pops o) :
    given.length = 1 ∧
      pushes = if Call.succeeded ⟨.result kind handle, out.reply, out.effects⟩ then given
        else [] := by
  rcases hkind with rfl | rfl
  · cases o with
    | sendI64 state =>
      cases h
      obtain ⟨rfl, -, rfl⟩ := htracks
      rcases houtcome : state.outcome with _ | _ | _ <;> simp [Call.succeeded]
    | _ => cases h
  · cases o with
    | send state =>
      cases h
      obtain ⟨-, payload, rfl, hvalue⟩ := htracks
      split_ifs at hvalue with hzero
      · simp [Call.succeeded, hzero, hvalue.2]
      · rw [hvalue.2]
        cases houtcome : state.outcome with
        | none => simp [Call.succeeded, statusInvalidHandle]
        | some code =>
          have hne : code ≠ 0 := by
            rintro rfl
            exact hzero houtcome
          simp [Call.succeeded, hne]
    | _ => cases h

/-- The result of a receive hands out what was popped for it. -/
theorem recvResult_spec
    (hkind : kind = .recvI64 ∨ kind = .recv)
    (h : entry inner next (.result kind handle) (some o) = some out)
    (htracks : Tracks given pushes pops o) :
    (Call.handed ⟨.result kind handle, out.reply, out.effects⟩).toList = pops := by
  rcases hkind with rfl | rfl
  · cases o with
    | recvI64 state =>
      cases h
      obtain ⟨-, rfl⟩ := htracks
      rcases state.outcome with _ | _ | _ <;> rfl
    | _ => cases h
  · cases o with
    | recv state =>
      obtain ⟨-, rfl⟩ := htracks
      simp only [entry, channelRecvResult] at h
      split at h <;> cases h <;> rename_i houtcome <;> rw [houtcome] <;> rfl
    | _ => cases h

/-- A future is gone after its result, its cancellation and its drop. -/
def Op.consumes : Op α → Bool
  | .result _ _ | .cancel _ _ | .drop _ _ => true
  | _ => false

theorem consumes_spec (hop : op.consumes = true) (h : entry inner next op object = some out) :
    out.after = none := by
  cases op with
  | result kind handle =>
    cases kind <;> simp only [entry, channelSendI64Result, channelRecvI64Result,
        channelSendResult, channelRecvResult] at h <;>
      split at h <;> try split at h
    all_goals cases h <;> rfl
  | cancel kind handle | drop kind handle =>
    simp only [entry, channelFutureCancel, channelFutureDrop] at h
    split at h
    · cases h
      rfl
    · split_ifs at h
      cases h
      rfl
  | _ => cases hop

end Follow

end Sengoo.Runtime.Channel
