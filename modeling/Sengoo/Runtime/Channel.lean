import Sengoo.History
import Sengoo.Runtime.Poll
import Sengoo.Table

/-!
The bounded channel. Callers hold handles: the pair a new channel comes as, its
senders and its receiver, the futures of sends and receives for integers and for
described payloads, and the payloads that receives handed out. An entry point
reads the object behind one handle, works on the inner record behind the mutex,
and may return one new handle.

A call on a handle that is neither null nor that of a live object of the expected
kind is outside the contract of the entry points and has no outcome here.
-/

namespace Sengoo.Runtime.Channel

variable {α : Type}

section Descriptors

def collectionsAbiVersion : Nat := 1

structure SengooTypeDescriptor where
  abiVersion : Nat
  size : Nat
  align : Nat
  moveValue : Bool
  dropValue : Bool
  deriving DecidableEq

/-- Whether the descriptor has a layout: a power of two for an alignment, and a
size that rounded up to it does not pass the largest `isize`. -/
def validateDescriptor (descriptor : SengooTypeDescriptor) : Bool :=
  if descriptor.abiVersion ≠ collectionsAbiVersion ∨ descriptor.size = 0 ∨
      descriptor.align = 0 ∨ 2 ^ descriptor.align.log2 ≠ descriptor.align ∨
      descriptor.moveValue = false ∨ descriptor.dropValue = false then false
  else descriptor.size ≤ 2 ^ 63 - descriptor.align

end Descriptors

inductive ChannelQueueEntry (α : Type) where
  | i64 (value : Int)
  | descriptor (value : α)
  deriving DecidableEq

structure ChannelInner (α : Type) where
  capacity : Nat
  descriptor : Option SengooTypeDescriptor
  queue : List (ChannelQueueEntry α)
  senderCount : Nat
  receiverAlive : Bool
  closed : Bool
  deriving DecidableEq

structure ChannelSendI64State where
  value : Int
  lifecycle : PollLifecycle
  outcome : Option (Except Int Unit)

structure ChannelRecvI64State where
  lifecycle : PollLifecycle
  outcome : Option (Except Int Int)

structure ChannelSendState (α : Type) where
  value : Option α
  lifecycle : PollLifecycle
  outcome : Option Int

structure ChannelRecvState (α : Type) where
  lifecycle : PollLifecycle
  outcome : Option (Except Int α)

/-- What a handle stands for. -/
inductive Object (α : Type) where
  | pair (sender receiver : Bool)
  | sender
  | receiver
  | sendI64 (state : ChannelSendI64State)
  | recvI64 (state : ChannelRecvI64State)
  | send (state : ChannelSendState α)
  | recv (state : ChannelRecvState α)
  | value (payload : Option α)

/-- What an entry point does beyond its reply: the queue operations with the
future they are made for, and the calls of a descriptor's functions. -/
inductive Effect (α : Type) where
  | push (handle : Nat) (entry : ChannelQueueEntry α)
  | pop (handle : Nat) (entry : ChannelQueueEntry α)
  | clear (entry : ChannelQueueEntry α)
  | moveOut (payload : α)
  | drop (payload : α)
  deriving DecidableEq

inductive Reply (α : Type) where
  | code (value : Int)
  | flag (value : Bool)
  | handle (value : Nat)
  | sendResult (isOk : Bool) (error : Int)
  | recvResult (isOk : Bool) (value error : Int)
  /-- A handle together with the payload it was made for. -/
  | value (handle : Nat) (payload : α)
  | none
  deriving DecidableEq

/-- The result of a call: what is left of the object it was made on, the object
behind the handle it returns, and the rest. -/
structure Outcome (α : Type) where
  inner : ChannelInner α
  after : Option (Object α)
  fresh : Option (Object α)
  reply : Reply α
  effects : List (Effect α)

section EntryPoints

variable (inner : ChannelInner α) (next handle : Nat)

section Endpoints

def channelDropSender : ChannelInner α :=
  let count := inner.senderCount - 1
  { inner with senderCount := count, closed := inner.closed || count == 0 }

/-- The record after the receiver is gone, and the entries cleared with it. -/
def channelDropReceiver : ChannelInner α × List (Effect α) :=
  if inner.receiverAlive then
    ({ inner with receiverAlive := false, queue := [] }, inner.queue.map .clear)
  else (inner, [])

def channelPairSender : Option (Object α) → Option (Outcome α)
  | none => some ⟨inner, none, none, .handle 0, []⟩
  | some (.pair true receiver) =>
    some ⟨inner, some (.pair false receiver), some .sender, .handle next, []⟩
  | some (.pair false receiver) =>
    some ⟨inner, some (.pair false receiver), none, .handle 0, []⟩
  | _ => none

def channelPairReceiver :
    Option (Object α) → Option (Outcome α)
  | none => some ⟨inner, none, none, .handle 0, []⟩
  | some (.pair sender true) =>
    some ⟨inner, some (.pair sender false), some .receiver, .handle next, []⟩
  | some (.pair sender false) =>
    some ⟨inner, some (.pair sender false), none, .handle 0, []⟩
  | _ => none

def channelPairFree : Option (Object α) → Option (Outcome α)
  | none => some ⟨inner, none, none, .none, []⟩
  | some (.pair sender receiver) =>
    let inner := if sender then channelDropSender inner else inner
    let (inner, effects) := if receiver then channelDropReceiver inner else (inner, [])
    some ⟨inner, none, none, .none, effects⟩
  | _ => none

def channelReceiverDrop : Option (Object α) → Option (Outcome α)
  | none => some ⟨inner, none, none, .none, []⟩
  | some .receiver =>
    let (inner, effects) := channelDropReceiver inner
    some ⟨inner, none, none, .none, effects⟩
  | _ => none

def channelSenderClone :
    Option (Object α) → Option (Outcome α)
  | none => some ⟨inner, none, none, .handle 0, []⟩
  | some .sender =>
    some ⟨{ inner with senderCount := inner.senderCount + 1 }, some .sender, some .sender,
      .handle next, []⟩
  | _ => none

def channelSenderClose : Option (Object α) → Option (Outcome α)
  | none => some ⟨inner, none, none, .none, []⟩
  | some .sender => some ⟨channelDropSender inner, none, none, .none, []⟩
  | _ => none

end Endpoints

section SendI64

def channelSendI64Start (value : Int) :
    Option (Object α) → Option (Outcome α)
  | none => some ⟨inner, none, none, .handle 0, []⟩
  | some .sender =>
    if inner.descriptor.isSome then some ⟨inner, some .sender, none, .handle 0, []⟩
    else some ⟨inner, some .sender, some (.sendI64 ⟨value, .idle, none⟩), .handle next, []⟩
  | _ => none

def sendI64Poll (state : ChannelSendI64State) :
    ChannelInner α × ChannelSendI64State × Int × List (Effect α) :=
  match state.lifecycle.enter with
  | .error code => (inner, state, code, [])
  | .ok _ =>
    if state.outcome.isSome then (inner, { state with lifecycle := .completed }, 1, [])
    else if inner.closed || !inner.receiverAlive then
      (inner, { state with
        lifecycle := .completed, outcome := some (.error statusInvalidHandle) }, 1, [])
    else if inner.queue.length < inner.capacity then
      ({ inner with queue := inner.queue ++ [.i64 state.value] },
        { state with lifecycle := .completed, outcome := some (.ok ()) }, 1,
        [.push handle (.i64 state.value)])
    else (inner, state, 0, [])

def channelSendI64Poll :
    Option (Object α) → Option (Outcome α)
  | none => some ⟨inner, none, none, .code 1, []⟩
  | some (.sendI64 state) =>
    let (inner, state, code, effects) := sendI64Poll inner handle state
    some ⟨inner, some (.sendI64 state), none, .code code, effects⟩
  | _ => none

def channelSendI64Result : Option (Object α) → Option (Outcome α)
  | none => some ⟨inner, none, none, .sendResult false statusInvalidHandle, []⟩
  | some (.sendI64 state) =>
    let reply := match state.outcome with
      | some (.ok _) => .sendResult true 0
      | some (.error code) => .sendResult false code
      | none => .sendResult false statusInvalidHandle
    some ⟨inner, none, none, reply, []⟩
  | _ => none

end SendI64

section Send

def dropFailedChannelSendInput (value : Option α) (dropValue : Bool) : List (Effect α) :=
  match value with
  | none => []
  | some payload => if dropValue then [.drop payload] else []

/-- The payload moves into a box of the runtime when its descriptor is valid, the
pointer is not null and memory is there. -/
def ownedDescriptorValueNew (descriptor : SengooTypeDescriptor) (value : Option α)
    (allocated : Bool) : Option α :=
  if validateDescriptor descriptor then if allocated then value else none else none

def channelSendStart (value : Option α)
    (dropValue allocated : Bool) : Option (Object α) → Option (Outcome α)
  | none => some ⟨inner, none, none, .handle 0, dropFailedChannelSendInput value dropValue⟩
  | some .sender =>
    match inner.descriptor with
    | none =>
      some ⟨inner, some .sender, none, .handle 0, dropFailedChannelSendInput value dropValue⟩
    | some descriptor =>
      match ownedDescriptorValueNew descriptor value allocated with
      | none =>
        some ⟨inner, some .sender, none, .handle 0, dropFailedChannelSendInput value dropValue⟩
      | some payload =>
        some ⟨inner, some .sender, some (.send ⟨some payload, .idle, none⟩), .handle next, []⟩
  | _ => none

def sendPoll (state : ChannelSendState α) :
    ChannelInner α × ChannelSendState α × Int × List (Effect α) :=
  match state.lifecycle.enter with
  | .error code => (inner, state, code, [])
  | .ok _ =>
    if state.outcome.isSome then (inner, { state with lifecycle := .completed }, 1, [])
    else if inner.closed || !inner.receiverAlive || inner.descriptor.isNone then
      (inner, { state with
        lifecycle := .completed, outcome := some (-statusInvalidHandle) }, 1, [])
    else if inner.queue.length < inner.capacity then
      match state.value with
      | none =>
        (inner, { state with
          lifecycle := .completed, outcome := some (-statusInvalidHandle) }, 1, [])
      | some payload =>
        ({ inner with queue := inner.queue ++ [.descriptor payload] },
          ⟨none, .completed, some 0⟩, 1, [.push handle (.descriptor payload)])
    else (inner, state, 0, [])

def channelSendPoll : Option (Object α) → Option (Outcome α)
  | none => some ⟨inner, none, none, .code 1, []⟩
  | some (.send state) =>
    let (inner, state, code, effects) := sendPoll inner handle state
    some ⟨inner, some (.send state), none, .code code, effects⟩
  | _ => none

/-- A box that is not moved out of is dropped with its payload. -/
def dropOwned (payload : Option α) : List (Effect α) := payload.toList.map .drop

def channelSendResult : Option (Object α) → Option (Outcome α)
  | none => some ⟨inner, none, none, .code (-statusInvalidHandle), []⟩
  | some (.send state) =>
    some ⟨inner, none, none, .code (state.outcome.getD (-statusInvalidHandle)),
      dropOwned state.value⟩
  | _ => none

end Send

section RecvI64

def channelRecvI64Start :
    Option (Object α) → Option (Outcome α)
  | none => some ⟨inner, none, none, .handle 0, []⟩
  | some .receiver =>
    if inner.descriptor.isSome then some ⟨inner, some .receiver, none, .handle 0, []⟩
    else some ⟨inner, some .receiver, some (.recvI64 ⟨.idle, none⟩), .handle next, []⟩
  | _ => none

def recvI64Poll (state : ChannelRecvI64State) :
    ChannelInner α × ChannelRecvI64State × Int × List (Effect α) :=
  match state.lifecycle.enter with
  | .error code => (inner, state, code, [])
  | .ok _ =>
    if state.outcome.isSome then (inner, { state with lifecycle := .completed }, 1, [])
    else match inner.queue with
      | .i64 value :: rest =>
        ({ inner with queue := rest }, ⟨.completed, some (.ok value)⟩, 1,
          [.pop handle (.i64 value)])
      | .descriptor _ :: _ =>
        (inner, ⟨.completed, some (.error statusInvalidHandle)⟩, 1, [])
      | [] =>
        if inner.closed then
          (inner, ⟨.completed, some (.error statusInvalidHandle)⟩, 1, [])
        else (inner, state, 0, [])

def channelRecvI64Poll :
    Option (Object α) → Option (Outcome α)
  | none => some ⟨inner, none, none, .code 1, []⟩
  | some (.recvI64 state) =>
    let (inner, state, code, effects) := recvI64Poll inner handle state
    some ⟨inner, some (.recvI64 state), none, .code code, effects⟩
  | _ => none

def channelRecvI64Result : Option (Object α) → Option (Outcome α)
  | none => some ⟨inner, none, none, .recvResult false 0 statusInvalidHandle, []⟩
  | some (.recvI64 state) =>
    let reply := match state.outcome with
      | some (.ok value) => .recvResult true value 0
      | some (.error code) => .recvResult false 0 code
      | none => .recvResult false 0 statusInvalidHandle
    some ⟨inner, none, none, reply, []⟩
  | _ => none

end RecvI64

section Recv

def channelRecvStart : Option (Object α) → Option (Outcome α)
  | none => some ⟨inner, none, none, .handle 0, []⟩
  | some .receiver =>
    if inner.descriptor.isNone then some ⟨inner, some .receiver, none, .handle 0, []⟩
    else some ⟨inner, some .receiver, some (.recv ⟨.idle, none⟩), .handle next, []⟩
  | _ => none

def recvPoll (state : ChannelRecvState α) :
    ChannelInner α × ChannelRecvState α × Int × List (Effect α) :=
  match state.lifecycle.enter with
  | .error code => (inner, state, code, [])
  | .ok _ =>
    if state.outcome.isSome then (inner, { state with lifecycle := .completed }, 1, [])
    else match inner.queue with
      | .descriptor payload :: rest =>
        ({ inner with queue := rest }, ⟨.completed, some (.ok payload)⟩, 1,
          [.pop handle (.descriptor payload)])
      | .i64 _ :: _ =>
        (inner, ⟨.completed, some (.error (-statusInvalidHandle))⟩, 1, [])
      | [] =>
        if inner.closed then
          (inner, ⟨.completed, some (.error (-statusInvalidHandle))⟩, 1, [])
        else (inner, state, 0, [])

def channelRecvPoll : Option (Object α) → Option (Outcome α)
  | none => some ⟨inner, none, none, .code 1, []⟩
  | some (.recv state) =>
    let (inner, state, code, effects) := recvPoll inner handle state
    some ⟨inner, some (.recv state), none, .code code, effects⟩
  | _ => none

def channelRecvResult : Option (Object α) → Option (Outcome α)
  | none => some ⟨inner, none, none, .code (-statusInvalidHandle), []⟩
  | some (.recv state) =>
    match state.outcome with
    | some (.ok payload) =>
      some ⟨inner, none, some (.value (some payload)), .value next payload, []⟩
    | some (.error code) => some ⟨inner, none, none, .code code, []⟩
    | none => some ⟨inner, none, none, .code (-statusInvalidHandle), []⟩
  | _ => none

def channelValueMoveInto (hasOutput : Bool) :
    Option (Object α) → Option (Outcome α)
  | none => some ⟨inner, none, none, .code (-statusInvalidHandle), []⟩
  | some (.value payload) =>
    if !hasOutput then
      some ⟨inner, none, none, .code (-statusInvalidArgument), dropOwned payload⟩
    else match payload with
      | none => some ⟨inner, none, none, .code (-statusInvalidHandle), []⟩
      | some payload => some ⟨inner, none, none, .code 0, [.moveOut payload]⟩
  | _ => none

def channelValueDrop : Option (Object α) → Option (Outcome α)
  | none => some ⟨inner, none, none, .none, []⟩
  | some (.value payload) => some ⟨inner, none, none, .none, dropOwned payload⟩
  | _ => none

end Recv

section Consume

inductive FutureKind where
  | sendI64
  | recvI64
  | send
  | recv
  deriving DecidableEq

def FutureKind.accepts : FutureKind → Object α → Bool
  | .sendI64, .sendI64 _ => true
  | .recvI64, .recvI64 _ => true
  | .send, .send _ => true
  | .recv, .recv _ => true
  | _, _ => false

/-- The payload an object owns. -/
def Object.payload : Object α → Option α
  | .send state => state.value
  | .recv state => match state.outcome with
      | some (.ok payload) => some payload
      | _ => none
  | .value payload => payload
  | _ => none

/-- The four `cancel` entry points: the future is dropped with what it owns. -/
def channelFutureCancel (kind : FutureKind) :
    Option (Object α) → Option (Outcome α)
  | none => some ⟨inner, none, none, .flag false, []⟩
  | some object =>
    if kind.accepts object then
      some ⟨inner, none, none, .flag true, dropOwned object.payload⟩
    else none

/-- The four `drop` entry points. -/
def channelFutureDrop (kind : FutureKind) :
    Option (Object α) → Option (Outcome α)
  | none => some ⟨inner, none, none, .none, []⟩
  | some object =>
    if kind.accepts object then some ⟨inner, none, none, .none, dropOwned object.payload⟩
    else none

end Consume

end EntryPoints

section Calls

inductive Op (α : Type) where
  | pairSender (handle : Nat)
  | pairReceiver (handle : Nat)
  | pairFree (handle : Nat)
  | receiverDrop (handle : Nat)
  | senderClone (handle : Nat)
  | senderClose (handle : Nat)
  | sendI64Start (handle : Nat) (value : Int)
  | sendStart (handle : Nat) (value : Option α) (dropValue allocated : Bool)
  | recvI64Start (handle : Nat)
  | recvStart (handle : Nat)
  | poll (kind : FutureKind) (handle : Nat)
  | result (kind : FutureKind) (handle : Nat)
  | cancel (kind : FutureKind) (handle : Nat)
  | drop (kind : FutureKind) (handle : Nat)
  | valueMoveInto (handle : Nat) (hasOutput : Bool)
  | valueDrop (handle : Nat)
  deriving DecidableEq

def Op.handle : Op α → Nat
  | .pairSender handle | .pairReceiver handle | .pairFree handle | .receiverDrop handle
  | .senderClone handle | .senderClose handle | .sendI64Start handle _
  | .sendStart handle _ _ _ | .recvI64Start handle | .recvStart handle | .poll _ handle
  | .result _ handle | .cancel _ handle | .drop _ handle | .valueMoveInto handle _
  | .valueDrop handle => handle

/-- The entry point of a call on the object behind its handle. -/
def entry (inner : ChannelInner α) (next : Nat) : Op α → Option (Object α) → Option (Outcome α)
  | .pairSender _ => channelPairSender inner next
  | .pairReceiver _ => channelPairReceiver inner next
  | .pairFree _ => channelPairFree inner
  | .receiverDrop _ => channelReceiverDrop inner
  | .senderClone _ => channelSenderClone inner next
  | .senderClose _ => channelSenderClose inner
  | .sendI64Start _ value => channelSendI64Start inner next value
  | .sendStart _ value dropValue allocated => channelSendStart inner next value dropValue allocated
  | .recvI64Start _ => channelRecvI64Start inner next
  | .recvStart _ => channelRecvStart inner next
  | .poll .sendI64 handle => channelSendI64Poll inner handle
  | .poll .recvI64 handle => channelRecvI64Poll inner handle
  | .poll .send handle => channelSendPoll inner handle
  | .poll .recv handle => channelRecvPoll inner handle
  | .result .sendI64 _ => channelSendI64Result inner
  | .result .recvI64 _ => channelRecvI64Result inner
  | .result .send _ => channelSendResult inner
  | .result .recv _ => channelRecvResult inner next
  | .cancel kind _ => channelFutureCancel inner kind
  | .drop kind _ => channelFutureDrop inner kind
  | .valueMoveInto _ hasOutput => channelValueMoveInto inner hasOutput
  | .valueDrop _ => channelValueDrop inner

structure State (α : Type) where
  inner : ChannelInner α
  objects : Table Nat (Object α)
  nextHandle : Nat

/-- The object behind a handle: none for null, no outcome for a stale handle. -/
def resolve (s : State α) (handle : Nat) : Option (Option (Object α)) :=
  if handle = 0 then some none else (s.objects.lookup handle).map some

def State.put (s : State α) (handle : Nat) (outcome : Outcome α) : State α :=
  let objects := match outcome.after with
    | some object => s.objects.insert handle object
    | none => s.objects.erase handle
  match outcome.fresh with
  | some object => ⟨outcome.inner, objects.insert s.nextHandle object, s.nextHandle + 1⟩
  | none => ⟨outcome.inner, objects, s.nextHandle⟩

structure Call (α : Type) where
  op : Op α
  reply : Reply α
  effects : List (Effect α)

def exec (s : State α) (op : Op α) : Option (State α × Call α) := do
  let object ← resolve s op.handle
  let outcome ← entry s.inner s.nextHandle op object
  some (s.put op.handle outcome, ⟨op, outcome.reply, outcome.effects⟩)

def Step (s : State α) (call : Call α) (t : State α) : Prop := exec s call.op = some (t, call)

/-- Calls one after the other, with their replies. -/
def execAll (s : State α) : List (Op α) → Option (State α × List (Call α))
  | [] => some (s, [])
  | op :: ops => do
      let (t, call) ← exec s op
      let (u, calls) ← execAll t ops
      some (u, call :: calls)

theorem exec_op {s t : State α} {op : Op α} {call : Call α} (h : exec s op = some (t, call)) :
    call.op = op := by
  simp only [exec, Option.bind_eq_bind, Option.bind_eq_some_iff, Option.some.injEq,
    Prod.mk.injEq] at h
  obtain ⟨_, _, _, _, _, rfl⟩ := h
  rfl

theorem execAll_run {s t : State α} {ops : List (Op α)} {calls : List (Call α)}
    (h : execAll s ops = some (t, calls)) : History.Run Step s calls t := by
  induction ops generalizing s calls with
  | nil =>
    cases h
    exact .nil _
  | cons op ops ih =>
    simp only [execAll, Option.bind_eq_bind, Option.bind_eq_some_iff, Prod.exists,
      Option.some.injEq, Prod.mk.injEq] at h
    obtain ⟨middle, call, hexec, u, rest, hrest, rfl, rfl⟩ := h
    have hstep : Step s call middle := by rwa [Step, exec_op hexec]
    exact (History.Run.snoc (.nil _) hstep).append (ih hrest)

/-- A new channel, behind the handle of its pair. -/
def newChannel (capacity : Nat) (descriptor : Option SengooTypeDescriptor) : State α where
  inner := ⟨capacity, descriptor, [], 1, true, false⟩
  objects := AList.singleton 1 (.pair true true)
  nextHandle := 2

end Calls

end Sengoo.Runtime.Channel
