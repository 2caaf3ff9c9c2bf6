import Sengoo.History
import Sengoo.Table

/-!
The byte-stream workers. A stream is shared by its worker, the deadline monitor
and the callers; each of them moves in steps that are one atomic operation or one
critical section, and a lock that is kept over several steps shows in the place
where its holder stands. The network answers as it likes: any chunks, end of
stream, errors, timeouts.

The socket clone that is shut down to interrupt a worker is left out, since a
worker's network operation may end in an error at any time. Streams are kept after
their handle is gone, because calls that looked the handle up before still hold
them.
-/

namespace Sengoo.Net.ByteStream

def maxWorkers : Nat := 8
def maxExplicitRequest : Int := 16 * 1024 * 1024
def maxRequestCopies : Nat := 64 * 1024 * 1024
def minQueue : Int := 4096
def maxQueue : Int := 1024 * 1024
def bufferSize : Nat := 4096

structure Incoming where
  bytes : List UInt8
  terminal : Option Int
  deriving DecidableEq

/-- Where the worker of a stream stands. It keeps the lock of `incoming` while it
is `pushing` and while it is `storing`. -/
inductive Worker where
  | connecting
  | connected
  | handshaking
  | settling
  | sending (offset : Nat)
  | receiving
  | reserving
  | reserved (available : Nat)
  | reading (available : Nat)
  | got (chunk : List UInt8)
  | pushing (chunk : List UInt8)
  | finishing (status : Int)
  | storing (status : Int)
  | clearing
  | releasing
  | leaving
  | gone
  deriving DecidableEq

/-- Where the deadline monitor stands with a stream. It keeps the lock of
`connect_deadline` from its compare-exchange on until it is away again. -/
inductive Monitor where
  | away
  | fired
  | marked
  | published
  deriving DecidableEq

/-- How many `cancel` calls stand before each of their steps. -/
structure Cancels where
  entered : Nat
  stopped : Nat
  marked : Nat
  cleared : Nat
  deriving DecidableEq

structure Stream where
  capacity : Nat
  request : Nat
  deadline : Nat
  incoming : Incoming
  cancelled : Bool
  requestStarted : Bool
  stopStatus : Int
  connectDeadline : Option Nat
  copyHeld : Bool
  worker : Worker
  monitor : Monitor
  reads : Nat
  cancels : Cancels
  /-- What the worker has read from the peer so far. -/
  received : List UInt8
  deriving DecidableEq

def Stream.incomingFree (s : Stream) : Bool :=
  match s.worker with
  | .pushing _ | .storing _ => false
  | _ => true

def Stream.deadlineFree (s : Stream) : Bool := s.monitor == .away

section Reads

inductive ReadOutcome where
  | data (bytes : List UInt8)
  | terminal (status : Int)
  | pending
  deriving DecidableEq

def drain (incoming : Incoming) (capacity : Nat) : Incoming × ReadOutcome :=
  let count := min incoming.bytes.length capacity
  if 0 < count then
    ({ incoming with bytes := incoming.bytes.drop count }, .data (incoming.bytes.take count))
  else match incoming.terminal with
    | some status => (incoming, .terminal status)
    | none => (incoming, .pending)

end Reads

section Worker

/-- The errors with which the worker's closure may return where it stands. -/
def MayFail (now : Nat) (s : Stream) (status : Int) : Prop :=
  match s.worker with
  | .connecting => status = 9 ∨ status = 1 ∨ status = 11 ∧ s.deadline ≤ now ∨
      status = 19 ∧ s.cancelled = true
  | .connected => status = 9 ∨ status = 1 ∨ status = 19 ∧ s.cancelled = true
  | .handshaking => True
  | .settling => status = 11 ∧ s.deadline ≤ now ∧ s.deadlineFree = true
  | .sending _ => status = 9 ∨ status = 11 ∨ status = 1 ∨ status = 19 ∧ s.cancelled = true
  | .receiving | .reserved _ | .got _ => status = 19 ∧ s.cancelled = true
  | .reading _ => status = 9 ∨ status = 11 ∨ status = 1
  | _ => False

/-- The steps of the worker that touch its stream only. -/
inductive WorkerStep (now : Nat) (s : Stream) : Stream → Prop
  | connect : s.worker = .connecting → WorkerStep now s { s with worker := .connected }
  | enter : s.worker = .connected → s.cancelled = false →
      WorkerStep now s { s with worker := .handshaking }
  | handshake : s.worker = .handshaking → WorkerStep now s { s with worker := .settling }
  | settle : s.worker = .settling → s.deadlineFree = true → now < s.deadline →
      WorkerStep now s { s with connectDeadline := none, worker := .sending 0 }
  | write (offset count : Nat) : s.worker = .sending offset → s.cancelled = false →
      0 < count → offset + count ≤ s.request →
      WorkerStep now s { s with requestStarted := true, worker := .sending (offset + count) }
  | flush : s.worker = .sending s.request → WorkerStep now s { s with worker := .receiving }
  | check : s.worker = .receiving → s.cancelled = false →
      WorkerStep now s { s with worker := .reserving }
  | reserve : s.worker = .reserving → s.incoming.bytes.length ≠ s.capacity ∨ s.cancelled = true →
      WorkerStep now s { s with
        worker := .reserved (min (s.capacity - s.incoming.bytes.length) bufferSize) }
  | proceed (available : Nat) : s.worker = .reserved available → s.cancelled = false →
      WorkerStep now s { s with worker := .reading available }
  | receive (available : Nat) (chunk : List UInt8) : s.worker = .reading available →
      chunk ≠ [] → chunk.length ≤ available →
      WorkerStep now s { s with received := s.received ++ chunk, worker := .got chunk }
  | again (available : Nat) : s.worker = .reading available →
      WorkerStep now s { s with worker := .receiving }
  | endOfStream (available : Nat) : s.worker = .reading available →
      WorkerStep now s { s with worker := .finishing 0 }
  | lock (chunk : List UInt8) : s.worker = .got chunk → s.cancelled = false →
      WorkerStep now s { s with worker := .pushing chunk }
  | extend (chunk : List UInt8) : s.worker = .pushing chunk →
      WorkerStep now s { s with
        incoming := { s.incoming with bytes := s.incoming.bytes ++ chunk }
        worker := .receiving }
  | fail (status : Int) (started : Bool) : MayFail now s status →
      WorkerStep now s { s with
        requestStarted := s.requestStarted || started, worker := .finishing status }
  | load (status : Int) : s.worker = .finishing status →
      WorkerStep now s { s with
        worker := .storing (if s.stopStatus ≠ 0 then s.stopStatus else status) }
  | store (status : Int) : s.worker = .storing status →
      WorkerStep now s { s with
        incoming := { s.incoming with terminal := some status }, worker := .clearing }
  | clear : s.worker = .clearing → s.deadlineFree = true →
      WorkerStep now s { s with connectDeadline := none, worker := .releasing }

end Worker

/-- What can be seen of a step: the outcome of a read, the beginning and the
return of a `cancel` or `close`, and the monitor's decision. -/
inductive Event where
  | read (outcome : ReadOutcome)
  | stop
  | stopped
  | fire
  | silent
  deriving DecidableEq

/-- The steps on one stream that leave the counters of the process alone. -/
inductive StreamStep (now : Nat) (s : Stream) : Event → Stream → Prop
  | worker (t : Stream) : WorkerStep now s t → StreamStep now s .silent t
  | fire (deadline : Nat) : s.monitor = .away → s.connectDeadline = some deadline →
      deadline ≤ now → s.stopStatus = 0 →
      StreamStep now s .fire { s with stopStatus := 11, monitor := .fired }
  | fireMark : s.monitor = .fired →
      StreamStep now s .silent { s with cancelled := true, monitor := .marked }
  | firePublish : s.monitor = .marked → s.incomingFree = true →
      StreamStep now s .silent { s with
        incoming := { s.incoming with terminal := some 11 }, monitor := .published }
  | fireLeave : s.monitor = .published → StreamStep now s .silent { s with monitor := .away }
  | cancelStop : 0 < s.cancels.entered →
      StreamStep now s .silent { s with
        stopStatus := 19
        cancels := { s.cancels with
          entered := s.cancels.entered - 1, stopped := s.cancels.stopped + 1 } }
  | cancelMark : 0 < s.cancels.stopped →
      StreamStep now s .silent { s with
        cancelled := true
        cancels := { s.cancels with
          stopped := s.cancels.stopped - 1, marked := s.cancels.marked + 1 } }
  | cancelClear : 0 < s.cancels.marked → s.incomingFree = true →
      StreamStep now s .silent { s with
        incoming := ⟨[], some 19⟩
        cancels := { s.cancels with
          marked := s.cancels.marked - 1, cleared := s.cancels.cleared + 1 } }
  | cancelReturn : 0 < s.cancels.cleared →
      StreamStep now s .stopped { s with
        cancels := { s.cancels with cleared := s.cancels.cleared - 1 } }
  | read (capacity : Nat) : 0 < s.reads → 0 < capacity → s.incomingFree = true →
      StreamStep now s (.read (drain s.incoming capacity).2) { s with
        incoming := (drain s.incoming capacity).1, reads := s.reads - 1 }

section Process

structure State where
  streams : Table Nat Stream
  nextStream : Nat
  /-- `STREAMS`, whose lock a `start` keeps while it spawns. -/
  table : Table Int Nat
  starting : Option (Int × Nat)
  next : Int
  workers : Nat
  requestCopyBytes : Nat
  now : Nat

structure StartArguments where
  host : Option (List UInt8)
  port : Int
  secure : Int
  request : Option (List UInt8)
  requestLen : Int
  connectMs : Int
  idleMs : Int
  capacity : Int
  requestLimit : Int
  hostIsUtf8 : Bool

def StartArguments.valid (args : StartArguments) : Bool :=
  match args.host with
  | none => false
  | some host =>
    (1 ≤ host.length && host.length ≤ 253) && (1 ≤ args.port && args.port ≤ 65535) &&
    (0 ≤ args.secure && args.secure ≤ 1) &&
    (1 ≤ args.requestLimit && args.requestLimit ≤ maxExplicitRequest) &&
    (0 ≤ args.requestLen && args.requestLen ≤ args.requestLimit) &&
    !(args.request.isNone && args.requestLen != 0) &&
    (1 ≤ args.connectMs && args.connectMs ≤ 60000) &&
    (1 ≤ args.idleMs && args.idleMs ≤ 600000) &&
    (minQueue ≤ args.capacity && args.capacity ≤ maxQueue) &&
    args.hostIsUtf8 && !host.any fun c => c ≤ 32 || c == 127

/-- `fetch_add` on the counter of handles wraps around. -/
def wrapNext (next : Int) : Int := if next = 2 ^ 63 - 1 then -2 ^ 63 else next + 1

def newStream (now : Nat) (args : StartArguments) : Stream where
  capacity := args.capacity.toNat
  request := args.requestLen.toNat
  deadline := now + args.connectMs.toNat
  incoming := ⟨[], none⟩
  cancelled := false
  requestStarted := false
  stopStatus := 0
  connectDeadline := some (now + args.connectMs.toNat)
  copyHeld := true
  worker := .connecting
  monitor := .away
  reads := 0
  cancels := ⟨0, 0, 0, 0⟩
  received := []

/-- `start` up to the spawn: the status it fails with, or the new stream with its
handle. `monitored` says whether the deadline monitor runs, and `allocated` whether
memory for the copy was there. -/
def start (s : State) (args : StartArguments) (monitored allocated : Bool) :
    State × Except Int Unit :=
  if args.valid = false then (s, .error (-2))
  else if monitored = false then (s, .error (-9))
  else if maxWorkers ≤ s.table.keys.length ∨ maxWorkers ≤ s.workers then (s, .error (-13))
  else if maxRequestCopies < s.requestCopyBytes + args.requestLen.toNat ∨ allocated = false then
    (s, .error (-13))
  else if s.next ≤ 0 then ({ s with next := wrapNext s.next }, .error (-13))
  else
    ({ s with
      streams := s.streams.insert s.nextStream (newStream s.now args)
      nextStream := s.nextStream + 1
      table := s.table.insert s.next s.nextStream
      starting := some (s.next, s.nextStream)
      next := wrapNext s.next
      workers := s.workers + 1
      requestCopyBytes := s.requestCopyBytes + args.requestLen.toNat }, .ok ())

def State.setStream (s : State) (id : Nat) (stream : Stream) : State :=
  { s with streams := s.streams.insert id stream }

inductive Label where
  | stream (id : Nat) (event : Event)
  | process
  deriving DecidableEq

/-- The steps of the whole process. -/
inductive Step (s : State) : Label → State → Prop
  | tick (elapsed : Nat) : Step s .process { s with now := s.now + elapsed }
  | start (args : StartArguments) (monitored allocated : Bool) : s.starting = none →
      Step s .process (start s args monitored allocated).1
  | spawned (handle : Int) (id : Nat) : s.starting = some (handle, id) →
      Step s .process { s with starting := none }
  /-- The closure that was to run the worker is dropped with the copied request. -/
  | spawnFailed (handle : Int) (id : Nat) (stream : Stream) : s.starting = some (handle, id) →
      s.streams.lookup id = some stream →
      Step s .process { s.setStream id { stream with worker := .gone, copyHeld := false } with
        table := s.table.erase handle
        starting := none
        workers := s.workers - 1
        requestCopyBytes := s.requestCopyBytes - stream.request }
  | stream (id : Nat) (before after : Stream) (event : Event) :
      s.streams.lookup id = some before → (∀ handle, s.starting ≠ some (handle, id)) →
      StreamStep s.now before event after → Step s (.stream id event) (s.setStream id after)
  /-- The worker drops its copy of the request. -/
  | release (id : Nat) (stream : Stream) : s.streams.lookup id = some stream →
      stream.worker = .releasing →
      Step s .process { s.setStream id { stream with worker := .leaving, copyHeld := false } with
        requestCopyBytes := s.requestCopyBytes - stream.request }
  /-- The worker drops its slot. -/
  | leave (id : Nat) (stream : Stream) : s.streams.lookup id = some stream →
      stream.worker = .leaving →
      Step s .process { s.setStream id { stream with worker := .gone } with
        workers := s.workers - 1 }
  /-- A read looks its handle up. -/
  | readEnter (handle : Int) (id : Nat) (stream : Stream) : s.starting = none →
      s.table.lookup handle = some id → s.streams.lookup id = some stream →
      Step s .process (s.setStream id { stream with reads := stream.reads + 1 })
  | cancelEnter (handle : Int) (id : Nat) (stream : Stream) : s.starting = none →
      s.table.lookup handle = some id → s.streams.lookup id = some stream →
      Step s (.stream id .stop) (s.setStream id { stream with
        cancels := { stream.cancels with entered := stream.cancels.entered + 1 } })
  | close (handle : Int) (id : Nat) (stream : Stream) : s.starting = none →
      s.table.lookup handle = some id → s.streams.lookup id = some stream →
      Step s (.stream id .stop) { s.setStream id { stream with
          cancels := { stream.cancels with entered := stream.cancels.entered + 1 } } with
        table := s.table.erase handle }

def initial (now : Nat) : State := ⟨∅, 0, ∅, none, 1, 0, 0, now⟩

end Process

end Sengoo.Net.ByteStream
