import Sengoo.Net.ByteStream

/-!
The byte-stream workers keep their accounts and their queues within bounds, return
the bytes of the peer in order, and are silent after a cancellation. The terminal
status of a stream is stable as long as the deadline monitor does not decide on a
stream whose worker is already storing its own status.
-/

namespace Sengoo.Net.ByteStream

open History List

section Local

variable {status : Int}

/-- The bytes that the reads have returned. -/
def returned (events : List Event) : List UInt8 :=
  events.flatMap fun
    | .read (.data bytes) => bytes
    | _ => []

theorem returned_concat_read (events : List Event) (bytes : List UInt8) :
    returned (events ++ [.read (.data bytes)]) = returned events ++ bytes := by
  simp [returned]

/-- Between the deadline of the connection and the end of the worker's closure. -/
def Worker.transfers : Worker → Bool
  | .sending _ | .receiving | .reserving | .reserved _ | .reading _ | .got _ | .pushing _ => true
  | _ => false

/-- The worker has stored its status and taken the deadline away. -/
def Worker.past : Worker → Bool
  | .releasing | .leaving | .gone => true
  | _ => false

/-- The worker has stored its status. -/
def Stream.Stored (s : Stream) : Prop :=
  s.worker = .clearing ∨ s.worker.past = true ∧ s.connectDeadline = none

/-- The bytes the worker holds, received and not yet in the queue. -/
def Worker.inFlight : Worker → List UInt8
  | .got chunk | .pushing chunk => chunk
  | _ => []

/-- The room in the queue that the worker counts on. -/
def Worker.claims : Worker → Nat
  | .reserved available | .reading available => available
  | .got chunk | .pushing chunk => chunk.length
  | _ => 0

def Worker.pushes : Worker → Bool
  | .pushing _ => true
  | _ => false

/-- A read returns bytes, or leaves the empty queue as it is. -/
theorem drain_spec (incoming : Incoming) {capacity : Nat} (hpos : 0 < capacity) :
    (∃ front rest, front ≠ [] ∧ incoming.bytes = front ++ rest ∧
        drain incoming capacity = ({ incoming with bytes := rest }, .data front)) ∨
      incoming.bytes = [] ∧ ∃ outcome, drain incoming capacity = (incoming, outcome) ∧
        (∀ bytes, outcome ≠ .data bytes) ∧
        ∀ status, outcome = .terminal status → incoming.terminal = some status := by
  unfold drain
  by_cases hcount : 0 < min incoming.bytes.length capacity
  · left
    refine ⟨incoming.bytes.take (min incoming.bytes.length capacity),
      incoming.bytes.drop (min incoming.bytes.length capacity), ?_, ?_, ?_⟩
    · intro hempty
      have hlength := congrArg List.length hempty
      rw [length_take, length_nil] at hlength
      omega
    · exact (take_append_drop _ _).symm
    · simp only [hcount, if_true]
  · right
    have hempty : incoming.bytes = [] := by
      rw [← length_eq_zero_iff]
      omega
    refine ⟨hempty, ?_⟩
    simp only [hcount]
    cases hterminal : incoming.terminal with
    | none => exact ⟨_, rfl, nofun, nofun⟩
    | some status => exact ⟨_, rfl, nofun, by rintro _ ⟨⟩; rfl⟩

variable {now : Nat} {s t : Stream} {event : Event} {events : List Event}

/-- The queue has room for all that the worker may put into it. -/
def Stream.Room (s : Stream) : Prop := s.incoming.bytes.length + s.worker.claims ≤ s.capacity

theorem room_step (h : StreamStep now s event t) (hroom : s.Room) : t.Room := by
  unfold Stream.Room at hroom ⊢
  cases h with
  | worker t hworker => cases hworker <;> simp_all [Worker.claims] <;> omega
  | read capacity _ hpos =>
    rcases drain_spec s.incoming hpos with ⟨front, rest, -, hbytes, hdrain⟩ | ⟨-, _, hdrain, -⟩
    · simp only [hdrain]
      rw [hbytes, length_append] at hroom
      omega
    · simpa only [hdrain] using hroom
  | _ => simp_all <;> omega

/-- The calls of `cancel` that are under way, and what those that cleared the
queue leave behind. -/
structure Stops (events : List Event) (s : Stream) : Prop where
  marked : 0 < s.cancels.marked ∨ 0 < s.cancels.cleared → s.cancelled = true
  cleared : 0 < s.cancels.cleared ∨ .stopped ∈ events →
    s.cancelled = true ∧ s.incoming.bytes = [] ∧ s.worker.pushes = false
  none : .stop ∉ events → s.cancels = ⟨0, 0, 0, 0⟩ ∧ .stopped ∉ events

theorem pushes_of_free (h : s.incomingFree = true) : s.worker.pushes = false := by
  cases hworker : s.worker <;> simp_all [Stream.incomingFree, Worker.pushes]

/-- Without a `cancel` or a `close` no such call is under way. -/
theorem Stops.begun (h : Stops events s)
    (hcalls : 0 < s.cancels.entered ∨ 0 < s.cancels.stopped ∨ 0 < s.cancels.marked ∨
      0 < s.cancels.cleared) : .stop ∈ events := by
  by_contra hnot
  simp [(h.none hnot).1] at hcalls

theorem stops_step (h : StreamStep now s event t) (hstops : Stops events s) :
    Stops (events ++ [event]) t := by
  have hbegun := hstops.begun
  obtain ⟨hmarked, hcleared, hnone⟩ := hstops
  cases h with
  | worker t hworker => cases hworker <;> refine ⟨?_, ?_, ?_⟩ <;> simp_all [Worker.pushes]
  | read capacity _ hpos =>
    rcases drain_spec s.incoming hpos with
      ⟨front, rest, hfront, hbytes, hdrain⟩ | ⟨-, _, hdrain, -⟩ <;>
    refine ⟨?_, ?_, ?_⟩ <;> simp_all
  | cancelClear hcalls hfree =>
    have hpushes := pushes_of_free hfree
    refine ⟨?_, ?_, ?_⟩ <;> simp_all
  | _ => refine ⟨?_, ?_, ?_⟩ <;> simp_all

/-- The bytes of the peer are those returned, those in the queue and those the
worker holds, until a cancellation takes some out. -/
def Flow (events : List Event) (s : Stream) : Prop :=
  s.received = returned events ++ s.incoming.bytes ++ s.worker.inFlight ∨
    s.cancelled = true ∧ s.worker.pushes = false ∧
      (returned events ++ s.incoming.bytes).IsPrefix s.received

theorem returned_concat (hevent : ∀ bytes, event ≠ .read (.data bytes)) :
    returned (events ++ [event]) = returned events := by
  rcases event with (_ | _ | _) | _ | _ | _ | _
  · exact absurd rfl (hevent _)
  all_goals simp [returned]

/-- A worker that fails holds no bytes, unless it was cancelled. -/
theorem mayFail_inFlight (h : MayFail now s status) :
    s.worker.inFlight = [] ∨ s.cancelled = true := by
  cases hworker : s.worker <;> simp_all [MayFail, Worker.inFlight]

theorem flow_worker (h : WorkerStep now s t) (hflow : Flow events s) : Flow events t := by
  rcases hflow with hintact | ⟨hcancelled, hpushes, hpre⟩
  · cases h with
    | fail status started hfail =>
      rcases mayFail_inFlight hfail with hnone | hcancelled
      · exact .inl (by rw [hintact, hnone]; rfl)
      · refine .inr ⟨hcancelled, rfl, ?_⟩
        rw [hintact]
        exact prefix_append _ _
    | _ => simp_all [Flow, Worker.inFlight]
  · right
    cases h with
    | receive available chunk => exact ⟨hcancelled, rfl, hpre.trans (prefix_append _ _)⟩
    | _ => simp_all [Worker.pushes]

theorem flow_step (h : StreamStep now s event t) (hstops : Stops events s)
    (hflow : Flow events s) : Flow (events ++ [event]) t := by
  cases h with
  | worker t hworker =>
    rw [Flow, returned_concat (by simp)]
    exact flow_worker hworker hflow
  | read capacity _ hpos hfree =>
    rcases drain_spec s.incoming hpos with
      ⟨front, rest, -, hbytes, hdrain⟩ | ⟨-, _, hdrain, hdata, -⟩
    · simp only [hdrain]
      unfold Flow at hflow ⊢
      rw [returned_concat_read]
      simpa only [hbytes, append_assoc] using hflow
    · simp only [hdrain]
      rwa [Flow, returned_concat (by simpa using hdata)]
  | cancelClear hcalls hfree =>
    refine .inr ⟨hstops.marked (.inl hcalls), pushes_of_free hfree, ?_⟩
    rw [returned_concat (by simp), append_nil]
    rcases hflow with hintact | ⟨-, -, hpre⟩
    · rw [hintact, append_assoc]
      exact prefix_append _ _
    · exact (prefix_append _ _).trans hpre
  | fireMark | cancelMark =>
    rw [Flow, returned_concat (by simp)]
    exact hflow.imp_right fun h => ⟨rfl, h.2⟩
  | _ =>
    rw [Flow, returned_concat (by simp)]
    exact hflow

theorem Flow.returned_begins (h : Flow events s) : (returned events).IsPrefix s.received := by
  rcases h with hintact | ⟨-, -, hpre⟩
  · rw [hintact, append_assoc]
    exact prefix_append _ _
  · exact (prefix_append _ _).trans hpre

/-- The monitor decides on a stream before its worker has looked at the stop
status for the last time. -/
def Prompt (s : Stream) : Event → Prop
  | .fire => ∀ status, s.worker ≠ .storing status ∧ s.worker ≠ .clearing
  | _ => True

/-- A stream that nobody has cancelled or closed. -/
structure Undisturbed (now : Nat) (s : Stream) : Prop where
  stop : s.stopStatus = 0 ∧ s.cancelled = false ∧ s.monitor = .away ∨
    s.stopStatus = 11 ∧ s.deadline ≤ now ∧ s.worker.transfers = false ∧ s.received = []
  deadline : ∀ deadline, s.connectDeadline = some deadline →
    deadline = s.deadline ∧ s.worker.transfers = false ∧ s.received = []
  terminal : ∀ status, s.incoming.terminal = some status → s.Stored ∨ s.stopStatus = 11
  eleven : s.stopStatus = 11 → (∀ status, s.incoming.terminal = some status → status = 11) ∧
    ∀ status, s.worker = .storing status → status = 11

/-- The monitor has decided on a stream whose stop status is set or whose monitor is at it. -/
theorem Undisturbed.passed (hs : Undisturbed now s)
    (h : s.stopStatus = 11 ∨ s.cancelled = true ∨ s.monitor ≠ .away) :
    s.stopStatus = 11 ∧ s.deadline ≤ now ∧ s.worker.transfers = false ∧ s.received = [] := by
  rcases hs.stop with ⟨hzero, hcancelled, haway⟩ | hpassed
  · simp [hzero, hcancelled, haway] at h
  · exact hpassed

/-- A worker that has stored its status neither transfers nor stores. -/
theorem Stream.Stored.quiet (h : s.Stored) : s.worker.transfers = false ∧
    s.worker.inFlight = [] ∧ ∀ status, s.worker ≠ .storing status := by
  rcases h with hclearing | ⟨hpast, -⟩
  · simp [hclearing, Worker.transfers, Worker.inFlight]
  · cases hworker : s.worker <;> simp_all [Worker.past, Worker.transfers, Worker.inFlight]

section

variable (h : WorkerStep now s t)
include h

theorem workerStep_frame :
    t.stopStatus = s.stopStatus ∧ t.cancelled = s.cancelled ∧ t.monitor = s.monitor ∧
      t.deadline = s.deadline := by
  cases h <;> exact ⟨rfl, rfl, rfl, rfl⟩

/-- The worker begins to transfer only when the deadline is not over, and then
takes the deadline away. -/
theorem workerStep_transfers (hbefore : s.worker.transfers = false) : t.received = s.received ∧
      (t.worker.transfers = false ∨ now < s.deadline ∧ t.connectDeadline = none) := by
  cases h with
  | settle _ _ hnow => exact ⟨rfl, .inr ⟨hnow, rfl⟩⟩
  | _ => simp_all [Worker.transfers]

theorem workerStep_connectDeadline :
    t.connectDeadline = s.connectDeadline ∨ t.connectDeadline = none := by
  cases h <;> first | exact .inl rfl | exact .inr rfl

/-- Only the worker that stores its status changes the terminal one. -/
theorem workerStep_terminal : t.incoming.terminal = s.incoming.terminal ∧ (s.Stored → t.Stored) ∨
      ∃ status, s.worker = .storing status ∧ t.incoming.terminal = some status ∧
        t.worker = .clearing := by
  cases h with
  | store status hworker => exact .inr ⟨status, hworker, rfl, rfl⟩
  | fail status started hfail =>
    refine .inl ⟨rfl, fun hstored => ?_⟩
    cases hworker : s.worker <;> simp_all [MayFail, Stream.Stored, Worker.past]
  | clear => exact .inl ⟨rfl, fun _ => .inr ⟨rfl, rfl⟩⟩
  | _ => simp_all [Stream.Stored, Worker.past]

theorem workerStep_storing
    (hstoring : t.worker = .storing status) :
    status = s.stopStatus ∨ s.stopStatus = 0 := by
  cases h with
  | load =>
    simp only [Worker.storing.injEq] at hstoring
    split at hstoring
    · exact .inl hstoring.symm
    · rename_i hzero
      exact .inr (by simpa using hzero)
  | _ => simp_all

theorem undisturbed_worker (hs : Undisturbed now s) : Undisturbed now t := by
  obtain ⟨hstopStatus, hcancelled, hmonitor, hdeadline⟩ := workerStep_frame h
  refine ⟨?_, ?_, ?_, ?_⟩
  · rw [hstopStatus, hcancelled, hmonitor, hdeadline]
    refine hs.stop.imp_right fun ⟨h11, hpassed, htransfers, hreceived⟩ => ?_
    obtain ⟨hsame, hquiet | ⟨hnow, -⟩⟩ := workerStep_transfers h htransfers
    · exact ⟨h11, hpassed, hquiet, hsame.trans hreceived⟩
    · omega
  · intro deadline hsome
    rcases workerStep_connectDeadline h with hsame | hnone
    · rw [hsame] at hsome
      obtain ⟨rfl, htransfers, hreceived⟩ := hs.deadline deadline hsome
      obtain ⟨hkept, hquiet | ⟨-, hnone⟩⟩ := workerStep_transfers h htransfers
      · exact ⟨hdeadline.symm, hquiet, hkept.trans hreceived⟩
      · rw [hsame, hsome] at hnone
        cases hnone
    · rw [hnone] at hsome
      cases hsome
  · intro status hterminal
    rw [hstopStatus]
    rcases workerStep_terminal h with ⟨hsame, hstored⟩ | ⟨-, -, -, hclearing⟩
    · rw [hsame] at hterminal
      exact (hs.terminal status hterminal).imp_left hstored
    · exact .inl (.inl hclearing)
  · intro h11
    rw [hstopStatus] at h11
    obtain ⟨hold, hstoring⟩ := hs.eleven h11
    refine ⟨fun status hterminal => ?_, fun status hstores => ?_⟩
    · rcases workerStep_terminal h with ⟨hsame, -⟩ | ⟨x, hx, hnew, -⟩
      · exact hold status (hsame ▸ hterminal)
      · rw [hnew, Option.some.injEq] at hterminal
        exact hterminal ▸ hstoring x hx
    · rcases workerStep_storing h hstores with rfl | hzero
      · exact h11
      · rw [hzero] at h11
        cases h11

end

section

variable (h : StreamStep now s event t) (hs : Undisturbed now s) (hcalls : s.cancels = ⟨0, 0, 0, 0⟩)
  (hprompt : Prompt s event)
include h hs hcalls hprompt

theorem undisturbed_step : Undisturbed now t := by
  have hpassed := hs.passed
  obtain ⟨hstop, hdeadline, hterminal, heleven⟩ := hs
  cases h with
  | worker t hworker => exact undisturbed_worker hworker ⟨hstop, hdeadline, hterminal, heleven⟩
  | fire deadline haway hsome hover hzero =>
    obtain ⟨rfl, htransfers, hreceived⟩ := hdeadline deadline hsome
    have hbefore : s.incoming.terminal = none := by
      cases hcase : s.incoming.terminal with
      | none => rfl
      | some status =>
        rcases hterminal status hcase with (hclearing | ⟨-, hnone⟩) | h11
        · exact absurd hclearing (hprompt 0).2
        · rw [hsome] at hnone
          cases hnone
        · rw [hzero] at h11
          cases h11
    refine ⟨.inr ⟨rfl, hover, htransfers, hreceived⟩, hdeadline, fun _ _ => .inr rfl,
      fun _ => ⟨?_, ?_⟩⟩
    · simp [hbefore]
    · intro status hstoring
      exact absurd hstoring (hprompt status).1
  | fireMark htimer | fireLeave htimer =>
    exact ⟨.inr (hpassed (by simp [htimer])), hdeadline, hterminal, heleven⟩
  | firePublish hmarked hfree =>
    have h11 := hpassed (by simp [hmarked])
    refine ⟨.inr h11, hdeadline, fun _ _ => .inr h11.1, fun h => ⟨?_, (heleven h).2⟩⟩
    rintro status ⟨⟩
    rfl
  | read capacity _ hpos =>
    rcases drain_spec s.incoming hpos with ⟨_, _, -, -, hdrain⟩ | ⟨-, _, hdrain, -⟩
    all_goals
      simp only [hdrain]
      exact ⟨hstop, hdeadline, hterminal, heleven⟩
  | cancelStop hcall | cancelMark hcall | cancelClear hcall | cancelReturn hcall =>
    simp [hcalls] at hcall

/-- The terminal status of an undisturbed stream does not change, and nothing is
put into its queue any more. -/
theorem terminal_step (hterminal : s.incoming.terminal = some status)
    (hempty : s.incoming.bytes = []) : t.incoming = s.incoming := by
  have hquiet : s.worker.transfers = false := by
    rcases hs.terminal status hterminal with hstored | h11
    · exact hstored.quiet.1
    · exact (hs.passed (.inl h11)).2.2.1
  cases h with
  | worker t hworker =>
    cases hworker with
    | extend chunk hpushing =>
      rw [hpushing] at hquiet
      cases hquiet
    | store x hstoring =>
      rcases hs.terminal status hterminal with hstored | h11
      · exact absurd hstoring (hstored.quiet.2.2 x)
      · obtain ⟨hold, hnew⟩ := hs.eleven h11
        rw [hnew x hstoring, ← hold status hterminal, ← hterminal]
    | _ => rfl
  | firePublish hmarked =>
    have h11 := hs.passed (by simp [hmarked])
    rw [← (hs.eleven h11.1).1 status hterminal, ← hterminal]
  | read capacity _ hpos =>
    rcases drain_spec s.incoming hpos with ⟨_, _, hfront, hbytes, -⟩ | ⟨-, _, hdrain, -⟩
    · rw [hempty] at hbytes
      exact absurd (append_eq_nil_iff.mp hbytes.symm).1 hfront
    · simp only [hdrain]
  | cancelStop hcall | cancelMark hcall | cancelClear hcall | cancelReturn hcall =>
    simp [hcalls] at hcall
  | _ => rfl

end

/-- No data is returned once a `cancel` or `close` has returned. -/
def SilentAfter (earlier later : Event) : Prop :=
  earlier = .stopped → ∀ bytes, later ≠ .read (.data bytes)

/-- A terminal status is returned by every later read. -/
def SameTerminal (earlier later : Event) : Prop :=
  ∀ status outcome, earlier = .read (.terminal status) → later = .read outcome →
    outcome = .terminal status

structure StreamInv (now : Nat) (events : List Event) (s : Stream) : Prop where
  room : s.Room
  stops : Stops events s
  flow : Flow events s
  silent : events.Pairwise SilentAfter
  undisturbed : .stop ∉ events → Undisturbed now s
  answered : .stop ∉ events → ∀ status, .read (.terminal status) ∈ events →
    s.incoming = ⟨[], some status⟩
  stable : .stop ∉ events → events.Pairwise SameTerminal

theorem read_drain {outcome : ReadOutcome} (h : StreamStep now s (.read outcome) t) :
    ∃ capacity, 0 < capacity ∧ drain s.incoming capacity = (t.incoming, outcome) := by
  generalize hread : Event.read outcome = event at h
  cases h with
  | read capacity _ hpos =>
    cases hread
    exact ⟨capacity, hpos, rfl⟩
  | _ => cases hread

theorem silent_concat (hstops : Stops events s) (h : StreamStep now s event t)
    (hsilent : events.Pairwise SilentAfter) : (events ++ [event]).Pairwise SilentAfter := by
  rw [pairwise_append]
  refine ⟨hsilent, pairwise_singleton _ _, ?_⟩
  rintro earlier hmem later hlater rfl bytes rfl
  obtain rfl := mem_singleton.mp hlater
  obtain ⟨-, hempty, -⟩ := hstops.cleared (.inr hmem)
  obtain ⟨capacity, hpos, hdrain⟩ := read_drain h
  rcases drain_spec s.incoming hpos with ⟨_, _, hfront, hbytes, -⟩ | ⟨-, _, hsame, hdata, -⟩
  · rw [hempty] at hbytes
    exact hfront (append_eq_nil_iff.mp hbytes.symm).1
  · obtain ⟨-, rfl⟩ := Prod.mk.inj (hdrain.symm.trans hsame)
    exact hdata bytes rfl

/-- A read of a stream with a terminal status and an empty queue. -/
theorem read_terminal {outcome : ReadOutcome}
    (h : StreamStep now s (.read outcome) t) (hincoming : s.incoming = ⟨[], some status⟩) :
    outcome = .terminal status := by
  obtain ⟨capacity, -, hdrain⟩ := read_drain h
  rw [hincoming] at hdrain
  exact (congrArg Prod.snd hdrain).symm

theorem streamInv_step (h : StreamStep now s event t) (hs : StreamInv now events s)
    (hprompt : Prompt s event) : StreamInv now (events ++ [event]) t := by
  have hnostop : .stop ∉ events ++ [event] → .stop ∉ events := by
    intro hnot hmem
    exact hnot (mem_append_left _ hmem)
  refine ⟨room_step h hs.room, stops_step h hs.stops, flow_step h hs.stops hs.flow,
    silent_concat hs.stops h hs.silent, fun hnot => ?_, fun hnot status hmem => ?_, fun hnot => ?_⟩
  · have hcalls := (hs.stops.none (hnostop hnot)).1
    exact undisturbed_step h (hs.undisturbed (hnostop hnot)) hcalls hprompt
  · have hcalls := (hs.stops.none (hnostop hnot)).1
    have hquiet := hs.undisturbed (hnostop hnot)
    rcases mem_append.mp hmem with hold | hnew
    · have hincoming := hs.answered (hnostop hnot) status hold
      rw [terminal_step h hquiet hcalls hprompt (by rw [hincoming]) (by rw [hincoming]), hincoming]
    · obtain rfl := mem_singleton.mp hnew
      obtain ⟨capacity, hpos, hdrain⟩ := read_drain h
      rcases drain_spec s.incoming hpos with ⟨_, _, -, -, hdata⟩ | ⟨hempty, _, hsame, -, hkept⟩
      · exact absurd (congrArg Prod.snd (hdrain.symm.trans hdata)) nofun
      · obtain ⟨hincoming, rfl⟩ := Prod.mk.inj (hdrain.symm.trans hsame)
        rw [hincoming, ← hempty, ← hkept status rfl]
  · rw [pairwise_append]
    refine ⟨hs.stable (hnostop hnot), pairwise_singleton _ _, ?_⟩
    rintro earlier hmem later hlater status outcome rfl rfl
    obtain rfl := mem_singleton.mp hlater
    exact read_terminal h (hs.answered (hnostop hnot) status hmem)

/-- Once a terminal status was returned, all bytes of the peer were. -/
theorem StreamInv.complete (hs : StreamInv now events s) (hnot : .stop ∉ events)
    (hmem : .read (.terminal status) ∈ events) : returned events = s.received := by
  have hincoming := hs.answered hnot status hmem
  have hquiet := hs.undisturbed hnot
  have hreceived : s.received = [] → returned events = s.received := by
    intro hnone
    have hpre := hs.flow.returned_begins
    rw [hnone] at hpre ⊢
    exact prefix_nil.mp hpre
  rcases hs.flow with hintact | ⟨hcancelled, -, -⟩
  · rcases hquiet.terminal status (by rw [hincoming]) with hstored | h11
    · rw [hintact, hincoming, hstored.quiet.2.1, append_nil, append_nil]
    · exact hreceived (hquiet.passed (.inl h11)).2.2.2
  · exact hreceived (hquiet.passed (.inr (.inl hcancelled))).2.2.2

end Local

end Sengoo.Net.ByteStream
