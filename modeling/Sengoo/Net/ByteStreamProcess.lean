import Sengoo.Net.ByteStreamSafety

/-!
The process-wide accounts of the byte-stream workers, and what all runs of the
process guarantee for each of its streams.
-/

namespace Sengoo.Net.ByteStream

open AList History Table

/-- What was seen of one stream. -/
def eventsOf (id : Nat) (labels : List Label) : List Event :=
  labels.filterMap fun
    | .stream other event => if other = id then some event else none
    | .process => none

variable {id other now : Nat} {s t : State} {stream before : Stream} {label : Label}
  {labels : List Label}

section Events

@[simp]
theorem eventsOf_process : eventsOf id (labels ++ [.process]) = eventsOf id labels := by
  simp [eventsOf]

@[simp]
theorem eventsOf_self (event : Event) :
    eventsOf id (labels ++ [.stream id event]) = eventsOf id labels ++ [event] := by
  simp [eventsOf]

theorem eventsOf_other (event : Event) (h : other ≠ id) :
    eventsOf id (labels ++ [.stream other event]) = eventsOf id labels := by
  simp [eventsOf, h]

end Events

section Accounts

/-- The slot a worker takes. -/
def Stream.slot (s : Stream) : Nat := if s.worker = .gone then 0 else 1

/-- The bytes of the request copy that a worker holds. -/
def Stream.copy (s : Stream) : Nat := if s.copyHeld then s.request else 0

/-- A copy is held until the worker has released it. -/
def Stream.Holds (s : Stream) : Prop :=
  s.copyHeld = true ↔ s.worker ≠ .leaving ∧ s.worker ≠ .gone

/-- No stream has two handles. -/
def SingleHandles (table : Table Int Nat) : Prop :=
  ∀ handle other id, table.lookup handle = some id → table.lookup other = some id → handle = other

structure Accounts (s : State) : Prop where
  workers : s.workers = s.streams.total Stream.slot
  copies : s.requestCopyBytes = s.streams.total Stream.copy
  holds : ∀ id stream, s.streams.lookup id = some stream → stream.Holds
  starting : ∀ handle id, s.starting = some (handle, id) →
    ∃ stream, s.streams.lookup id = some stream ∧ stream.worker = .connecting
  fresh : ∀ id, s.nextStream ≤ id → id ∉ s.streams
  handles : ∀ handle id, s.table.lookup handle = some id → id < s.nextStream
  single : SingleHandles s.table
  workers_le : s.workers ≤ maxWorkers
  handles_le : s.table.keys.length ≤ maxWorkers
  copies_le : s.requestCopyBytes ≤ maxRequestCopies

theorem total_setStream (after : Stream)
    (f : Stream → Nat) (h : s.streams.lookup id = some before) :
    (s.setStream id after).streams.total f + f before = s.streams.total f + f after := by
  have herase := total_erase f h
  rw [State.setStream, total_insert]
  omega

theorem lookup_setStream {after : Stream}
    (h : (s.setStream id after).streams.lookup other = some stream) :
    other = id ∧ stream = after ∨ other ≠ id ∧ s.streams.lookup other = some stream :=
  lookup_insert_some h

theorem keys_erase_le (table : Table Int Nat) (handle : Int) :
    (table.erase handle).keys.length ≤ table.keys.length := by
  rw [keys_erase]
  exact List.length_erase_le ..

/-- A step on a stream keeps its slot and its copy. -/
theorem streamStep_accounts {s t : Stream} {event : Event}
    (h : StreamStep now s event t) (hholds : s.Holds) :
    t.slot = s.slot ∧ t.copy = s.copy ∧ t.Holds := by
  have hkeeps : t.request = s.request ∧ t.copyHeld = s.copyHeld ∧
      ((s.worker = .gone ↔ t.worker = .gone) ∧ (s.worker = .leaving ↔ t.worker = .leaving)) := by
    cases h with
    | worker t hworker =>
      cases hworker with
      | fail status started hfail => cases hworker : s.worker <;> simp_all [MayFail]
      | _ => simp_all
    | _ => exact ⟨rfl, rfl, Iff.rfl, Iff.rfl⟩
  obtain ⟨hrequest, hheld, hgone, hleaving⟩ := hkeeps
  refine ⟨?_, ?_, ?_⟩
  · simp [Stream.slot, hgone]
  · simp [Stream.copy, hrequest, hheld]
  · simpa [Stream.Holds, hheld, hgone, hleaving] using hholds

/-- A change of one stream, with the counters moved by what it gives back. -/
theorem Accounts.update (hs : Accounts s)
    (after : Stream) (hlookup : s.streams.lookup id = some before)
    (hstreams : t.streams = (s.setStream id after).streams) (hnext : t.nextStream = s.nextStream)
    (hworkers : t.workers + before.slot = s.workers + after.slot)
    (hcopies : t.requestCopyBytes + before.copy = s.requestCopyBytes + after.copy)
    (hslot : after.slot ≤ before.slot) (hcopy : after.copy ≤ before.copy)
    (htable : t.table = s.table ∨ ∃ handle, t.table = s.table.erase handle) (hholds : after.Holds)
    (hstarting : ∀ handle other, t.starting = some (handle, other) →
      s.starting = some (handle, other) ∧ other ≠ id) : Accounts t := by
  have hmem : id ∈ s.streams := mem_of_lookup hlookup
  have hworkers_le := hs.workers_le
  have hhandles_le := hs.handles_le
  have hcopies_le := hs.copies_le
  have hhandles : t.table.keys.length ≤ s.table.keys.length ∧
      ∀ handle other, t.table.lookup handle = some other → s.table.lookup handle = some other := by
    rcases htable with hsame | ⟨closed, herased⟩
    · rw [hsame]
      exact ⟨Nat.le_refl _, fun _ _ h => h⟩
    · rw [herased]
      exact ⟨keys_erase_le _ _, fun _ _ h => (lookup_erase_some h).2⟩
  obtain ⟨hkeys, hkept⟩ := hhandles
  refine ⟨?_, ?_, ?_, ?_, ?_, ?_, ?_, by omega, by omega, by omega⟩
  · have htotal := total_setStream after Stream.slot hlookup
    rw [← hstreams, ← hs.workers] at htotal
    omega
  · have htotal := total_setStream after Stream.copy hlookup
    rw [← hstreams, ← hs.copies] at htotal
    omega
  · intro other stream hother
    rw [hstreams] at hother
    rcases lookup_setStream hother with ⟨rfl, rfl⟩ | ⟨-, hold⟩
    · exact hholds
    · exact hs.holds other stream hold
  · intro handle other hsome
    obtain ⟨hbefore, hne⟩ := hstarting handle other hsome
    obtain ⟨stream, hstream, hworker⟩ := hs.starting handle other hbefore
    refine ⟨stream, ?_, hworker⟩
    rw [hstreams, State.setStream, lookup_insert_ne hne, hstream]
  · intro other hle hmem'
    rw [hnext] at hle
    rw [hstreams] at hmem'
    rcases (mem_insert _).mp hmem' with rfl | hold
    · exact hs.fresh other hle hmem
    · exact hs.fresh other hle hold
  · intro handle other hsome
    rw [hnext]
    exact hs.handles handle other (hkept handle other hsome)
  · intro handle handle' other hsome hsome'
    exact hs.single handle handle' other (hkept handle other hsome) (hkept handle' other hsome')

/-- The worker of a stream gives its slot back. -/
theorem Accounts.slot_returned (hs : Accounts s) (hlookup : s.streams.lookup id = some stream)
    (hslot : stream.slot = 1) : s.workers - 1 + stream.slot = s.workers := by
  have htotal := total_erase Stream.slot hlookup
  rw [← hs.workers] at htotal
  omega

/-- The copy of a request is given back whole. -/
theorem Accounts.copy_returned (hs : Accounts s) (hlookup : s.streams.lookup id = some stream)
    (hheld : stream.copyHeld = true) :
    s.requestCopyBytes - stream.request + stream.copy = s.requestCopyBytes := by
  have hcopy : stream.copy = stream.request := by simp [Stream.copy, hheld]
  have htotal := total_erase Stream.copy hlookup
  rw [← hs.copies] at htotal
  omega

theorem Accounts.connecting (hs : Accounts s) {handle : Int}
    (hsome : s.starting = some (handle, id)) (hlookup : s.streams.lookup id = some stream) :
    stream.worker = .connecting := by
  obtain ⟨stream', hlookup', hworker⟩ := hs.starting handle id hsome
  rw [hlookup, Option.some.injEq] at hlookup'
  exact hlookup' ▸ hworker

/-- A stream whose worker has left its first place is not the one being started. -/
theorem Accounts.not_starting (hs : Accounts s) {handle : Int}
    (hsome : s.starting = some (handle, other))
    (hlookup : s.streams.lookup id = some stream) (hworker : stream.worker ≠ .connecting) :
    other ≠ id := by
  rintro rfl
  exact hworker (hs.connecting hsome hlookup)

theorem keys_insert_le (table : Table Int Nat) (handle : Int) (id : Nat) :
    (table.insert handle id).keys.length ≤ table.keys.length + 1 := by
  rw [keys_insert]
  exact Nat.succ_le_succ (List.length_erase_le ..)

theorem newStream_holds (now : Nat) (args : StartArguments) : (newStream now args).Holds := by
  simp [newStream, Stream.Holds]

theorem start_accounts (hs : Accounts s) (args : StartArguments)
    (monitored allocated : Bool) :
    Accounts (start s args monitored allocated).1 := by
  unfold start
  split_ifs with hvalid hmonitored hfull hcopies hnext
  · exact hs
  · exact hs
  · exact hs
  · exact hs
  · exact { hs with }
  · have hfresh := hs.fresh s.nextStream (Nat.le_refl _)
    have htotal : ∀ f : Stream → Nat,
        Table.total f (s.streams.insert s.nextStream (newStream s.now args)) =
          f (newStream s.now args) + s.streams.total f := by
      intro f
      rw [total_insert, total_erase_of_notMem f hfresh]
    have hunused : ∀ handle id, (s.table.insert s.next s.nextStream).lookup handle = some id →
        handle = s.next ∧ id = s.nextStream ∨ s.table.lookup handle = some id ∧ id < s.nextStream := by
      intro handle id hsome
      rcases lookup_insert_some hsome with hnew | ⟨-, hold⟩
      · exact .inl hnew
      · exact .inr ⟨hold, hs.handles handle id hold⟩
    refine ⟨?_, ?_, ?_, ?_, ?_, ?_, ?_, ?_, ?_, ?_⟩
    · have hslot : (newStream s.now args).slot = 1 := rfl
      rw [htotal, ← hs.workers]
      exact Nat.add_comm _ _
    · have hcopy : (newStream s.now args).copy = args.requestLen.toNat := rfl
      rw [htotal, ← hs.copies]
      exact Nat.add_comm _ _
    · intro id stream hlookup
      rcases lookup_insert_some hlookup with ⟨-, rfl⟩ | ⟨-, hold⟩
      · exact newStream_holds _ _
      · exact hs.holds id stream hold
    · intro handle id hsome
      obtain ⟨-, rfl⟩ := hsome
      exact ⟨_, lookup_insert _, rfl⟩
    · intro id hle hmem
      rcases (mem_insert _).mp hmem with rfl | hold
      · exact Nat.lt_irrefl _ (Nat.lt_of_succ_le hle)
      · exact hs.fresh id (Nat.le_of_succ_le hle) hold
    · intro handle id hsome
      rcases hunused handle id hsome with ⟨-, rfl⟩ | ⟨-, hlt⟩
      · exact Nat.lt_succ_self _
      · exact Nat.lt_succ_of_lt hlt
    · intro handle other id hsome hsome'
      rcases hunused handle id hsome with ⟨rfl, rfl⟩ | ⟨hold, hlt⟩ <;>
        rcases hunused other _ hsome' with ⟨rfl, hid⟩ | ⟨hold', hlt'⟩
      · rfl
      · exact absurd hlt' (Nat.lt_irrefl _)
      · exact absurd (hid ▸ hlt) (Nat.lt_irrefl _)
      · exact hs.single handle other id hold hold'
    · simp only
      omega
    · have := keys_insert_le s.table s.next s.nextStream
      simp only
      omega
    · simp only
      omega

theorem accounts_step (hs : Accounts s) (h : Step s label t) : Accounts t := by
  cases h with
  | tick => exact { hs with }
  | start args monitored allocated => exact start_accounts hs args monitored allocated
  | spawned => exact { hs with starting := nofun }
  | stream id before after event hlookup hstarted hstep =>
    obtain ⟨hslot, hcopy, hholds⟩ := streamStep_accounts hstep (hs.holds id before hlookup)
    refine hs.update after hlookup rfl rfl (by rw [hslot]; rfl) (by rw [hcopy]; rfl)
      (Nat.le_of_eq hslot) (Nat.le_of_eq hcopy) (.inl rfl) hholds
      fun handle other hsome => ⟨hsome, ?_⟩
    rintro rfl
    exact hstarted handle hsome
  | spawnFailed handle id stream hsome hlookup =>
    have hworker := hs.connecting hsome hlookup
    have hheld : stream.copyHeld = true := (hs.holds id stream hlookup).mpr (by simp [hworker])
    have hslot : stream.slot = 1 := by simp [Stream.slot, hworker]
    exact hs.update { stream with worker := .gone, copyHeld := false } hlookup rfl rfl
      (hs.slot_returned hlookup hslot) (hs.copy_returned hlookup hheld)
      (Nat.zero_le _) (Nat.zero_le _) (.inr ⟨_, rfl⟩) (by simp [Stream.Holds]) nofun
  | release id stream hlookup hreleasing =>
    have hheld : stream.copyHeld = true :=
      (hs.holds id stream hlookup).mpr (by simp [hreleasing])
    have hslot : stream.slot = 1 := by simp [Stream.slot, hreleasing]
    refine hs.update { stream with worker := .leaving, copyHeld := false } hlookup rfl rfl ?_
      (hs.copy_returned hlookup hheld) ?_ (Nat.zero_le _) (.inl rfl) (by simp [Stream.Holds]) ?_
    · rw [hslot]
      rfl
    · rw [hslot]
      exact Nat.le_refl 1
    · exact fun handle other hsome => ⟨hsome, hs.not_starting hsome hlookup (by simp [hreleasing])⟩
  | leave id stream hlookup hleaving =>
    have hheld : stream.copyHeld = false := by
      have := (hs.holds id stream hlookup).not.mpr (by simp [hleaving])
      simpa using this
    have hslot : stream.slot = 1 := by simp [Stream.slot, hleaving]
    exact hs.update { stream with worker := .gone } hlookup rfl rfl
      (hs.slot_returned hlookup hslot) rfl
      (Nat.zero_le _) (Nat.le_refl _) (.inl rfl) (by simp [Stream.Holds, hheld])
      fun handle other hsome => ⟨hsome, hs.not_starting hsome hlookup (by simp [hleaving])⟩
  | readEnter handle id stream hnone _ hlookup | cancelEnter handle id stream hnone _ hlookup =>
    exact hs.update _ hlookup rfl rfl rfl rfl (Nat.le_refl _) (Nat.le_refl _) (.inl rfl)
      (hs.holds id stream hlookup) (by simp [State.setStream, hnone])
  | close handle id stream hnone _ hlookup =>
    exact hs.update _ hlookup rfl rfl rfl rfl (Nat.le_refl _) (Nat.le_refl _) (.inr ⟨_, rfl⟩)
      (hs.holds id stream hlookup) (by simp [State.setStream, hnone])

end Accounts

section Runs

/-- In every decision of the deadline monitor, the worker of the stream has not
yet looked at the stop status for the last time. -/
def PromptStep (s : State) (label : Label) (t : State) : Prop :=
  Step s label t ∧ ∀ id event stream, label = .stream id event →
    s.streams.lookup id = some stream → Prompt stream event

/-- The streams of a state and what was seen of them. -/
structure Watched (labels : List Label) (s : State) : Prop where
  streams : ∀ id stream, s.streams.lookup id = some stream →
    StreamInv s.now (eventsOf id labels) stream
  unseen : ∀ id, id ∉ s.streams → eventsOf id labels = []

theorem newStream_inv (now : Nat) (args : StartArguments) :
    StreamInv now [] (newStream now args) where
  room := Nat.zero_le _
  stops := ⟨by simp [newStream], by simp [newStream], fun _ => ⟨rfl, nofun⟩⟩
  flow := .inl rfl
  silent := .nil
  undisturbed _ := by
    refine ⟨.inl ⟨rfl, rfl, rfl⟩, ?_, nofun, nofun⟩
    rintro deadline ⟨⟩
    exact ⟨rfl, rfl, rfl⟩
  answered := nofun
  stable _ := .nil

variable {events : List Event}

/-- Time passes. -/
theorem StreamInv.later (h : StreamInv now events stream) (elapsed : Nat) :
    StreamInv (now + elapsed) events stream := by
  refine { h with undisturbed := fun hnot => { h.undisturbed hnot with stop := ?_ } }
  exact (h.undisturbed hnot).stop.imp_right fun ⟨h11, hpassed, hrest⟩ =>
    ⟨h11, Nat.le_add_right_of_le hpassed, hrest⟩

theorem StreamInv.stop (h : StreamInv now events stream) :
    StreamInv now (events ++ [.stop]) { stream with
      cancels := { stream.cancels with entered := stream.cancels.entered + 1 } } where
  room := h.room
  stops := ⟨h.stops.marked, fun hwhy => h.stops.cleared (by simpa using hwhy), by simp⟩
  flow := by
    rw [Flow, returned_concat (by simp)]
    exact h.flow
  silent := by
    rw [List.pairwise_append]
    refine ⟨h.silent, List.pairwise_singleton _ _, ?_⟩
    rintro earlier - later hlater - bytes rfl
    simp at hlater
  undisturbed hnot := by simp at hnot
  answered hnot := by simp at hnot
  stable hnot := by simp at hnot

theorem past_spec {worker : Worker} (h : worker.past = true) :
    worker.inFlight = [] ∧ worker.claims = 0 ∧ worker.pushes = false ∧
      worker.transfers = false ∧ ∀ status, worker ≠ .storing status := by
  cases worker <;> simp_all [Worker.past, Worker.inFlight, Worker.claims, Worker.pushes,
    Worker.transfers]

/-- The worker leaves, or was never spawned: nothing that can be seen changes. -/
theorem StreamInv.leave (h : StreamInv now events stream) (worker : Worker) (held : Bool)
    (hworker : worker.past = true)
    (hbefore : stream.worker.past = true ∨ stream.worker = .connecting) :
    StreamInv now events { stream with worker := worker, copyHeld := held } := by
  obtain ⟨hflight, hclaims, hpushes, htransfers, hstoring⟩ := past_spec hworker
  have hflight' : stream.worker.inFlight = [] := by
    rcases hbefore with hpast | hconnecting
    · exact (past_spec hpast).1
    · rw [hconnecting]
      rfl
  refine ⟨?_, ⟨h.stops.marked, fun hwhy => ?_, h.stops.none⟩, ?_, h.silent, fun hnot => ?_,
    h.answered, h.stable⟩
  · have hroom : stream.incoming.bytes.length + stream.worker.claims ≤ stream.capacity := h.room
    change stream.incoming.bytes.length + worker.claims ≤ stream.capacity
    omega
  · obtain ⟨hcancelled, hempty, -⟩ := h.stops.cleared hwhy
    exact ⟨hcancelled, hempty, hpushes⟩
  · rcases h.flow with hintact | ⟨hcancelled, -, hpre⟩
    · left
      rw [hintact, hflight, hflight']
    · exact .inr ⟨hcancelled, hpushes, hpre⟩
  · obtain ⟨hstop, hdeadline, hterminal, heleven⟩ := h.undisturbed hnot
    refine ⟨?_, ?_, ?_, ?_⟩
    · exact hstop.imp_right fun ⟨h11, hpassed, _, hnone⟩ => ⟨h11, hpassed, htransfers, hnone⟩
    · intro deadline hsome
      obtain ⟨heq, -, hnone⟩ := hdeadline deadline hsome
      exact ⟨heq, htransfers, hnone⟩
    · intro status hsome
      rcases hterminal status hsome with (hclearing | ⟨-, hnone⟩) | h11
      · rcases hbefore with hpast | hconnecting
        · rw [hclearing] at hpast
          cases hpast
        · rw [hclearing] at hconnecting
          cases hconnecting
      · exact .inl (.inr ⟨hworker, hnone⟩)
      · exact .inr h11
    · intro h11
      exact ⟨(heleven h11).1, fun status hstores => absurd hstores (hstoring status)⟩

/-- A change of one stream and of what was seen of it. -/
theorem Watched.update (hs : Watched labels s) (after : Stream)
    (hstreams : t.streams = (s.setStream id after).streams) (hnow : t.now = s.now)
    (hother : ∀ other, other ≠ id → eventsOf other (labels ++ [label]) = eventsOf other labels)
    (hafter : StreamInv s.now (eventsOf id (labels ++ [label])) after) :
    Watched (labels ++ [label]) t := by
  constructor
  · intro other stream hfound
    rw [hstreams] at hfound
    rw [hnow]
    rcases lookup_setStream hfound with ⟨rfl, rfl⟩ | ⟨hne, hold⟩
    · exact hafter
    · rw [hother other hne]
      exact hs.streams other stream hold
  · intro other hnot
    rw [hstreams] at hnot
    have hne : other ≠ id := by
      rintro rfl
      exact hnot ((mem_insert _).mpr (.inl rfl))
    rw [hother other hne]
    exact hs.unseen other fun hmem => hnot ((mem_insert _).mpr (.inr hmem))

/-- A step that touches no stream, in which some time may pass. -/
theorem Watched.aside (hs : Watched labels s) (elapsed : Nat) (hstreams : t.streams = s.streams)
    (hnow : t.now = s.now + elapsed) : Watched (labels ++ [.process]) t := by
  constructor
  · intro id stream hlookup
    rw [eventsOf_process, hnow]
    exact (hs.streams id stream (hstreams ▸ hlookup)).later elapsed
  · intro id hnot
    rw [eventsOf_process]
    exact hs.unseen id (hstreams ▸ hnot)

theorem start_watched (hs : Watched labels s)
    (haccounts : Accounts s) (args : StartArguments) (monitored allocated : Bool) :
    Watched (labels ++ [.process]) (start s args monitored allocated).1 := by
  unfold start
  split_ifs
  iterate 5 exact hs.aside 0 rfl rfl
  · have hfresh := haccounts.fresh s.nextStream (Nat.le_refl _)
    constructor
    · intro id stream hlookup
      rw [eventsOf_process]
      rcases lookup_insert_some hlookup with ⟨rfl, rfl⟩ | ⟨-, hold⟩
      · rw [hs.unseen _ hfresh]
        exact newStream_inv s.now args
      · exact hs.streams id stream hold
    · intro id hnot
      rw [eventsOf_process]
      exact hs.unseen id fun hmem => hnot ((mem_insert _).mpr (.inr hmem))

theorem watched_step (hs : Watched labels s) (haccounts : Accounts s) (h : PromptStep s label t) :
    Watched (labels ++ [label]) t := by
  obtain ⟨hstep, hprompt⟩ := h
  cases hstep with
  | tick elapsed => exact hs.aside elapsed rfl rfl
  | start args monitored allocated => exact start_watched hs haccounts args monitored allocated
  | spawned => exact hs.aside 0 rfl rfl
  | spawnFailed handle id stream hsome hlookup =>
    have hworker := haccounts.connecting hsome hlookup
    refine hs.update { stream with worker := .gone, copyHeld := false } rfl rfl
      (fun _ _ => eventsOf_process) ?_
    rw [eventsOf_process]
    exact (hs.streams id stream hlookup).leave .gone false rfl (.inr hworker)
  | stream id before after event hlookup _ hstream =>
    refine hs.update after rfl rfl (fun _ hne => eventsOf_other event hne.symm) ?_
    rw [eventsOf_self]
    exact streamInv_step hstream (hs.streams id before hlookup)
      (hprompt id event before rfl hlookup)
  | release id stream hlookup hreleasing =>
    refine hs.update { stream with worker := .leaving, copyHeld := false } rfl rfl
      (fun _ _ => eventsOf_process) ?_
    rw [eventsOf_process]
    exact (hs.streams id stream hlookup).leave .leaving false rfl (.inl (by rw [hreleasing]; rfl))
  | leave id stream hlookup hleaving =>
    refine hs.update { stream with worker := .gone } rfl rfl
      (fun _ _ => eventsOf_process) ?_
    rw [eventsOf_process]
    exact (hs.streams id stream hlookup).leave .gone stream.copyHeld rfl
      (.inl (by rw [hleaving]; rfl))
  | readEnter handle id stream _ _ hlookup =>
    refine hs.update { stream with reads := stream.reads + 1 } rfl rfl
      (fun _ _ => eventsOf_process) ?_
    rw [eventsOf_process]
    have h := hs.streams id stream hlookup
    exact { h with
      stops := { h.stops with }, undisturbed := fun hnot => { h.undisturbed hnot with } }
  | cancelEnter handle id stream _ _ hlookup | close handle id stream _ _ hlookup =>
    refine hs.update _ rfl rfl (fun _ hne => eventsOf_other _ hne.symm) ?_
    rw [eventsOf_self]
    exact (hs.streams id stream hlookup).stop

/-- What a run guarantees: the accounts are right and within their bounds, a worker
that is gone has given its slot and its copy of the request back, and each stream returns the bytes of its peer in order, ends once, and is silent after
it was stopped. -/
structure Sound (labels : List Label) (s : State) : Prop where
  workers : s.workers = s.streams.total Stream.slot ∧ s.workers ≤ maxWorkers
  handles : s.table.keys.length ≤ maxWorkers ∧ SingleHandles s.table
  copies : s.requestCopyBytes = s.streams.total Stream.copy ∧ s.requestCopyBytes ≤ maxRequestCopies
  held : ∀ id stream, s.streams.lookup id = some stream → stream.Holds
  idle : (∀ id stream, s.streams.lookup id = some stream → stream.worker = .gone) →
    s.workers = 0 ∧ s.requestCopyBytes = 0
  room : ∀ id stream, s.streams.lookup id = some stream →
    stream.incoming.bytes.length ≤ stream.capacity
  inOrder : ∀ id stream, s.streams.lookup id = some stream →
    (returned (eventsOf id labels)).IsPrefix stream.received
  complete : ∀ id stream, s.streams.lookup id = some stream → .stop ∉ eventsOf id labels →
    ∀ status, .read (.terminal status) ∈ eventsOf id labels →
      returned (eventsOf id labels) = stream.received
  stable : ∀ id, .stop ∉ eventsOf id labels → (eventsOf id labels).Pairwise SameTerminal
  silent : ∀ id, (eventsOf id labels).Pairwise SilentAfter

theorem initial_accounts (now : Nat) : Accounts (initial now) where
  workers := rfl
  copies := rfl
  holds := by simp [initial]
  starting := nofun
  fresh := by simp [initial]
  handles := by simp [initial]
  single := by simp [initial, SingleHandles]
  workers_le := Nat.zero_le _
  handles_le := Nat.zero_le _
  copies_le := Nat.zero_le _

theorem run_watched (hrun : Run PromptStep (initial now) labels s) : Accounts s ∧ Watched labels s := by
  refine hrun.invariant (P := fun labels s => Accounts s ∧ Watched labels s)
    ⟨initial_accounts now, by simp [initial], fun _ _ => rfl⟩ ?_
  rintro labels s label t - ⟨haccounts, hwatched⟩ hstep
  exact ⟨accounts_step haccounts hstep.1, watched_step hwatched haccounts hstep⟩

end Runs

section Unresolved

/-- A stream of one millisecond to a host that does not resolve. -/
def shortStart : StartArguments := ⟨some [104], 80, 0, none, 0, 1, 1, 4096, 1, true⟩

theorem PromptStep.of_ne_fire (h : Step s label t)
    (hne : ∀ id, label ≠ .stream id .fire) : PromptStep s label t := by
  refine ⟨h, ?_⟩
  rintro id event stream rfl -
  cases event <;> first | trivial | exact absurd rfl (hne id)

theorem PromptStep.of_fire
    (h : Step s (.stream id .fire) t) (hlookup : s.streams.lookup id = some stream)
    (hprompt : Prompt stream .fire) : PromptStep s (.stream id .fire) t := by
  refine ⟨h, ?_⟩
  rintro id' event stream' heq hlookup'
  cases heq
  obtain rfl : stream = stream' := Option.some.inj (hlookup.symm.trans hlookup')
  exact hprompt

end Unresolved

end Sengoo.Net.ByteStream
