import Sengoo.Runtime.ChannelEntry

/-!
The channel delivers in order and accounts for every payload: what is pushed is
popped in the same order, each send and each receive moves its own value and moves
it once, and a payload is at any time in exactly one place. The facts about single
entry points are lifted here to the table of objects and to whole runs.
-/

namespace Sengoo.Runtime.Channel

open History List Table

variable {α : Type} {calls : List (Call α)} {call : Call α} {s t : State α}
  {object : Option (Object α)} {out : Outcome α} {handle : Nat}

section Table

theorem step_iff : Step s call t ↔ ∃ object out, resolve s call.op.handle = some object ∧
      entry s.inner s.nextHandle call.op object = some out ∧
      t = s.put call.op.handle out ∧ call = ⟨call.op, out.reply, out.effects⟩ := by
  simp only [Step, exec, Option.bind_eq_bind, Option.bind_eq_some_iff, Option.some.injEq,
    Prod.mk.injEq]
  constructor
  · rintro ⟨object, hresolve, out, hentry, rfl, hcall⟩
    exact ⟨object, out, hresolve, hentry, rfl, hcall.symm⟩
  · rintro ⟨object, out, hresolve, hentry, rfl, hcall⟩
    exact ⟨object, hresolve, out, hentry, rfl, hcall.symm⟩

/-- Handles are given out upwards from one. -/
structure Numbered (s : State α) : Prop where
  next : 0 < s.nextHandle
  live : ∀ handle ∈ s.objects, 0 < handle ∧ handle < s.nextHandle

theorem Numbered.next_notMem (h : Numbered s) : s.nextHandle ∉ s.objects := by
  intro hmem
  exact Nat.lt_irrefl _ (h.live _ hmem).2

theorem Numbered.zero_notMem (h : Numbered s) : 0 ∉ s.objects := by
  intro hmem
  exact Nat.lt_irrefl _ (h.live _ hmem).1

theorem resolve_spec (h : resolve s handle = some object) :
    handle = 0 ∧ object = none ∨
      handle ≠ 0 ∧ ∃ o, object = some o ∧ s.objects.lookup handle = some o := by
  unfold resolve at h
  split_ifs at h with hzero
  · exact .inl ⟨hzero, (Option.some.inj h).symm⟩
  · obtain ⟨o, hlookup, rfl⟩ := Option.map_eq_some_iff.mp h
    exact .inr ⟨hzero, o, rfl, hlookup⟩

/-- The objects behind the handles after a call. -/
theorem lookup_put {other : Nat} {o : Object α}
    (h : (s.put handle out).objects.lookup other = some o) :
    other = s.nextHandle ∧ out.fresh = some o ∨ other = handle ∧ out.after = some o ∨
      other ≠ handle ∧ s.objects.lookup other = some o := by
  have hobjects : ∀ objects : Table Nat (Object α),
      objects = out.after.elim (s.objects.erase handle) (s.objects.insert handle) →
      objects.lookup other = some o →
        other = handle ∧ out.after = some o ∨ other ≠ handle ∧ s.objects.lookup other = some o := by
    rintro objects rfl hlookup
    rcases eq_or_ne other handle with rfl | hne
    · refine .inl ⟨rfl, ?_⟩
      cases hafter : out.after with
      | none => simp [hafter] at hlookup
      | some => simpa [hafter] using hlookup
    · refine .inr ⟨hne, ?_⟩
      cases hafter : out.after <;> simpa [hafter, hne] using hlookup
  cases hfresh : out.fresh with
  | none =>
    simp only [State.put, hfresh] at h
    refine .inr (hobjects _ ?_ h)
    cases out.after <;> rfl
  | some fresh =>
    simp only [State.put, hfresh] at h
    rcases eq_or_ne other s.nextHandle with rfl | hne
    · rw [AList.lookup_insert] at h
      exact .inl ⟨rfl, h⟩
    · rw [AList.lookup_insert_ne hne] at h
      refine .inr (hobjects _ ?_ h)
      cases out.after <;> rfl

theorem inner_put (handle : Nat) : (s.put handle out).inner = out.inner := by
  cases hfresh : out.fresh <;> simp [State.put, hfresh]

theorem nextHandle_put (handle : Nat) :
    (s.put handle out).nextHandle = s.nextHandle + if out.fresh.isSome then 1 else 0 := by
  cases hfresh : out.fresh <;> simp [State.put, hfresh]

theorem total_put (f : Object α → Nat) (hnumbered : Numbered s)
    (hresolve : resolve s handle = some object) :
    (s.put handle out).objects.total f + weigh f object =
      s.objects.total f + weigh f out.after + weigh f out.fresh := by
  have hne : handle ≠ s.nextHandle := by
    rcases resolve_spec hresolve with ⟨rfl, -⟩ | ⟨-, o, -, hlookup⟩
    · exact Nat.ne_of_lt hnumbered.next
    · exact Nat.ne_of_lt (hnumbered.live _ (mem_of_lookup hlookup)).2
  have herase : Table.total f (s.objects.erase handle) + weigh f object = s.objects.total f := by
    rcases resolve_spec hresolve with ⟨rfl, rfl⟩ | ⟨-, o, rfl, hlookup⟩
    · exact total_erase_of_notMem f hnumbered.zero_notMem
    · exact total_erase f hlookup
  cases hafter : out.after with
  | none =>
    cases hfresh : out.fresh with
    | none => simpa [State.put, hafter, hfresh] using herase
    | some fresh =>
      have hmem : s.nextHandle ∉ s.objects.erase handle := fun hmem =>
        hnumbered.next_notMem (AList.mem_erase.mp hmem).2
      simp only [State.put, hafter, hfresh, total_insert, weigh_none, weigh_some,
        total_erase_of_notMem f hmem]
      omega
  | some o =>
    cases hfresh : out.fresh with
    | none =>
      simp only [State.put, hafter, hfresh, total_insert, weigh_none, weigh_some]
      omega
    | some fresh =>
      have hmem : s.nextHandle ∉ s.objects.insert handle o := by
        rw [AList.mem_insert, not_or]
        exact ⟨hne.symm, hnumbered.next_notMem⟩
      simp only [State.put, hafter, hfresh, weigh_some]
      rw [total_insert, total_erase_of_notMem f hmem, total_insert]
      omega

theorem Numbered.put (h : Numbered s)
    (hresolve : resolve s handle = some object) (hnull : object = none → out.after = none) :
    Numbered (s.put handle out) where
  next := by
    rw [nextHandle_put]
    have := h.next
    omega
  live other hmem := by
    obtain ⟨o, hlookup⟩ := lookup_of_mem hmem
    rw [nextHandle_put]
    rcases lookup_put hlookup with ⟨rfl, hfresh⟩ | ⟨rfl, hafter⟩ | ⟨-, hbefore⟩
    · have := h.next
      simp only [hfresh, Option.isSome_some, if_true]
      omega
    · rcases resolve_spec hresolve with ⟨-, hnone⟩ | ⟨-, o', -, hlookup'⟩
      · rw [hnull hnone] at hafter
        cases hafter
      · have := h.live _ (mem_of_lookup hlookup')
        omega
    · have := h.live _ (mem_of_lookup hbefore)
      omega

end Table

section Logs

variable (calls call)

theorem effects_concat : effects (calls ++ [call]) = effects calls ++ call.effects := by
  simp [effects]

theorem pushed_concat :
    pushed (calls ++ [call]) = pushed calls ++ call.effects.filterMap Effect.pushed := by
  rw [pushed, effects_concat, filterMap_append, ← pushed]

theorem popped_concat :
    popped (calls ++ [call]) = popped calls ++ call.effects.filterMap Effect.popped := by
  rw [popped, effects_concat, filterMap_append, ← popped]

theorem cleared_concat :
    cleared (calls ++ [call]) = cleared calls ++ call.effects.filterMap Effect.cleared := by
  rw [cleared, effects_concat, filterMap_append, ← cleared]

theorem inputs_concat : inputs (calls ++ [call]) = inputs calls ++ call.input.toList := by
  rw [inputs, filterMap_append, ← inputs]
  cases hinput : call.input <;> simp [hinput]

variable (log log' : List (Nat × ChannelQueueEntry α))

theorem entriesOf_append :
    entriesOf handle (log ++ log') = entriesOf handle log ++ entriesOf handle log' := by
  simp [entriesOf]

variable {log}

theorem entriesOf_eq_map (h : ∀ item ∈ log, item.1 = handle) :
    entriesOf handle log = log.map (·.2) := by
  rw [entriesOf, filter_eq_self.mpr]
  simpa using h

theorem entriesOf_eq_nil (h : ∀ item ∈ log, item.1 ≠ handle) : entriesOf handle log = [] := by
  rw [entriesOf, filter_eq_nil_iff.mpr]
  · rfl
  · simpa using h

end Logs

section Facts

def receivers : Object α → Nat
  | .pair _ receiver => receiver.toNat
  | .receiver => 1
  | _ => 0

theorem channelDropReceiver_dead (inner : ChannelInner α) :
    (channelDropReceiver inner).1.receiverAlive = false := by
  cases halive : inner.receiverAlive <;> simp [channelDropReceiver, halive]

/-- A channel that still has its receiver has the object that stands for it. -/
theorem entry_receiver {inner : ChannelInner α} {next : Nat} {op : Op α}
    (h : entry inner next op object = some out)
    (halive : out.inner.receiverAlive = true) :
    weigh receivers object ≤ weigh receivers out.after + weigh receivers out.fresh := by
  rcases object with _ | o
  · exact Nat.zero_le _
  cases o with
  | pair sender receiver =>
    cases op with
    | pairSender => cases sender <;> cases h <;> simp [receivers]
    | pairReceiver => cases receiver <;> cases h <;> simp [receivers]
    | pairFree =>
      cases receiver with
      | false => exact Nat.zero_le _
      | true =>
        rw [← Option.some.inj h] at halive
        exact Bool.noConfusion (halive.symm.trans
          (channelDropReceiver_dead (if sender then channelDropSender inner else inner)))
    | poll kind | result kind | cancel kind | drop kind => cases kind <;> cases h
    | _ => cases h
  | receiver =>
    cases op with
    | receiverDrop =>
      rw [← Option.some.inj h] at halive
      exact Bool.noConfusion (halive.symm.trans (channelDropReceiver_dead inner))
    | recvI64Start | recvStart =>
      simp only [entry, channelRecvI64Start, channelRecvStart] at h
      split_ifs at h <;> cases h <;> exact Nat.le_add_right _ _
    | poll kind | result kind | cancel kind | drop kind => cases kind <;> cases h
    | _ => cases h
  | _ => exact Nat.zero_le _

/-- The facts about the entry point behind a step. -/
structure StepFacts (s : State α) (call : Call α) (t : State α) (object : Option (Object α))
    (out : Outcome α) : Prop where
  resolve : resolve s call.op.handle = some object
  entry : entry s.inner s.nextHandle call.op object = some out
  state : t = s.put call.op.handle out
  made : call = ⟨call.op, out.reply, out.effects⟩
  ready : Ready s.inner object
  queue : KeepsQueue s.inner object out
  follows : Follows s.inner s.nextHandle call.op object out

namespace StepFacts

section

variable (h : StepFacts s call t object out)
include h

theorem inner_eq : t.inner = out.inner := by
  rw [h.state, inner_put]

theorem effects_eq : call.effects = out.effects := by
  rw [h.made]

theorem input_eq : call.input = Call.input ⟨call.op, out.reply, out.effects⟩ := by
  rw [← h.made]

theorem next_le : s.nextHandle ≤ t.nextHandle := by
  rw [h.state, nextHandle_put]
  omega

theorem numbered (hnumbered : Numbered s) : Numbered t := by
  rw [h.state]
  exact hnumbered.put h.resolve fun hnone => (h.follows.null hnone).1

theorem total (hnumbered : Numbered s)
    (f : Object α → Nat) :
    t.objects.total f + weigh f object =
      s.objects.total f + weigh f out.after + weigh f out.fresh := by
  rw [h.state]
  exact total_put f hnumbered h.resolve

theorem handle_lt (hnumbered : Numbered s) : call.op.handle < s.nextHandle := by
  rcases resolve_spec h.resolve with ⟨hzero, -⟩ | ⟨-, o, -, hlookup⟩
  · rw [hzero]
    exact hnumbered.next
  · exact (hnumbered.live _ (mem_of_lookup hlookup)).2

/-- The logs of a handle grow only by calls on it. -/
theorem logged (handle : Nat) {select : Effect α → Option (Nat × ChannelQueueEntry α)}
    (hown : ∀ item ∈ out.effects.filterMap select, item.1 = call.op.handle) :
    entriesOf handle ((effects (calls ++ [call])).filterMap select) =
      entriesOf handle ((effects calls).filterMap select) ++
        if handle = call.op.handle then (out.effects.filterMap select).map (·.2) else [] := by
  rw [effects_concat, filterMap_append, entriesOf_append, h.effects_eq]
  congr 1
  split_ifs with heq
  · exact entriesOf_eq_map (heq ▸ hown)
  · exact entriesOf_eq_nil fun item hitem hitem' => heq (hitem'.symm.trans (hown item hitem))

theorem pushed_eq (handle : Nat) : entriesOf handle (pushed (calls ++ [call])) =
    entriesOf handle (pushed calls) ++
      if handle = call.op.handle then (pushesIn out).map (·.2) else [] :=
  h.logged handle fun item hitem => h.follows.own item (mem_append_left _ hitem)

theorem popped_eq (handle : Nat) : entriesOf handle (popped (calls ++ [call])) =
    entriesOf handle (popped calls) ++
      if handle = call.op.handle then (popsIn out).map (·.2) else [] :=
  h.logged handle fun item hitem => h.follows.own item (mem_append_right _ hitem)

theorem inputs_of_ne (hne : handle ≠ s.nextHandle) :
    entriesOf handle (inputs (calls ++ [call])) = entriesOf handle (inputs calls) := by
  have hnew : entriesOf handle call.input.toList = [] := by
    apply entriesOf_eq_nil
    intro item hitem heq
    rw [h.input_eq] at hitem
    exact hne (heq.symm.trans (h.follows.input item (Option.mem_toList.mp hitem)).1)
  rw [inputs_concat, entriesOf_append, hnew, append_nil]

end

end StepFacts

theorem entriesOf_next {log : List (Nat × ChannelQueueEntry α)}
    (h : ∀ item ∈ log, item.1 < s.nextHandle) : entriesOf s.nextHandle log = [] :=
  entriesOf_eq_nil fun item hitem => Nat.ne_of_lt (h item hitem)

end Facts

section Invariant

variable [DecidableEq α]

/-- What holds of a state and of the calls that led to it. -/
structure Inv (calls : List (Call α)) (s : State α) : Prop where
  numbered : Numbered s
  inner : Ready s.inner none
  senders : s.inner.senderCount = s.objects.total Channel.senders
  receiver : s.inner.receiverAlive = true → 0 < s.objects.total receivers
  typed : ∀ handle o, s.objects.lookup handle = some o → Typed s.inner.descriptor.isSome o
  tracks : ∀ handle o, s.objects.lookup handle = some o →
    Tracks (entriesOf handle (inputs calls)) (entriesOf handle (pushed calls))
      (entriesOf handle (popped calls)) o
  logs : ∀ log ∈ inputs calls ++ pushed calls ++ popped calls, log.1 < s.nextHandle
  closed : ∀ handle o, s.objects.lookup handle = some o → ReportsClosed o →
    s.inner.closed = true ∧ s.inner.queue = []
  order : (pushed calls).map (·.2) = (popped calls).map (·.2) ++ cleared calls ++ s.inner.queue
  alive : s.inner.receiverAlive = true → cleared calls = []
  balance : ∀ p, (calls.filterMap Call.passed).count p =
    s.objects.total (owns p) + inQueue p s.inner.queue + disposedIn p (effects calls) +
      (calls.filterMap Call.left).count p

section

variable (hinv : Inv calls s)
include hinv

theorem Inv.ready (hresolve : resolve s handle = some object) : Ready s.inner object := by
  refine { hinv.inner with counted := ?_, typed := ?_ }
  · rcases resolve_spec hresolve with ⟨-, rfl⟩ | ⟨-, o, rfl, hlookup⟩
    · exact Nat.zero_le _
    · rw [hinv.senders, ← total_erase Channel.senders hlookup, weigh_some]
      omega
  · rintro o rfl
    rcases resolve_spec hresolve with ⟨-, hnone⟩ | ⟨-, o', ho', hlookup⟩
    · cases hnone
    · cases ho'
      exact hinv.typed handle o hlookup

theorem Inv.facts (hstep : Step s call t) : ∃ object out, StepFacts s call t object out := by
  obtain ⟨object, out, hresolve, hentry, hstate, hcall⟩ := step_iff.mp hstep
  have hready := hinv.ready hresolve
  exact ⟨object, out, hresolve, hentry, hstate, hcall, hready,
    entry_keepsQueue hready hinv.numbered.next hentry,
    entry_follows hready hinv.numbered.next hentry⟩

theorem Inv.tracks_step (h : StepFacts s call t object out) {o : Object α}
    (hlookup : t.objects.lookup handle = some o) :
    Tracks (entriesOf handle (inputs (calls ++ [call])))
      (entriesOf handle (pushed (calls ++ [call]))) (entriesOf handle (popped (calls ++ [call])))
      o := by
  have hlt := h.handle_lt hinv.numbered
  have hlogs := hinv.logs
  simp only [mem_append] at hlogs
  rw [h.state] at hlookup
  rcases lookup_put hlookup with ⟨rfl, hfresh⟩ | ⟨rfl, hafter⟩ | ⟨hne, hbefore⟩
  · -- the new handle has no log yet but its own start
    rw [h.pushed_eq, h.popped_eq, if_neg (Nat.ne_of_gt hlt), if_neg (Nat.ne_of_gt hlt), append_nil,
      append_nil, entriesOf_next fun item hitem => hlogs item (.inl (.inr hitem)),
      entriesOf_next fun item hitem => hlogs item (.inr hitem), inputs_concat, entriesOf_append,
      entriesOf_next fun item hitem => hlogs item (.inl (.inl hitem)), nil_append, h.input_eq,
      entriesOf_eq_map]
    · exact h.follows.starts o hfresh
    · exact fun item hitem => (h.follows.input item (Option.mem_toList.mp hitem)).1
  · rw [h.inputs_of_ne (Nat.ne_of_lt hlt), h.pushed_eq, h.popped_eq, if_pos rfl, if_pos rfl]
    rcases resolve_spec h.resolve with ⟨-, hnone⟩ | ⟨-, o', ho', hlookup'⟩
    · rw [(h.follows.null hnone).1] at hafter
      cases hafter
    · exact h.follows.keeps o' o _ _ _ ho' hafter (hinv.tracks _ o' hlookup')
  · have hold := (hinv.numbered.live _ (mem_of_lookup hbefore)).2
    rw [h.inputs_of_ne (Nat.ne_of_lt hold), h.pushed_eq, h.popped_eq, if_neg hne, if_neg hne,
      append_nil, append_nil]
    exact hinv.tracks handle o hbefore

theorem Inv.order_step (h : StepFacts s call t object out) :
    (pushed (calls ++ [call])).map (·.2) =
        (popped (calls ++ [call])).map (·.2) ++ cleared (calls ++ [call]) ++ t.inner.queue ∧
      (t.inner.receiverAlive = true → cleared (calls ++ [call]) = []) := by
  have hfifo := h.queue.fifo
  simp only [pushesIn, popsIn, clearsIn] at hfifo
  rw [pushed_concat, popped_concat, cleared_concat, h.effects_eq, h.inner_eq, map_append,
    map_append, hinv.order]
  constructor
  · cases halive : s.inner.receiverAlive with
    | true =>
      simp only [hinv.alive halive, nil_append, append_assoc] at hfifo ⊢
      rw [hfifo]
    | false =>
      have hpush := h.queue.quiet (.inr halive)
      rw [pushesIn] at hpush
      rw [hinv.inner.dead halive, hpush] at hfifo ⊢
      simp only [map_nil, append_nil, nil_eq, append_eq_nil_iff] at hfifo
      obtain ⟨⟨hpop, hclear⟩, hqueue⟩ := hfifo
      simp [hpop, hclear, hqueue]
  · intro halive
    obtain ⟨hbefore, hclear⟩ := h.queue.alive halive
    rw [hinv.alive hbefore, ← h.effects_eq]
    rw [clearsIn, ← h.effects_eq] at hclear
    exact hclear

theorem Inv.balance_step (h : StepFacts s call t object out) (p : α) :
    ((calls ++ [call]).filterMap Call.passed).count p =
      t.objects.total (owns p) + inQueue p t.inner.queue +
        disposedIn p (effects (calls ++ [call])) +
        ((calls ++ [call]).filterMap Call.left).count p := by
  have hbefore := hinv.balance p
  have htotal := h.total hinv.numbered (owns p)
  have hlocal : Balanced p s.inner call.op object out :=
    entry_balance h.ready hinv.numbered.next h.entry
  unfold Balanced at hlocal
  rw [← h.made, ← h.effects_eq] at hlocal
  have hpassed : ([call].filterMap Call.passed) = call.passed.toList := by
    cases hp : call.passed <;> simp [hp]
  have hleft : ([call].filterMap Call.left) = call.left.toList := by
    cases hl : call.left <;> simp [hl]
  have hdisposed : disposedIn p (effects (calls ++ [call])) =
      disposedIn p (effects calls) + disposedIn p call.effects := by
    rw [effects_concat, disposedIn, filterMap_append, count_append]
    rfl
  rw [filterMap_append, filterMap_append, count_append, count_append, hpassed,
    hleft, hdisposed, h.inner_eq]
  omega

theorem Inv.step (hstep : Step s call t) : Inv (calls ++ [call]) t := by
  obtain ⟨object, out, h⟩ := hinv.facts hstep
  have hlt := h.handle_lt hinv.numbered
  have hnext := h.next_le
  obtain ⟨horder, halive⟩ := hinv.order_step h
  refine ⟨h.numbered hinv.numbered, ?_, ?_, ?_, ?_, fun _ _ => hinv.tracks_step h, ?_, ?_, horder,
    halive, hinv.balance_step h⟩
  · rw [h.inner_eq]
    exact h.queue.ready (Nat.zero_le _) nofun
  · have htotal := h.total hinv.numbered Channel.senders
    have hqueue := h.queue.senders
    rw [hinv.senders] at hqueue
    rw [h.inner_eq]
    omega
  · intro ht
    rw [h.inner_eq] at ht
    have htotal := h.total hinv.numbered receivers
    have hbefore := hinv.receiver (h.queue.alive ht).1
    have := entry_receiver h.entry ht
    omega
  · intro handle o hlookup
    rw [h.inner_eq, h.queue.descriptor]
    rw [h.state] at hlookup
    rcases lookup_put hlookup with ⟨-, hfresh⟩ | ⟨-, hafter⟩ | ⟨-, hbefore⟩
    · exact h.follows.typed o (.inr hfresh)
    · exact h.follows.typed o (.inl hafter)
    · exact hinv.typed handle o hbefore
  · intro log hlog
    simp only [inputs_concat, pushed_concat, popped_concat, mem_append, h.effects_eq,
      Option.mem_toList, h.input_eq] at hlog
    have hlogs := hinv.logs
    simp only [mem_append] at hlogs
    rcases hlog with ((hold | hnew) | (hold | hnew)) | (hold | hnew)
    · exact Nat.lt_of_lt_of_le (hlogs log (.inl (.inl hold))) hnext
    · obtain ⟨heq, hfresh⟩ := h.follows.input log hnew
      rw [heq, h.state, nextHandle_put, hfresh]
      exact Nat.lt_succ_self _
    · exact Nat.lt_of_lt_of_le (hlogs log (.inl (.inr hold))) hnext
    · rw [h.follows.own log (mem_append_left _ hnew)]
      exact Nat.lt_of_lt_of_le hlt hnext
    · exact Nat.lt_of_lt_of_le (hlogs log (.inr hold)) hnext
    · rw [h.follows.own log (mem_append_right _ hnew)]
      exact Nat.lt_of_lt_of_le hlt hnext
  · intro handle o hlookup hreports
    rw [h.state] at hlookup
    have hbefore : s.inner.closed = true ∧ s.inner.queue = [] := by
      have hlocal : (∃ o', object = some o' ∧ ReportsClosed o') ∨
          s.inner.closed = true ∧ s.inner.queue = [] →
          s.inner.closed = true ∧ s.inner.queue = [] := by
        rintro (⟨o', rfl, hclosed⟩ | hclosed)
        · rcases resolve_spec h.resolve with ⟨-, hnone⟩ | ⟨-, o'', ho'', hlookup'⟩
          · cases hnone
          · cases ho''
            exact hinv.closed _ o' hlookup' hclosed
        · exact hclosed
      rcases lookup_put hlookup with ⟨-, hfresh⟩ | ⟨-, hafter⟩ | ⟨-, hbefore⟩
      · exact hlocal (h.follows.closed o (.inr hfresh) hreports)
      · exact hlocal (h.follows.closed o (.inl hafter) hreports)
      · exact hinv.closed handle o hbefore hreports
    have hfifo := h.queue.fifo
    rw [h.queue.quiet (.inl hbefore.1), hbefore.2] at hfifo
    simp only [map_nil, append_nil, nil_eq, append_eq_nil_iff] at hfifo
    rw [h.inner_eq]
    exact ⟨h.queue.stays hbefore.1, hfifo.2⟩

end

end Invariant

section Past

variable [DecidableEq α]

/-- What the calls of the past mean for good: a consumed future takes no further
part, and the results of sends and receives agree with the logs. -/
structure Past (calls : List (Call α)) (s : State α) : Prop where
  consumed : ∀ before call after, calls = before ++ call :: after → call.op.consumes = true →
    call.op.handle ≠ 0 → call.op.handle ∉ s.objects ∧ call.op.handle < s.nextHandle ∧
      entriesOf call.op.handle (pushed calls) = entriesOf call.op.handle (pushed before) ∧
      entriesOf call.op.handle (popped calls) = entriesOf call.op.handle (popped before)
  sent : ∀ call ∈ calls, ∀ kind handle, call.op = .result kind handle → handle ≠ 0 →
    kind = .sendI64 ∨ kind = .send → ∃ entry, entriesOf handle (inputs calls) = [entry] ∧
      entriesOf handle (pushed calls) = if call.succeeded then [entry] else []
  received : ∀ call ∈ calls, ∀ kind handle, call.op = .result kind handle → handle ≠ 0 →
    kind = .recvI64 ∨ kind = .recv → entriesOf handle (popped calls) = call.handed.toList

omit [DecidableEq α] in
/-- A handle that is gone is not used again. -/
theorem StepFacts.frozen (h : StepFacts s call t object out) (hgone : handle ∉ s.objects)
    (hlt : handle < s.nextHandle) (hne : handle ≠ 0) :
    handle ≠ call.op.handle ∧ handle ∉ t.objects := by
  have hother : handle ≠ call.op.handle := by
    rintro rfl
    rcases resolve_spec h.resolve with ⟨hzero, -⟩ | ⟨-, o, -, hlookup⟩
    · exact hne hzero
    · exact hgone (mem_of_lookup hlookup)
  refine ⟨hother, fun hmem => ?_⟩
  obtain ⟨o, hlookup⟩ := lookup_of_mem hmem
  rw [h.state] at hlookup
  rcases lookup_put hlookup with ⟨heq, -⟩ | ⟨heq, -⟩ | ⟨-, hbefore⟩
  · exact Nat.ne_of_lt hlt heq
  · exact hother heq
  · exact hgone (mem_of_lookup hbefore)

omit [DecidableEq α] in
theorem StepFacts.consumed (h : StepFacts s call t object out) (hnumbered : Numbered s)
    (hconsumes : call.op.consumes = true) :
    call.op.handle ∉ t.objects ∧ pushesIn out = [] ∧ popsIn out = [] := by
  have hafter := consumes_spec hconsumes h.entry
  refine ⟨fun hmem => ?_, h.follows.ends hafter⟩
  obtain ⟨o, hlookup⟩ := lookup_of_mem hmem
  rw [h.state] at hlookup
  rcases lookup_put hlookup with ⟨heq, -⟩ | ⟨-, hsome⟩ | ⟨hne, -⟩
  · exact Nat.ne_of_lt (h.handle_lt hnumbered) heq
  · rw [hafter] at hsome
    cases hsome
  · exact hne rfl

theorem Past.consumed_step (hpast : Past calls s) (hinv : Inv calls s)
    (h : StepFacts s call t object out)
    {before after : List (Call α)} {call' : Call α}
    (hcalls : calls ++ [call] = before ++ call' :: after) (hconsumes : call'.op.consumes = true)
    (hne : call'.op.handle ≠ 0) :
    call'.op.handle ∉ t.objects ∧ call'.op.handle < t.nextHandle ∧
      entriesOf call'.op.handle (pushed (calls ++ [call])) =
        entriesOf call'.op.handle (pushed before) ∧
      entriesOf call'.op.handle (popped (calls ++ [call])) =
        entriesOf call'.op.handle (popped before) := by
  rcases eq_nil_or_concat after with rfl | ⟨rest, last, rfl⟩
  · -- the future is consumed by the new call
    obtain ⟨rfl, hlast⟩ := append_inj' hcalls rfl
    cases hlast
    obtain ⟨hgone, hpush, hpop⟩ := h.consumed hinv.numbered hconsumes
    refine ⟨hgone, Nat.lt_of_lt_of_le (h.handle_lt hinv.numbered) h.next_le, ?_, ?_⟩
    · rw [h.pushed_eq, hpush, map_nil, ite_self, append_nil]
    · rw [h.popped_eq, hpop, map_nil, ite_self, append_nil]
  · obtain ⟨rfl, -⟩ := append_inj' (by simpa using hcalls : calls ++ [call] =
      (before ++ call' :: rest) ++ [last]) rfl
    obtain ⟨hgone, hlt, hpushed, hpopped⟩ := hpast.consumed before call' rest rfl hconsumes hne
    obtain ⟨hother, hgone'⟩ := h.frozen hgone hlt hne
    refine ⟨hgone', Nat.lt_of_lt_of_le hlt h.next_le, ?_, ?_⟩
    · rw [h.pushed_eq, if_neg hother, append_nil, hpushed]
    · rw [h.popped_eq, if_neg hother, append_nil, hpopped]

theorem Past.step (hpast : Past calls s) (hinv : Inv calls s) (hstep : Step s call t) :
    Past (calls ++ [call]) t := by
  obtain ⟨object, out, h⟩ := hinv.facts hstep
  have hlt := h.handle_lt hinv.numbered
  -- the result of an earlier call is about a future that is gone
  have hold : ∀ call' ∈ calls, ∀ kind handle, call'.op = .result kind handle → handle ≠ 0 →
      handle ≠ call.op.handle ∧ handle < s.nextHandle := by
    intro call' hmem kind handle hop hne
    obtain ⟨before, after, rfl⟩ := append_of_mem hmem
    obtain ⟨hgone, hlt', -, -⟩ := hpast.consumed before call' after rfl (by rw [hop]; rfl)
      (by rw [hop]; exact hne)
    rw [hop] at hgone hlt'
    exact ⟨(h.frozen hgone hlt' hne).1, hlt'⟩
  -- and the result of the new call is about the future it consumes
  have hnew : ∀ kind handle, call.op = .result kind handle → handle ≠ 0 →
      ∃ o, s.objects.lookup handle = some o ∧
        entry s.inner s.nextHandle (.result kind handle) (some o) = some out ∧
        pushesIn out = [] ∧ popsIn out = [] := by
    intro kind handle hop hne
    have hconsumes : call.op.consumes = true := by rw [hop]; rfl
    obtain ⟨-, hpush, hpop⟩ := h.consumed hinv.numbered hconsumes
    have hresolve := h.resolve
    have hentry := h.entry
    rw [hop] at hresolve hentry
    rcases resolve_spec hresolve with ⟨hzero, -⟩ | ⟨-, o, rfl, hlookup⟩
    · exact absurd hzero hne
    · exact ⟨o, hlookup, hentry, hpush, hpop⟩
  refine ⟨fun _ _ _ => hpast.consumed_step hinv h, ?_, ?_⟩
  · intro call' hmem kind handle hop hne hkind
    rcases mem_append.mp hmem with hmem | hmem
    · obtain ⟨hother, hlt'⟩ := hold call' hmem kind handle hop hne
      rw [h.inputs_of_ne (Nat.ne_of_lt hlt'), h.pushed_eq, if_neg hother, append_nil]
      exact hpast.sent call' hmem kind handle hop hne hkind
    · obtain rfl := mem_singleton.mp hmem
      obtain ⟨o, hlookup, hentry, hpush, -⟩ := hnew kind handle hop hne
      have hhandle : call'.op.handle = handle := by rw [hop]; rfl
      have htracks := hinv.tracks handle o hlookup
      obtain ⟨hlength, hpushed⟩ := sendResult_spec hkind hentry htracks
      obtain ⟨entry, hentry'⟩ := length_eq_one_iff.mp hlength
      refine ⟨entry, ?_, ?_⟩
      · rw [← hhandle, h.inputs_of_ne (Nat.ne_of_lt hlt), hhandle, hentry']
      · rw [h.pushed_eq, hpush, map_nil, ite_self, append_nil, hpushed, hentry', h.made, hop]
  · intro call' hmem kind handle hop hne hkind
    rcases mem_append.mp hmem with hmem | hmem
    · obtain ⟨hother, hlt'⟩ := hold call' hmem kind handle hop hne
      rw [h.popped_eq, if_neg hother, append_nil]
      exact hpast.received call' hmem kind handle hop hne hkind
    · obtain rfl := mem_singleton.mp hmem
      obtain ⟨o, hlookup, hentry, -, hpop⟩ := hnew kind handle hop hne
      rw [h.popped_eq, hpop, map_nil, ite_self, append_nil,
        ← recvResult_spec hkind hentry (hinv.tracks handle o hlookup), h.made, hop]

end Past

section Runs

variable [DecidableEq α]

theorem newChannel_inv (capacity : Nat) (descriptor : Option SengooTypeDescriptor) :
    Inv [] (newChannel (α := α) capacity descriptor) := by
  have hlookup : ∀ handle (o : Object α),
      (newChannel capacity descriptor).objects.lookup handle = some o → o = .pair true true := by
    intro handle o h
    have hmem := mem_entries_iff.mpr h
    simp only [newChannel, AList.singleton_entries, mem_singleton, Sigma.mk.injEq,
      heq_eq_eq] at hmem
    exact hmem.2
  refine ⟨⟨Nat.zero_lt_two, ?_⟩, ⟨Nat.zero_le _, by simp [newChannel], Nat.zero_le _, by simp [newChannel],
    by simp [newChannel], nofun⟩, rfl, fun _ => Nat.zero_lt_one, ?_, ?_, by simp [inputs, pushed,
    popped, effects], ?_, rfl, fun _ => rfl, fun p => ?_⟩
  · intro handle hmem
    have : handle = 1 := by simpa [newChannel, AList.mem_keys] using hmem
    subst this
    exact ⟨Nat.zero_lt_one, Nat.one_lt_two⟩
  · intro handle o h
    rw [hlookup handle o h]
    trivial
  · intro handle o h
    rw [hlookup handle o h]
    exact ⟨rfl, rfl⟩
  · intro handle o h hclosed
    rw [hlookup handle o h] at hclosed
    exact hclosed.elim
  · rfl

theorem run_inv {capacity : Nat} {descriptor : Option SengooTypeDescriptor}
    (hrun : Run Step (newChannel capacity descriptor) calls s) : Inv calls s ∧ Past calls s := by
  refine hrun.invariant (P := fun calls s => Inv calls s ∧ Past calls s)
    ⟨newChannel_inv capacity descriptor, ?_, nofun, nofun⟩ ?_
  · intro before call after h
    simp at h
  · rintro calls s call t - ⟨hinv, hpast⟩ hstep
    exact ⟨hinv.step hstep, hpast.step hinv hstep⟩

/-- What a channel guarantees of the calls made on it and of its state. -/
structure Delivers (calls : List (Call α)) (s : State α) : Prop where
  /-- The queue never exceeds its capacity. -/
  room : s.inner.queue.length ≤ s.inner.capacity
  /-- A send with the result success has pushed its value once, any other nothing. -/
  sent : ∀ call ∈ calls, ∀ kind handle, call.op = .result kind handle → handle ≠ 0 →
    kind = .sendI64 ∨ kind = .send → ∃ entry, entriesOf handle (inputs calls) = [entry] ∧
      entriesOf handle (pushed calls) = if call.succeeded then [entry] else []
  /-- Nothing is pushed or popped for a future after its result or cancellation. -/
  consumed : ∀ before call after, calls = before ++ call :: after → call.op.consumes = true →
    call.op.handle ≠ 0 →
      entriesOf call.op.handle (pushed calls) = entriesOf call.op.handle (pushed before) ∧
      entriesOf call.op.handle (popped calls) = entriesOf call.op.handle (popped before)
  /-- The live futures agree with what was pushed and popped for them. -/
  tracks : ∀ handle o, s.objects.lookup handle = some o →
    Tracks (entriesOf handle (inputs calls)) (entriesOf handle (pushed calls))
      (entriesOf handle (popped calls)) o
  /-- Values are popped in the order in which they were pushed; only the drop of
  the receiver clears some. -/
  order : (pushed calls).map (·.2) = (popped calls).map (·.2) ++ cleared calls ++ s.inner.queue
  alive : s.inner.receiverAlive = true → cleared calls = []
  /-- The result of a receive hands out what was popped for it. -/
  received : ∀ call ∈ calls, ∀ kind handle, call.op = .result kind handle → handle ≠ 0 →
    kind = .recvI64 ∨ kind = .recv → entriesOf handle (popped calls) = call.handed.toList
  /-- A receive finds the channel closed when no sender and no value is left. -/
  closed : ∀ handle o, s.objects.lookup handle = some o → ReportsClosed o →
    s.objects.total senders = 0 ∧ s.inner.queue = []
  /-- A payload is held in one place, has been disposed of once, or is left to the caller. -/
  balance : ∀ p, (calls.filterMap Call.passed).count p =
    s.objects.total (owns p) + inQueue p s.inner.queue + disposedIn p (effects calls) +
      (calls.filterMap Call.left).count p
  /-- Once all handles are consumed nothing is held. -/
  empty : s.objects = ∅ → s.inner.queue = []

theorem channel_delivers (capacity : Nat) (descriptor : Option SengooTypeDescriptor)
    (calls : List (Call α)) (s : State α)
    (hrun : Run Step (newChannel capacity descriptor) calls s) : Delivers calls s := by
  obtain ⟨hinv, hpast⟩ := run_inv hrun
  refine ⟨hinv.inner.room, hpast.sent, ?_, hinv.tracks, hinv.order, hinv.alive, hpast.received, ?_,
    hinv.balance, ?_⟩
  · intro before call after hcalls hconsumes hne
    exact (hpast.consumed before call after hcalls hconsumes hne).2.2
  · intro handle o hlookup hreports
    obtain ⟨hclosed, hqueue⟩ := hinv.closed handle o hlookup hreports
    rw [← hinv.senders]
    exact ⟨hinv.inner.closed.mp hclosed, hqueue⟩
  · intro hempty
    apply hinv.inner.dead
    cases halive : s.inner.receiverAlive with
    | false => rfl
    | true =>
      have := hinv.receiver halive
      rw [hempty] at this
      exact absurd this (Nat.lt_irrefl 0)

/-- Two sends, a receive that is cancelled after its poll, and a second receive. -/
def cancelledReceive : List (Op Unit) :=
  [.pairSender 1, .pairReceiver 1, .sendI64Start 2 7, .poll .sendI64 4, .sendI64Start 2 8,
    .poll .sendI64 5, .recvI64Start 3, .poll .recvI64 6, .cancel .recvI64 6, .recvI64Start 3,
    .poll .recvI64 7, .result .recvI64 7]

/-- The value a receive took is lost when the receive is cancelled: 7 and 8 are
accepted, the receiver is there, and only 8 is handed out. -/
theorem cancelled_receive_loses_value :
    ∃ calls s, Run Step (newChannel 2 none) calls s ∧ calls.map (·.op) = cancelledReceive ∧
      s.inner.receiverAlive = true ∧ s.inner.queue = [] ∧
      (pushed calls).map (·.2) = [.i64 7, .i64 8] ∧ calls.filterMap Call.handed = [.i64 8] := by
  obtain ⟨⟨s, calls⟩, h⟩ : ∃ result, execAll (newChannel 2 none) cancelledReceive = some result :=
    ⟨_, rfl⟩
  refine ⟨calls, s, execAll_run h, ?_⟩
  cases h
  exact ⟨rfl, rfl, rfl, rfl, rfl⟩

/-- In the same run, all that was taken is accounted for. -/
theorem channel_delivers_cancelled :
    ∃ calls s, Run Step (newChannel 2 none) calls s ∧ calls.map (·.op) = cancelledReceive ∧
      (popped calls).map (·.2) = [.i64 7, .i64 8] ∧ Delivers calls s := by
  obtain ⟨⟨s, calls⟩, h⟩ : ∃ result, execAll (newChannel 2 none) cancelledReceive = some result :=
    ⟨_, rfl⟩
  refine ⟨calls, s, execAll_run h, ?_, ?_, channel_delivers 2 none calls s (execAll_run h)⟩
  · cases h
    rfl
  · cases h
    rfl

end Runs

end Sengoo.Runtime.Channel
