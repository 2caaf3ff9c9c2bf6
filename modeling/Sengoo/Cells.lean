import Mathlib.Data.List.Basic
import Mathlib.Data.List.Induction
import Mathlib.Algebra.Order.Group.Multiset
import Mathlib.Tactic.Abel

/-!
Buffers of cells that own what they hold. A cell is full or empty; taking from an
empty cell uses a value that is gone, putting into a full one or giving up a buffer
with a full one loses a value, and all three are faults.

The loops of a program over a buffer are counted loops that pass a state on; the
rules say what state they end in when every round does what it should. A sequence of
calls is compared with a specification whose steps tell the answer and what was
dropped; when each step keeps the books balanced, so does the sequence.
-/

namespace Sengoo.Cells

open List

inductive Fault where
  | outside
  | empty
  | occupied
  deriving DecidableEq

variable {α σ : Type}

def takeCell (cells : List (Option α)) (i : Nat) : Except Fault (α × List (Option α)) :=
  match cells[i]? with
  | none => .error .outside
  | some none => .error .empty
  | some (some a) => .ok (a, cells.set i none)

def putCell (cells : List (Option α)) (i : Nat) (a : α) : Except Fault (List (Option α)) :=
  match cells[i]? with
  | none => .error .outside
  | some none => .ok (cells.set i (some a))
  | some (some _) => .error .occupied

/-- Looking at a full cell without taking from it. -/
def readCell (cells : List (Option α)) (i : Nat) : Except Fault α :=
  match cells[i]? with
  | none => .error .outside
  | some none => .error .empty
  | some (some a) => .ok a

def moveCell (cells : List (Option α)) (target source : Nat) : Except Fault (List (Option α)) := do
  let (a, cells) ← takeCell cells source
  putCell cells target a

def moveAcross (target source : List (Option α)) (i : Nat) :
    Except Fault (List (Option α) × List (Option α)) := do
  let (a, source) ← takeCell source i
  let target ← putCell target i a
  .ok (target, source)

/-- Giving a buffer up: nothing may be left in it. -/
def giveUp (cells : List (Option α)) : Except Fault Unit :=
  if cells.all Option.isNone then .ok () else .error .occupied

/-- A buffer with its values at the front. -/
def packed (xs : List α) (room : Nat) : List (Option α) := xs.map some ++ List.replicate room none

/-- A buffer with one empty cell between its values. -/
def withHole (front back : List α) (room : Nat) : List (Option α) :=
  front.map some ++ none :: (back.map some ++ List.replicate room none)

section Cells

variable {front back xs : List α} {a : α} {room : Nat}

@[simp]
theorem length_packed (xs : List α) (room : Nat) : (packed xs room).length = xs.length + room := by
  simp [packed]

theorem packed_succ (xs : List α) (room : Nat) : packed xs (room + 1) = withHole xs [] room := by
  simp [packed, withHole, replicate_succ]

variable (front back : List α)

theorem packed_append_cons (a : α) (room : Nat) :
    packed (front ++ a :: back) room =
      front.map some ++ some a :: (back.map some ++ List.replicate room none) := by
  simp [packed]

variable {i : Nat}

theorem takeCell_at (before after : List (Option α)) (a : α) (hi : i = before.length) :
    takeCell (before ++ some a :: after) i = .ok (a, before ++ none :: after) := by
  subst hi
  simp [takeCell]

theorem putCell_at (before after : List (Option α)) (a : α) (hi : i = before.length) :
    putCell (before ++ none :: after) i a = .ok (before ++ some a :: after) := by
  subst hi
  simp [putCell]

theorem takeCell_packed (a : α) (room : Nat) (hi : i = front.length) :
    takeCell (packed (front ++ a :: back) room) i = .ok (a, withHole front back room) := by
  rw [packed_append_cons]
  exact takeCell_at _ _ a (by simpa using hi)

theorem putCell_withHole (a : α) (room : Nat) (hi : i = front.length) :
    putCell (withHole front back room) i a = .ok (packed (front ++ a :: back) room) := by
  rw [packed_append_cons]
  exact putCell_at _ _ a (by simpa using hi)

theorem readCell_packed (room : Nat) (hi : i < xs.length) :
    readCell (packed xs room) i = .ok xs[i] := by
  have hat : (packed xs room)[i]? = some (some xs[i]) := by
    rw [packed, getElem?_append_left (by simpa using hi), getElem?_map,
      getElem?_eq_getElem hi]
    rfl
  simp only [readCell, hat]

theorem moveCell_at {before after before' after' : List (Option α)} (a : α) {target source : Nat}
    (htaken : before ++ none :: after = before' ++ none :: after')
    (hsource : source = before.length) (htarget : target = before'.length) :
    moveCell (before ++ some a :: after) target source = .ok (before' ++ some a :: after') := by
  unfold moveCell
  rw [takeCell_at _ _ a hsource]
  change putCell _ target a = _
  rw [htaken, putCell_at _ _ a htarget]

/-- The value before the hole moves into it. -/
theorem moveCell_hole_left (a : α) (room target source : Nat) (hsource : source = front.length)
    (htarget : target = front.length + 1) :
    moveCell (withHole (front ++ [a]) back room) target source =
      .ok (withHole front (a :: back) room) := by
  have hmove := @moveCell_at α (front.map some) (none :: (back.map some ++ List.replicate room none))
    (front.map some ++ [none]) (back.map some ++ List.replicate room none) a target source (by simp)
    (by simpa using hsource) (by simpa using htarget)
  simpa [withHole] using hmove

/-- The value behind the hole moves into it. -/
theorem moveCell_hole_right (a : α) (room target source : Nat) (htarget : target = front.length)
    (hsource : source = front.length + 1) :
    moveCell (withHole front (a :: back) room) target source =
      .ok (withHole (front ++ [a]) back room) := by
  have hmove := @moveCell_at α (front.map some ++ [none]) (back.map some ++ List.replicate room none)
    (front.map some) (none :: (back.map some ++ List.replicate room none)) a target source (by simp)
    (by simpa using hsource) (by simpa using htarget)
  simpa [withHole] using hmove

/-- A buffer and its replacement after the values in front were moved across. -/
def relocating (front back : List α) (room room' : Nat) : List (Option α) × List (Option α) :=
  (packed front (back.length + room'), List.replicate front.length none ++ packed back room)

theorem relocating_start (xs : List α) (room room' : Nat) :
    relocating [] xs room room' = (List.replicate (xs.length + room') none, packed xs room) := by
  simp [relocating, packed]

theorem relocating_end (xs : List α) (room room' : Nat) :
    relocating xs [] room room' = (packed xs room', List.replicate (xs.length + room) none) := by
  simp [relocating, packed]

/-- A value moves to its place in the new buffer. -/
theorem moveAcross_relocating (a : α) (room room' : Nat) (hi : i = front.length) :
    moveAcross (relocating front (a :: back) room room').1
      (relocating front (a :: back) room room').2 i =
      .ok (relocating (front ++ [a]) back room room') := by
  have hsource : List.replicate front.length none ++ packed (a :: back) room =
      List.replicate front.length none ++ some a :: packed back room := by
    simp [packed]
  have hroom : (a :: back).length + room' = back.length + room' + 1 := Nat.add_right_comm _ _ _
  unfold moveAcross relocating
  rw [hsource, takeCell_at _ _ a (by simpa using hi)]
  change (do let target ← putCell _ i a; _) = _
  rw [hroom, packed_succ, putCell_withHole front [] a _ hi]
  simp [replicate_succ', bind, Except.bind]

theorem giveUp_replicate (n : Nat) : giveUp (List.replicate n (none : Option α)) = .ok () := by
  simp [giveUp]

end Cells

section Loops

/-- The loop that counts up from a position for some rounds. -/
def forUp (step : Nat → σ → Except Fault σ) : Nat → Nat → σ → Except Fault σ
  | _, 0, s => .ok s
  | i, n + 1, s => do
      let s ← step i s
      forUp step (i + 1) n s

/-- The loop whose cursor counts down to a base, exclusive. -/
def forDown (step : Nat → σ → Except Fault σ) (base : Nat) : Nat → σ → Except Fault σ
  | 0, s => .ok s
  | n + 1, s => do
      let s ← step (base + (n + 1)) s
      forDown step base n s

variable {β : Type} (step : Nat → σ → Except Fault σ) (I : List β → List β → σ → Prop)

/-- A loop that counts up along a list: each round takes the next element to those passed. -/
theorem forUp_rule (offset : Nat) (front back : List β) {s : σ} (hstart : I front back s)
    (hround : ∀ front b back s, I front (b :: back) s →
      ∃ s', step (front.length + offset) s = .ok s' ∧ I (front ++ [b]) back s') :
    ∃ s', forUp step (front.length + offset) back.length s = .ok s' ∧ I (front ++ back) [] s' := by
  induction back generalizing front s with
  | nil => exact ⟨s, rfl, (append_nil front).symm ▸ hstart⟩
  | cons b back ih =>
    obtain ⟨middle, hfirst, hmiddle⟩ := hround front b back s hstart
    obtain ⟨last, hrest, hlast⟩ := ih (front ++ [b]) hmiddle
    rw [length_append, Nat.add_right_comm] at hrest
    rw [append_assoc] at hlast
    refine ⟨last, ?_, hlast⟩
    rw [length_cons]
    unfold forUp
    rw [hfirst]
    exact hrest

/-- A loop that counts down along a list: each round takes back the last element passed. -/
theorem forDown_rule (front back rest : List β) {s : σ} (hstart : I (front ++ back) rest s)
    (hround : ∀ front b back s, I (front ++ [b]) back s →
      ∃ s', step (front.length + 1) s = .ok s' ∧ I front (b :: back) s') :
    ∃ s', forDown step front.length back.length s = .ok s' ∧ I front (back ++ rest) s' := by
  induction back using List.reverseRecOn generalizing rest s with
  | nil => exact ⟨s, rfl, append_nil front ▸ hstart⟩
  | append_singleton back b ih =>
    rw [← append_assoc] at hstart
    obtain ⟨middle, hfirst, hmiddle⟩ := hround (front ++ back) b rest s hstart
    obtain ⟨last, hrest, hlast⟩ := ih (b :: rest) hmiddle
    rw [length_append] at hfirst
    refine ⟨last, ?_, by rwa [append_assoc]⟩
    rw [length_append, length_singleton]
    unfold forDown
    rw [← Nat.add_assoc, hfirst]
    exact hrest

end Loops

section Calls

variable {τ γ δ ι : Type}

/-- Calls one after another, with their answers and all that was dropped. -/
def runCalls (call : σ → γ → Except Fault (δ × σ × List ι)) :
    List γ → σ → Except Fault (List δ × σ × List ι)
  | [], s => .ok ([], s, [])
  | c :: calls, s => do
      let (answer, s, dropped) ← call s c
      let (answers, s, rest) ← runCalls call calls s
      .ok (answer :: answers, s, dropped ++ rest)

/-- Steps of a specification one after another. -/
inductive SpecRun (spec : τ → γ → δ → List ι → τ → Prop) : τ → List γ → List δ → List ι → τ → Prop
  | nil (t : τ) : SpecRun spec t [] [] [] t
  | cons {t t' u : τ} {c : γ} {answer : δ} {dropped rest : List ι} {calls : List γ}
      {answers : List δ} :
      spec t c answer dropped t' → SpecRun spec t' calls answers rest u →
      SpecRun spec t (c :: calls) (answer :: answers) (dropped ++ rest) u

variable {spec : τ → γ → δ → List ι → τ → Prop}

/-- When every call answers as a step of the specification, every sequence of calls
does, without a fault. -/
theorem runCalls_refines {call : σ → γ → Except Fault (δ × σ × List ι)}
    {R : σ → τ → Prop}
    (hcall : ∀ s t c, R s t → ∃ answer s' dropped t',
      call s c = .ok (answer, s', dropped) ∧ spec t c answer dropped t' ∧ R s' t')
    (calls : List γ) (s : σ) (t : τ) (h : R s t) :
    ∃ answers s' dropped t', runCalls call calls s = .ok (answers, s', dropped) ∧
      SpecRun spec t calls answers dropped t' ∧ R s' t' := by
  induction calls generalizing s t with
  | nil => exact ⟨[], s, [], t, rfl, .nil t, h⟩
  | cons c calls ih =>
    obtain ⟨answer, s', dropped, t', hok, hspec, h'⟩ := hcall s t c h
    obtain ⟨answers, s'', rest, t'', hoks, hspecs, h''⟩ := ih s' t' h'
    refine ⟨answer :: answers, s'', dropped ++ rest, t'', ?_, .cons hspec hspecs, h''⟩
    unfold runCalls
    rw [hok]
    change (do let (answers, s, rest) ← runCalls call calls s'; _) = _
    rw [hoks]
    rfl

/-- What is given in is dropped, handed out or still held, each as often as given. -/
theorem SpecRun.balanced (given : γ → Multiset ι)
    (handed : δ → Multiset ι) (held : τ → Multiset ι)
    (hstep : ∀ t c answer dropped t', spec t c answer dropped t' →
      given c + held t = ↑dropped + handed answer + held t')
    {t t' : τ} {calls : List γ} {answers : List δ} {dropped : List ι}
    (hrun : SpecRun spec t calls answers dropped t') :
    (calls.map given).sum + held t = ↑dropped + (answers.map handed).sum + held t' := by
  induction hrun with
  | nil t => simp
  | @cons t t' u c answer dropped rest calls answers hspec _ ih =>
    have hfirst := hstep _ _ _ _ _ hspec
    calc ((c :: calls).map given).sum + held t = (given c + held t) + (calls.map given).sum := by
          rw [map_cons, sum_cons]
          abel
      _ = (↑dropped + handed answer) + ((calls.map given).sum + held t') := by
          rw [hfirst]
          abel
      _ = ↑(dropped ++ rest) + ((answer :: answers).map handed).sum + held u := by
          rw [ih, map_cons, sum_cons, ← Multiset.coe_add]
          abel

end Calls

end Sengoo.Cells
