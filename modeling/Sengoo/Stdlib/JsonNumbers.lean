import Mathlib.Data.List.TakeWhile
import Sengoo.Fallible
import Sengoo.Stdlib.JsonParse

/-!
Space and numbers: skipping is maximal, and the number scanner takes exactly the numbers
of the grammar, as far as one goes. What follows must not go on with the number, which
the bytes between values never do.
-/

namespace Sengoo.Stdlib

open Fallible Json List

section Spaces

/-- Nothing that `p` accepts comes next. -/
def Stops (p : UInt8 → Bool) (rest : Bytes) : Prop := ∀ b ∈ rest.head?, p b = false

theorem stops_nil (p : UInt8 → Bool) : Stops p [] := fun _ hb => nomatch hb

@[simp] theorem stops_cons {p : UInt8 → Bool} {b : UInt8} {rest : Bytes} :
    Stops p (b :: rest) ↔ p b = false := by
  simp [Stops]

theorem dropWhile_of_stops {p : UInt8 → Bool} {w rest : Bytes} (hw : ∀ b ∈ w, p b = true)
    (hrest : Stops p rest) : (w ++ rest).dropWhile p = rest := by
  rw [dropWhile_append_of_pos hw]
  cases rest with
  | nil => rfl
  | cons b rest => rw [dropWhile_cons_of_neg (by simp [stops_cons.mp hrest])]

/-- Skipping takes what `p` accepts and stops at something else. -/
theorem exists_dropWhile (p : UInt8 → Bool) (rest : Bytes) :
    ∃ w, (∀ b ∈ w, p b = true) ∧ rest = w ++ rest.dropWhile p ∧ Stops p (rest.dropWhile p) := by
  refine ⟨rest.takeWhile p, fun b hb => mem_takeWhile_imp hb,
    (takeWhile_append_dropWhile ..).symm, fun b hb => ?_⟩
  have hne := head?_dropWhile_not p rest
  rw [Option.mem_def.mp hb] at hne
  simpa using hne

end Spaces

section Numbers

variable {len : Nat} {rest last : Bytes} {t last : Bytes}

theorem jsonSkipDigits_sound {message : String}
    (h : jsonSkipDigits len message rest = .ok last) : ∃ ds, Digits ds ∧ rest = ds ++ last := by
  cases rest with
  | nil => exact nomatch h
  | cons d rest =>
    by_cases hd : isDigit d = false
    · exact nomatch (if_pos hd).symm.trans h
    · cases (if_neg hd).symm.trans h
      obtain ⟨ds, hds, heq, -⟩ := exists_dropWhile isDigit (d :: rest)
      refine ⟨ds, ⟨?_, hds⟩, heq⟩
      rintro rfl
      rw [nil_append, dropWhile_cons_of_pos (by simpa using hd)] at heq
      have hlength := congrArg List.length heq
      have hle := (dropWhile_suffix isDigit (l := rest)).length_le
      rw [length_cons] at hlength
      omega

theorem jsonSkipDigits_complete {ds last : Bytes} (hds : Digits ds) (hlast : Stops isDigit last)
    (len : Nat) (message : String) : jsonSkipDigits len message (ds ++ last) = .ok last := by
  obtain ⟨hne, hall⟩ := hds
  cases ds with
  | nil => exact absurd rfl hne
  | cons d ds =>
    have hd : ¬ isDigit d = false := by simp [hall d (mem_cons_self ..)]
    refine (if_neg hd).trans (congrArg Except.ok ?_)
    exact dropWhile_of_stops hall hlast

theorem jsonSkipInteger_sound
    (h : jsonSkipInteger len rest = .ok last) : ∃ t, IntegerText t ∧ rest = t ++ last := by
  cases rest with
  | nil => exact nomatch h
  | cons d rest =>
    by_cases hd : isDigit d = false
    · exact nomatch (if_pos hd).symm.trans h
    replace h := (if_neg hd).symm.trans h
    rw [Bool.not_eq_false] at hd
    by_cases hzero : d = byte '0'
    · cases (if_pos hzero).symm.trans h
      exact ⟨[d], hzero ▸ .zero, rfl⟩
    · cases (if_neg hzero).symm.trans h
      obtain ⟨ds, hds, heq, -⟩ := exists_dropWhile isDigit rest
      rw [dropWhile_cons_of_pos hd]
      exact ⟨d :: ds, .nonzero hd hzero hds, congrArg (d :: ·) heq⟩

theorem jsonSkipInteger_complete (ht : IntegerText t) (hlast : Stops isDigit last)
    (len : Nat) : jsonSkipInteger len (t ++ last) = .ok last := by
  cases ht with
  | zero => rfl
  | @nonzero d ds hd hne hds =>
    refine (if_neg (by simp [hd])).trans ((if_neg hne).trans (congrArg Except.ok ?_))
    refine dropWhile_of_stops (w := d :: ds) ?_ hlast
    simpa [hd] using hds

theorem jsonSkipFraction_sound
    (h : jsonSkipFraction len rest = .ok last) : ∃ t, FractionText t ∧ rest = t ++ last := by
  cases rest with
  | nil =>
    cases h
    exact ⟨[], .none, rfl⟩
  | cons b rest =>
    by_cases hdot : b = byte '.'
    · obtain ⟨ds, hds, rfl⟩ := jsonSkipDigits_sound ((if_pos hdot).symm.trans h)
      exact ⟨b :: ds, hdot ▸ .some hds, rfl⟩
    · cases (if_neg hdot).symm.trans h
      exact ⟨[], .none, rfl⟩

theorem jsonSkipExponent_sound
    (h : jsonSkipExponent len rest = .ok last) : ∃ t, ExponentText t ∧ rest = t ++ last := by
  cases rest with
  | nil =>
    cases h
    exact ⟨[], .none, rfl⟩
  | cons e rest =>
    by_cases he : e = byte 'e' ∨ e = byte 'E'
    · replace h := (if_pos he).symm.trans h
      cases rest with
      | nil => exact nomatch h
      | cons sign digits =>
        by_cases hsign : sign = byte '+' ∨ sign = byte '-'
        · obtain ⟨ds, hds, rfl⟩ := jsonSkipDigits_sound ((if_pos hsign).symm.trans h)
          refine ⟨e :: ([sign] ++ ds), .some he ?_ hds, rfl⟩
          rcases hsign with rfl | rfl
          · exact .inr (.inl rfl)
          · exact .inr (.inr rfl)
        · obtain ⟨ds, hds, heq⟩ := jsonSkipDigits_sound ((if_neg hsign).symm.trans h)
          exact ⟨e :: ([] ++ ds), .some he (.inl rfl) hds, congrArg (e :: ·) heq⟩
    · cases (if_neg he).symm.trans h
      exact ⟨[], .none, rfl⟩

/-- The bytes that could go on with a number. -/
def numberByte (b : UInt8) : Bool := isDigit b || b == byte '.' || b == byte 'e' || b == byte 'E'

theorem Stops.mono {p q : UInt8 → Bool} {rest : Bytes} (h : Stops q rest)
    (hpq : ∀ b, q b = false → p b = false) : Stops p rest :=
  fun b hb => hpq b (h b hb)

theorem jsonSkipFraction_complete (ht : FractionText t)
    (hlast : Stops (fun b => isDigit b || b == byte '.') last) (len : Nat) :
    jsonSkipFraction len (t ++ last) = .ok last := by
  cases ht with
  | none =>
    cases last with
    | nil => rfl
    | cons b last =>
      have hdot : b ≠ byte '.' := by
        rintro rfl
        exact nomatch stops_cons.mp hlast
      exact if_neg hdot
  | some hds =>
    have hdigits : Stops isDigit last := hlast.mono fun b hb => (Bool.or_eq_false_iff.mp hb).1
    exact jsonSkipDigits_complete hds hdigits len "expected json fraction digit"

theorem jsonSkipExponent_complete (ht : ExponentText t)
    (hlast : Stops (fun b => isDigit b || b == byte 'e' || b == byte 'E') last) (len : Nat) :
    jsonSkipExponent len (t ++ last) = .ok last := by
  have hdigits : Stops isDigit last := hlast.mono fun b hb =>
    (Bool.or_eq_false_iff.mp (Bool.or_eq_false_iff.mp hb).1).1
  cases ht with
  | none =>
    cases last with
    | nil => rfl
    | cons b last =>
      have he : ¬ (b = byte 'e' ∨ b = byte 'E') := by
        rintro (rfl | rfl) <;> exact nomatch stops_cons.mp hlast
      exact if_neg he
  | @some e sign ds he hsign hds =>
    have hskip := jsonSkipDigits_complete hds hdigits len "expected json exponent digit"
    rcases hsign with rfl | rfl | rfl
    · cases ds with
      | nil => exact absurd rfl hds.1
      | cons d ds =>
        have hd := hds.2 d (mem_cons_self ..)
        have hsign : ¬ (d = byte '+' ∨ d = byte '-') := by
          rintro (rfl | rfl) <;> exact nomatch hd
        exact (if_pos he).trans ((if_neg hsign).trans hskip)
    · exact (if_pos he).trans ((if_pos (.inl rfl)).trans hskip)
    · exact (if_pos he).trans ((if_pos (.inr rfl)).trans hskip)

/-- A number without its sign. -/
def skipSign (rest : Bytes) : Bytes :=
  match rest with
  | b :: after => if b = byte '-' then after else rest
  | [] => []

theorem jsonSkipNumber_eq (len : Nat) (rest : Bytes) :
    jsonSkipNumber len rest = (jsonSkipInteger len (skipSign rest)).bind fun rest =>
      (jsonSkipFraction len rest).bind (jsonSkipExponent len) := rfl

theorem exists_skipSign (rest : Bytes) :
    ∃ minus, (minus = [] ∨ minus = [byte '-']) ∧ rest = minus ++ skipSign rest := by
  cases rest with
  | nil => exact ⟨[], .inl rfl, rfl⟩
  | cons b rest =>
    by_cases hb : b = byte '-'
    · exact ⟨[b], .inr (hb ▸ rfl), congrArg (b :: ·) (if_pos hb).symm⟩
    · exact ⟨[], .inl rfl, (if_neg hb).symm⟩

theorem jsonSkipNumber_sound
    (h : jsonSkipNumber len rest = .ok last) : ∃ t, NumberText t ∧ rest = t ++ last := by
  rw [jsonSkipNumber_eq] at h
  obtain ⟨rest₁, hrest₁, h⟩ := bind_eq_ok h
  obtain ⟨rest₂, hrest₂, hlast⟩ := bind_eq_ok h
  obtain ⟨minus, hminus, hrest⟩ := exists_skipSign rest
  obtain ⟨integer, hinteger, hskipped⟩ := jsonSkipInteger_sound hrest₁
  obtain ⟨fraction, hfraction, rfl⟩ := jsonSkipFraction_sound hrest₂
  obtain ⟨exponent, hexponent, rfl⟩ := jsonSkipExponent_sound hlast
  refine ⟨_, .mk hminus hinteger hfraction hexponent, ?_⟩
  rw [hrest, hskipped]
  simp only [append_assoc]

theorem exists_integerText_head {t : Bytes} (ht : IntegerText t) :
    ∃ d ds, t = d :: ds ∧ isDigit d = true := by
  cases ht with
  | zero => exact ⟨_, _, rfl, rfl⟩
  | nonzero hd => exact ⟨_, _, rfl, hd⟩

theorem skipSign_append {minus integer rest : Bytes} (hminus : minus = [] ∨ minus = [byte '-'])
    (hinteger : IntegerText integer) :
    skipSign (minus ++ (integer ++ rest)) = integer ++ rest := by
  obtain ⟨d, ds, rfl, hd⟩ := exists_integerText_head hinteger
  rcases hminus with rfl | rfl
  · refine if_neg ?_
    rintro rfl
    exact nomatch hd
  · rfl

/-- What follows the integer part of a number starts with neither digit nor sign. -/
theorem stops_fraction (ht : FractionText t) (hlast : Stops isDigit last) :
    Stops isDigit (t ++ last) := by
  cases ht with
  | none => exact hlast
  | some => exact stops_cons.mpr rfl

theorem stops_exponent {p : UInt8 → Bool} (ht : ExponentText t)
    (hp : p (byte 'e') = false ∧ p (byte 'E') = false) (hlast : Stops p last) :
    Stops p (t ++ last) := by
  cases ht with
  | none => exact hlast
  | some he =>
    refine stops_cons.mpr ?_
    rcases he with rfl | rfl
    · exact hp.1
    · exact hp.2

theorem jsonSkipNumber_complete (ht : NumberText t)
    (hlast : Stops numberByte last) (len : Nat) :
    jsonSkipNumber len (t ++ last) = .ok last := by
  cases ht with
  | @mk minus integer fraction exponent hminus hinteger hfraction hexponent =>
    have hdot : Stops (fun b => isDigit b || b == byte '.') last := hlast.mono fun b hb =>
      (Bool.or_eq_false_iff.mp (Bool.or_eq_false_iff.mp hb).1).1
    have hdigit : Stops isDigit last := hdot.mono fun b hb => (Bool.or_eq_false_iff.mp hb).1
    have hexp : Stops (fun b => isDigit b || b == byte 'e' || b == byte 'E') last := by
      refine hlast.mono fun b hb => ?_
      simp only [numberByte, Bool.or_eq_false_iff] at hb ⊢
      exact ⟨⟨hb.1.1.1, hb.1.2⟩, hb.2⟩
    rw [jsonSkipNumber_eq, append_assoc, append_assoc, append_assoc,
      skipSign_append hminus hinteger,
      jsonSkipInteger_complete hinteger
        (stops_fraction hfraction (stops_exponent hexponent ⟨rfl, rfl⟩ hdigit)),
      Except.bind, jsonSkipFraction_complete hfraction
        (stops_exponent hexponent ⟨rfl, rfl⟩ hdot), Except.bind]
    exact jsonSkipExponent_complete hexponent hexp len

end Numbers

end Sengoo.Stdlib
