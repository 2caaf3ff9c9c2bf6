import Mathlib.Data.Nat.Digits.Lemmas
import Sengoo.Parser.Printing

/-!
Printed integers are read back: the suffix is found behind the digits, the
value passes the range check of its type, and a sign in front is taken into
the literal unless the literal is unsigned.
-/

namespace Sengoo.Parser

open List

/-! ### Suffixes -/

theorem isDigit_of_mem_digits {n : Nat} {c : Char} (h : c ∈ Nat.toDigits 10 n) :
    c.isDigit = true :=
  Nat.isDigit_of_mem_toDigits (by decide) (by decide) h

theorem suffix_has_letter : ∀ suffix ∈ numericSuffixes, suffix.toList.all Char.isDigit = false := by
  decide

/-- No suffix ends in another one. -/
theorem suffixes_apart : ∀ first ∈ numericSuffixes, ∀ second ∈ numericSuffixes,
      first.toList.isSuffixOf second.toList = true → first = second := by
  decide

theorem numericLiteralSuffix_digits (n : Nat) :
    numericLiteralSuffix (Nat.toDigits 10 n) = none := by
  refine find?_eq_none.mpr fun suffix hsuffix hends => ?_
  have hsubset := (isSuffixOf_iff_suffix.mp hends).subset
  have hall : suffix.toList.all Char.isDigit = true :=
    all_eq_true.mpr fun c hc => isDigit_of_mem_digits (hsubset hc)
  rw [suffix_has_letter suffix hsuffix] at hall
  cases hall

theorem isSuffixOf_digits_append {n : Nat} {first second : String}
    (hfirst : first ∈ numericSuffixes) (hsecond : second ∈ numericSuffixes) :
    first.toList.isSuffixOf (Nat.toDigits 10 n ++ second.toList) = true ↔ first = second := by
  constructor
  · intro hends
    rw [isSuffixOf_iff_suffix] at hends
    rcases suffix_or_suffix_of_suffix hends (suffix_append _ second.toList) with h | h
    · exact suffixes_apart first hfirst second hsecond (isSuffixOf_iff_suffix.mpr h)
    · exact (suffixes_apart second hsecond first hfirst (isSuffixOf_iff_suffix.mpr h)).symm
  · rintro rfl
    exact isSuffixOf_iff_suffix.mpr (suffix_append _ _)

/-- Of some of the suffixes the printed one is found. -/
theorem find_suffix (n : Nat) {suffixes : List String} {suffix : String}
    (hsubset : ∀ other ∈ suffixes, other ∈ numericSuffixes) (h : suffix ∈ suffixes) :
    (suffixes.find? fun other => other.toList.isSuffixOf (Nat.toDigits 10 n ++ suffix.toList)) =
      some suffix := by
  have hends {other : String} (hother : other ∈ suffixes) :=
    isSuffixOf_digits_append (n := n) (hsubset other hother) (hsubset suffix h)
  generalize hfind : suffixes.find? _ = result
  cases result with
  | none => exact absurd ((hends h).mpr rfl) (find?_eq_none.mp hfind suffix h)
  | some found =>
    have hfound := find?_some hfind
    rw [(hends (mem_of_find?_eq_some hfind)).mp hfound]

theorem numericLiteralSuffix_append (n : Nat) {suffix : String}
    (h : suffix ∈ numericSuffixes) :
    numericLiteralSuffix (Nat.toDigits 10 n ++ suffix.toList) = some suffix :=
  find_suffix n (fun _ => id) h

/-! ### Values -/

theorem two_pow_cast (bits : Nat) : (2 ^ bits : Int) = ((2 ^ bits : Nat) : Int) := by
  rfl

theorem toNat_natAbs (value : Int64) :
    (UInt64.ofNat value.toInt.natAbs).toNat = value.toInt.natAbs := by
  have hlow := value.le_toInt
  have hhigh := value.toInt_lt
  exact UInt64.toNat_ofNat_of_lt' (show _ < 2 ^ 64 by omega)

/-- The suffix of a literal of a signed type, and what the range check makes
of it. -/
structure SignedSpelling (targetPointerWidth : Nat) (spelled : String)
    (suffix : Option String) (bits : Nat) : Prop where
  found : ∀ n, numericLiteralSuffix (Nat.toDigits 10 n ++ spelled.toList) = suffix
  signed : suffix.any ((unsignedSuffixes ++ ["f32", "f64"]).contains ·) = false
  range : ∃ display, literalRange targetPointerWidth suffix = some (display, true, bits)

theorem signedSpelling_plain (targetPointerWidth : Nat) :
    SignedSpelling targetPointerWidth "" none 64 where
  found n := by simpa using numericLiteralSuffix_digits n
  signed := rfl
  range := ⟨_, rfl⟩

theorem signedSpelling_suffix (targetPointerWidth : Nat) (suffix : SignedSuffix) :
    SignedSpelling targetPointerWidth suffix.name (some suffix.name)
      (suffix.bits targetPointerWidth) where
  found n := numericLiteralSuffix_append n (by cases suffix <;> decide)
  signed := by cases suffix <;> decide
  range := by cases suffix <;> exact ⟨_, rfl⟩

section

variable {β : Type} {targetPointerWidth bits : Nat} {spelled : String} {suffix : Option String}

section

variable (h : SignedSpelling targetPointerWidth spelled suffix bits)
include h

theorem SignedSpelling.not_unsigned : suffix.any (unsignedSuffixes.contains ·) = false := by
  have hsigned := h.signed
  cases suffix with
  | none => rfl
  | some name =>
    simp only [Option.any_some, contains_append, Bool.or_eq_false_iff] at hsigned
    exact hsigned.1

theorem SignedSpelling.validates
    (value : Int64) (negative : Bool) (raw : List Char)
    (hrange : if negative then value.toInt.natAbs ≤ 2 ^ (bits - 1)
      else value.toInt.natAbs ≤ 2 ^ (bits - 1) - 1) :
    validateIntegerLiteralRange targetPointerWidth (UInt64.ofNat value.toInt.natAbs) suffix
      negative raw = .ok () := by
  obtain ⟨display, hliteral⟩ := h.range
  simp only [validateIntegerLiteralRange, hliteral, toNat_natAbs]
  cases negative with
  | false | true => exact if_pos hrange

/-- A negative value is read behind its minus. -/
theorem SignedSpelling.reads_negative {value : Int64}
    (hneg : value.toInt < 0) (hrange : -(2 ^ (bits - 1) : Int) ≤ value.toInt)
    (rest : List Token) (pending : Nat) :
    parseNegativeIntegerLiteral (β := β) targetPointerWidth
        ⟨numberToken value.toInt.natAbs spelled :: rest, pending⟩ =
      .ok (some (numericLiteralExpr (.int value) suffix, ⟨rest, pending⟩)) := by
  have hvalid := h.validates value true (Nat.toDigits 10 value.toInt.natAbs ++ spelled.toList) (by
      rw [two_pow_cast] at hrange
      simp only [if_true]
      omega)
  have hvalue : Int64.ofInt (-(value.toInt.natAbs : Int)) = value := by
    rw [show -(value.toInt.natAbs : Int) = value.toInt by omega, Int64.ofInt_toInt]
  simp only [parseNegativeIntegerLiteral, Cursor.current, numberToken, head?_cons, h.found,
    h.signed, Bool.false_eq_true, if_false, hvalid, toNat_natAbs, hvalue]
  rfl

theorem SignedSpelling.reads_nonnegative {value : Int64}
    (hneg : ¬ value.toInt < 0) (hrange : value.toInt < 2 ^ (bits - 1)) :
    integerLiteralExpr (β := β) targetPointerWidth (UInt64.ofNat value.toInt.natAbs)
        (Nat.toDigits 10 value.toInt.natAbs ++ spelled.toList) =
      .ok (numericLiteralExpr (.int value) suffix) := by
  have hvalid := h.validates value false (Nat.toDigits 10 value.toInt.natAbs ++ spelled.toList) (by
      rw [two_pow_cast] at hrange
      simp only [Bool.false_eq_true, if_false]
      omega)
  have hsmall : value.toInt.natAbs < 2 ^ 63 := by
    have hhigh := value.toInt_lt
    omega
  have hvalue : Int64.ofNat value.toInt.natAbs = value := by
    rw [← Int64.ofInt_eq_ofNat, show (value.toInt.natAbs : Int) = value.toInt by omega,
      Int64.ofInt_toInt]
  simp only [integerLiteralExpr, h.found, hvalid, h.not_unsigned, toNat_natAbs, hsmall, hvalue,
    Bool.false_eq_true, if_false, if_true]
  rfl

end

/-- An unsigned value in the range of its type is read. -/
theorem reads_unsigned (value : UInt64) (suffix : UnsignedSuffix)
    (hrange : value.toNat < 2 ^ suffix.bits targetPointerWidth) :
    integerLiteralExpr (β := β) targetPointerWidth (UInt64.ofNat value.toNat)
        (Nat.toDigits 10 value.toNat ++ suffix.name.toList) =
      .ok (numericLiteralExpr (.uint value) (some suffix.name)) := by
  have hmem : suffix.name ∈ numericSuffixes := by cases suffix <;> decide
  have hunsigned : unsignedSuffixes.contains suffix.name = true := by cases suffix <;> decide
  have hliteral : ∃ display, literalRange targetPointerWidth (some suffix.name) =
      some (display, false, suffix.bits targetPointerWidth) := by
    cases suffix <;> exact ⟨_, rfl⟩
  obtain ⟨display, hliteral⟩ := hliteral
  have hmax : value.toNat ≤ 2 ^ suffix.bits targetPointerWidth - 1 := by omega
  simp only [integerLiteralExpr, numericLiteralSuffix_append _ hmem, UInt64.ofNat_toNat,
    validateIntegerLiteralRange, hliteral, Bool.false_eq_true, if_false, hmax, if_true,
    Option.any_some, hunsigned]
  rfl

end

end Sengoo.Parser
