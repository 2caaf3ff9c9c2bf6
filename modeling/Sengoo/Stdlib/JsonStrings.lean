import Sengoo.Stdlib.JsonParse
import Sengoo.Utf8

/-!
The string scanner accepts exactly the string literals of the grammar: each round of
its loop takes one character, raw UTF-8 or an escape, and appends the character's UTF-8
bytes.
-/

namespace Sengoo.Stdlib

open Json List

variable {c : UInt8}

section Codes

theorem shiftLeft_or {a b i : Nat} (h : b < 2 ^ i) : a <<< i ||| b = a * 2 ^ i + b := by
  rw [← Nat.shiftLeft_add_eq_or_of_lt h, Nat.shiftLeft_eq]

theorem shiftLeft_four_or {a b : Nat} (h : b < 16) : a <<< 4 ||| b = a * 16 + b :=
  shiftLeft_or (i := 4) h

theorem shiftLeft_six_or (a b : Nat) : a <<< 6 ||| b % 64 = a * 64 + b % 64 :=
  shiftLeft_or (i := 6) (Nat.mod_lt b (by decide))

theorem and_continuation {n : Nat} (h : n < 256) : n &&& 0xc0 = 0x80 ↔ 0x80 ≤ n ∧ n < 0xc0 := by
  have hall : ∀ n < 256, (n &&& 0xc0 = 0x80 ↔ 0x80 ≤ n ∧ n < 0xc0) := by decide +kernel
  exact hall n h

theorem map_toNat_injective {s t : Bytes} (h : s.map UInt8.toNat = t.map UInt8.toNat) : s = t :=
  map_injective_iff.mpr (fun _ _ => UInt8.toNat_inj.mp) h

/-- A code that is a scalar value. -/
def Scalar (code : Nat) : Prop := code ≤ 0x10ffff ∧ ¬ (0xd800 ≤ code ∧ code ≤ 0xdfff)

theorem Scalar.toNat_ofNat {code : Nat} (h : Scalar code) : (Char.ofNat code).toNat = code := by
  have hvalid : code.isValidChar := by
    unfold Scalar at h
    omega
  unfold Char.ofNat
  rw [dif_pos hvalid]
  rfl

theorem scalar_toNat (c : Char) : Scalar c.toNat := by
  have hvalid : c.toNat.isValidChar := c.valid
  unfold Scalar
  omega

/-- The decoder's reading of a byte that follows a first byte. -/
theorem jsonUtf8Code_succ {tail code : Nat} {b : UInt8} {rest : Bytes} {result : Nat} :
    jsonUtf8Code (tail + 1) code (b :: rest) = some result ↔ (0x80 ≤ b.toNat ∧ b.toNat < 0xc0) ∧
        jsonUtf8Code tail (code * 64 + (b.toNat - 0x80)) rest = some result := by
  have hb := b.toNat_lt
  have hand : b.toNat &&& 63 = b.toNat % 64 := Nat.and_two_pow_sub_one_eq_mod _ 6
  rw [jsonUtf8Code, hand, shiftLeft_six_or]
  by_cases hmark : 0x80 ≤ b.toNat ∧ b.toNat < 0xc0
  · rw [if_neg (not_not_intro ((and_continuation hb).mpr hmark))]
    rw [show code * 64 + b.toNat % 64 = code * 64 + (b.toNat - 0x80) by omega]
    simp [hmark]
  · rw [if_pos fun h => hmark ((and_continuation hb).mp h)]
    simp [hmark]

/-- A first byte with its bits of the code. -/
theorem jsonUtf8Lead_eq_some_iff {c tail code minimum : Nat} :
    jsonUtf8Lead c = some (tail, code, minimum) ↔
      (0xc2 ≤ c ∧ c ≤ 0xdf ∧ tail = 1 ∧ code = c - 0xc0 ∧ minimum = 0x80) ∨
      (0xe0 ≤ c ∧ c ≤ 0xef ∧ tail = 2 ∧ code = c - 0xe0 ∧ minimum = 0x800) ∨
      (0xf0 ≤ c ∧ c ≤ 0xf4 ∧ tail = 3 ∧ code = c - 0xf0 ∧ minimum = 0x10000) := by
  have h31 : c &&& 31 = c % 32 := Nat.and_two_pow_sub_one_eq_mod _ 5
  have h15 : c &&& 15 = c % 16 := Nat.and_two_pow_sub_one_eq_mod _ 4
  have h7 : c &&& 7 = c % 8 := Nat.and_two_pow_sub_one_eq_mod _ 3
  unfold jsonUtf8Lead
  split_ifs
  on_goal 4 => exact ⟨nofun, by omega⟩
  all_goals
    simp only [Option.some.injEq, Prod.mk.injEq]
    omega

theorem jsonUtf8Tail_eq_some_iff {rest : Bytes} {tail : Nat} :
    jsonUtf8Tail c rest = some tail ↔ ∃ code minimum result,
      jsonUtf8Lead c.toNat = some (tail, code, minimum) ∧
        jsonUtf8Code tail code rest = some result ∧ minimum ≤ result ∧ Scalar result := by
  unfold Scalar
  constructor
  · intro h
    obtain ⟨⟨_, code, minimum⟩, hlead, h⟩ := Option.bind_eq_some_iff.mp h
    obtain ⟨result, hcode, h⟩ := Option.bind_eq_some_iff.mp h
    obtain ⟨hgood, ⟨⟩⟩ := Option.ite_none_left_eq_some.mp h
    exact ⟨code, minimum, result, hlead, hcode, by omega⟩
  · rintro ⟨code, minimum, result, hlead, hcode, hmin, hscalar⟩
    simp only [jsonUtf8Tail, hlead, Option.bind_eq_bind, Option.bind_some, hcode]
    exact if_neg (by omega)

/-- The bytes that follow the first one of a character. -/
def tailBytes : Nat → Nat → List Nat
  | 0, _ => []
  | tail + 1, code => (0x80 + code / 64 ^ tail % 64) :: tailBytes tail code

theorem length_tailBytes (tail code : Nat) : (tailBytes tail code).length = tail := by
  induction tail with
  | zero => rfl
  | succ tail ih => exact congrArg Nat.succ ih

theorem jsonUtf8Code_eq_some_iff {tail start result : Nat} {rest : Bytes} :
    jsonUtf8Code tail start rest = some result ↔
      (rest.take tail).map UInt8.toNat = tailBytes tail result ∧ start = result / 64 ^ tail := by
  induction tail generalizing start rest with
  | zero => simp [jsonUtf8Code, tailBytes]
  | succ tail ih =>
    cases rest with
    | nil => simp [jsonUtf8Code, tailBytes]
    | cons b rest =>
      have hdiv : result / 64 ^ (tail + 1) = result / 64 ^ tail / 64 := by
        rw [Nat.pow_succ, Nat.div_div_eq_div_mul]
      rw [jsonUtf8Code_succ, ih, hdiv, take_succ_cons, map_cons, tailBytes,
        List.cons.injEq]
      generalize result / 64 ^ tail = quotient
      have hb : (0x80 ≤ b.toNat ∧ b.toNat < 0xc0) ∧ start * 64 + (b.toNat - 0x80) = quotient ↔
          b.toNat = 0x80 + quotient % 64 ∧ start = quotient / 64 := by omega
      constructor
      · rintro ⟨hmark, hrest, hstart⟩
        exact ⟨⟨(hb.mp ⟨hmark, hstart⟩).1, hrest⟩, (hb.mp ⟨hmark, hstart⟩).2⟩
      · rintro ⟨⟨hfirst, hrest⟩, hstart⟩
        exact ⟨(hb.mpr ⟨hfirst, hstart⟩).1, hrest, (hb.mpr ⟨hfirst, hstart⟩).2⟩

/-- What the decoder accepts is the encoding of a character. -/
theorem exists_char_of_jsonUtf8Tail {rest : Bytes} {tail : Nat}
    (h : jsonUtf8Tail c rest = some tail) :
    ∃ ch : Char, 0x80 ≤ ch.toNat ∧ String.utf8EncodeChar ch = c :: rest.take tail := by
  obtain ⟨code, minimum, result, hlead, hcode, hmin, hscalar⟩ := jsonUtf8Tail_eq_some_iff.mp h
  obtain ⟨htail, hstart⟩ := jsonUtf8Code_eq_some_iff.mp hcode
  have hresult := hscalar.toNat_ofNat
  refine ⟨Char.ofNat result, ?_, map_toNat_injective ?_⟩
  · rw [hresult]
    rcases jsonUtf8Lead_eq_some_iff.mp hlead with h | h | h <;> omega
  rw [Utf8.toNat_encode, map_cons, htail]
  rcases jsonUtf8Lead_eq_some_iff.mp hlead with
    ⟨hlow, hhigh, rfl, hbits, hminimum⟩ | ⟨hlow, hhigh, rfl, hbits, hminimum⟩ |
    ⟨hlow, hhigh, rfl, hbits, hminimum⟩ <;>
  · simp only [tailBytes] at hstart ⊢
    split_ifs <;> simp only [List.cons.injEq, and_true] <;> omega

/-- The decoder accepts the encoding of every character that needs more than a byte. -/
theorem jsonUtf8Tail_utf8EncodeChar {ch : Char} (h : 0x80 ≤ ch.toNat) (rest : Bytes) :
    ∃ c tail, String.utf8EncodeChar ch = c :: tail ∧ 0x80 ≤ c.toNat ∧
      jsonUtf8Tail c (tail ++ rest) = some tail.length := by
  have hscalar := scalar_toNat ch
  have hle := hscalar.1
  obtain ⟨n, first, minimum, hbytes, hlead, hmin⟩ : ∃ n first minimum,
      (String.utf8EncodeChar ch).map UInt8.toNat = first :: tailBytes n ch.toNat ∧
        jsonUtf8Lead first = some (n, ch.toNat / 64 ^ n, minimum) ∧ minimum ≤ ch.toNat := by
    rw [Utf8.toNat_encode, if_neg (by omega : ¬ ch.toNat < 0x80)]
    simp only [jsonUtf8Lead_eq_some_iff]
    split_ifs with h₂ h₃
    · exact ⟨1, _, 0x80, by simp [tailBytes]; rfl, by omega, h⟩
    · exact ⟨2, _, 0x800, by simp [tailBytes]; rfl, by omega, by omega⟩
    · exact ⟨3, _, 0x10000, by simp [tailBytes]; rfl, by omega, by omega⟩
  obtain ⟨c, tail, hch, rfl, htail⟩ := map_eq_cons_iff.mp hbytes
  have hlength : tail.length = n := by
    rw [← length_tailBytes n ch.toNat, ← htail, length_map]
  subst hlength
  refine ⟨c, tail, hch, ?_, jsonUtf8Tail_eq_some_iff.mpr
    ⟨_, minimum, ch.toNat, hlead, jsonUtf8Code_eq_some_iff.mpr ⟨by simpa using htail, rfl⟩, hmin,
      hscalar⟩⟩
  rcases jsonUtf8Lead_eq_some_iff.mp hlead with h | h | h <;> omega

theorem or_mark {x : Nat} (h : x < 64) :
    0x80 ||| x = 0x80 + x ∧ 0xc0 ||| x = 0xc0 + x ∧ (x < 16 → 0xe0 ||| x = 0xe0 + x) ∧
      (x < 8 → 0xf0 ||| x = 0xf0 + x) := by
  have hall : ∀ x < 64, 0x80 ||| x = 0x80 + x ∧ 0xc0 ||| x = 0xc0 + x ∧
      (x < 16 → 0xe0 ||| x = 0xe0 + x) ∧ (x < 8 → 0xf0 ||| x = 0xf0 + x) := by
    decide +kernel
  exact hall x h

/-- The escapes write the encoding of their character. -/
theorem jsonEncodeScalar_eq {code : Nat} (h : Scalar code) :
    jsonEncodeScalar code = String.utf8EncodeChar (Char.ofNat code) := by
  have hle := h.1
  have hand : ∀ n, n &&& 63 = n % 64 := fun n => Nat.and_two_pow_sub_one_eq_mod n 6
  have hshift : ∀ n i, n >>> i = n / 2 ^ i := Nat.shiftRight_eq_div_pow
  have hbyte : ∀ n, n < 256 → n % 2 ^ 8 = n := fun n => Nat.mod_eq_of_lt
  have hlow := (or_mark (x := code % 64) (by omega)).1
  have hmiddle := (or_mark (x := code / 64 % 64) (by omega)).1
  have hhigh := (or_mark (x := code / 4096 % 64) (by omega)).1
  apply map_toNat_injective
  rw [Utf8.toNat_encode, h.toNat_ofNat]
  unfold jsonEncodeScalar
  simp only [hand, hshift, Nat.reducePow]
  rw [hlow, hmiddle, hhigh]
  by_cases h₁ : code < 0x80
  · rw [if_pos h₁, if_pos h₁]
    simp only [map_cons, map_nil, UInt8.toNat_ofNat']
    rw [hbyte code (by omega)]
  rw [if_neg h₁, if_neg h₁]
  by_cases h₂ : code < 0x800
  · rw [if_pos h₂, if_pos h₂, (or_mark (x := code / 64) (by omega)).2.1]
    simp only [map_cons, map_nil, UInt8.toNat_ofNat']
    rw [hbyte (_ + code / 64) (by omega), hbyte (_ + code % 64) (by omega)]
  rw [if_neg h₂, if_neg h₂]
  by_cases h₃ : code < 0x10000
  · rw [if_neg (by omega), if_pos h₃, (or_mark (x := code / 4096) (by omega)).2.2.1 (by omega)]
    simp only [map_cons, map_nil, UInt8.toNat_ofNat']
    rw [hbyte (_ + code / 4096) (by omega), hbyte (_ + code / 64 % 64) (by omega),
      hbyte (_ + code % 64) (by omega)]
  · rw [if_pos (by omega), if_neg h₃, (or_mark (x := code / 262144) (by omega)).2.2.2 (by omega)]
    simp only [map_cons, map_nil, UInt8.toNat_ofNat']
    rw [hbyte (_ + code / 262144) (by omega), hbyte (_ + code / 4096 % 64) (by omega),
      hbyte (_ + code / 64 % 64) (by omega), hbyte (_ + code % 64) (by omega)]

end Codes

variable {tail : Nat} {rest digits value last : Bytes} {parser : JsonParser}

section Escapes

/-- The parser knows the escapes of one letter, each of a character of one byte. -/
theorem jsonSimpleEscape_cases (e : UInt8) : (simpleEscape e = none ∧ jsonSimpleEscape e = none) ∨
      ∃ c b, simpleEscape e = some c ∧ jsonSimpleEscape e = some b ∧
        String.utf8EncodeChar c = [b] := by
  unfold jsonSimpleEscape simpleEscape
  split_ifs
  on_goal 9 => exact .inl ⟨rfl, rfl⟩
  all_goals exact .inr ⟨_, _, rfl, rfl, rfl⟩

theorem hexDigit_lt {b : UInt8} {n : Nat} (h : hexDigit b = some n) : n < 16 := by
  unfold hexDigit at h
  simp only [UInt8.le_iff_toNat_le] at h
  have h9 : (byte '9').toNat = 0x39 := rfl
  have hf : (byte 'f').toNat = 0x66 := rfl
  have hF : (byte 'F').toNat = 0x46 := rfl
  split_ifs at h with h₁ h₂ h₃
  · cases h
    omega
  · cases h
    omega
  · cases h
    omega

theorem jsonHexValue_eq (b : UInt8) : jsonHexValue b = hexDigit b := rfl

variable {code : Nat} {high low : Nat}

theorem jsonHex4_eq_some_iff :
    jsonHex4 rest = some (code, last) ↔ ∃ digits, HexText digits code ∧ rest = digits ++ last := by
  constructor
  · intro h
    match rest, h with
    | a :: b :: c :: d :: rest, h =>
      simp only [jsonHex4, jsonHexValue_eq, Option.bind_eq_bind, Option.bind_eq_some_iff,
        Option.some.injEq, Prod.mk.injEq] at h
      obtain ⟨ha, hha, hb, hhb, hc, hhc, hd, hhd, hcode, rfl⟩ := h
      have hlt := hexDigit_lt hhb
      have hlt' := hexDigit_lt hhc
      have hlt'' := hexDigit_lt hhd
      refine ⟨[a, b, c, d], ?_, rfl⟩
      rw [shiftLeft_four_or hlt'', shiftLeft_four_or hlt', shiftLeft_four_or hlt,
        shiftLeft_four_or (hexDigit_lt hha)] at hcode
      rw [← hcode, Nat.zero_add]
      exact .mk hha hhb hhc hhd
  · rintro ⟨digits, hdigits, rfl⟩
    cases hdigits with
    | mk hha hhb hhc hhd =>
      have hlt := hexDigit_lt hhb
      have hlt' := hexDigit_lt hhc
      have hlt'' := hexDigit_lt hhd
      simp only [cons_append, nil_append, jsonHex4, jsonHexValue_eq, hha, hhb, hhc,
        hhd, Option.bind_eq_bind, Option.bind_some]
      rw [shiftLeft_four_or hlt'', shiftLeft_four_or hlt', shiftLeft_four_or hlt,
        shiftLeft_four_or (hexDigit_lt hha), Nat.zero_mul, Nat.zero_add]

theorem scalar_of_hexText (h : HexText digits code)
    (hhigh : ¬ HighSurrogate code) (hlow : ¬ LowSurrogate code) : Scalar code := by
  cases h with
  | mk hha hhb hhc hhd =>
    have h₁ := hexDigit_lt hha
    have h₂ := hexDigit_lt hhb
    have h₃ := hexDigit_lt hhc
    have h₄ := hexDigit_lt hhd
    unfold HighSurrogate at hhigh
    unfold LowSurrogate at hlow
    unfold Scalar
    omega

theorem scalar_pairCode (hhigh : HighSurrogate high) (hlow : LowSurrogate low) :
    Scalar (pairCode high low) := by
  unfold HighSurrogate at hhigh
  unfold LowSurrogate at hlow
  unfold Scalar pairCode
  omega

theorem pair_shift (hlow : LowSurrogate low) :
    0x10000 + (high - 0xd800) <<< 10 + low - 0xdc00 = pairCode high low := by
  unfold LowSurrogate at hlow
  unfold pairCode
  omega

theorem jsonUnicodeEscape_sound
    (h : jsonUnicodeEscape rest = .ok (code, last)) :
    Scalar code ∧ ∃ text, CharText (backslash :: byte 'u' :: text) (Char.ofNat code) ∧
      rest = text ++ last := by
  unfold jsonUnicodeEscape at h
  cases hhex : jsonHex4 rest with
  | none => simp [hhex] at h
  | some first =>
    obtain ⟨high, after⟩ := first
    simp only [hhex] at h
    obtain ⟨digits, hdigits, rfl⟩ := jsonHex4_eq_some_iff.mp hhex
    by_cases hhigh : 0xd800 ≤ high ∧ high ≤ 0xdbff
    · rw [if_pos hhigh] at h
      match after, h with
      | b :: u :: after', h =>
        by_cases hmark : b ≠ backslash ∨ u ≠ byte 'u'
        · simp [hmark] at h
        obtain ⟨rfl, rfl⟩ : b = backslash ∧ u = byte 'u' := by simpa using hmark
        simp only [if_neg hmark] at h
        cases hhex' : jsonHex4 after' with
        | none => simp [hhex'] at h
        | some second =>
          obtain ⟨low, last'⟩ := second
          simp only [hhex'] at h
          obtain ⟨digits', hdigits', rfl⟩ := jsonHex4_eq_some_iff.mp hhex'
          by_cases hlow : low < 0xdc00 ∨ 0xdfff < low
          · simp [hlow] at h
          have hlow' : LowSurrogate low := by
            unfold LowSurrogate
            omega
          simp only [if_neg hlow, Except.ok.injEq, Prod.mk.injEq] at h
          obtain ⟨hcode, rfl⟩ := h
          rw [pair_shift hlow'] at hcode
          subst hcode
          exact ⟨scalar_pairCode hhigh hlow', _, .pair hdigits hhigh hdigits' hlow', by simp⟩
    · rw [if_neg hhigh] at h
      by_cases hlow : 0xdc00 ≤ high ∧ high ≤ 0xdfff
      · rw [if_pos hlow] at h
        cases h
      · rw [if_neg hlow] at h
        cases h
        exact ⟨scalar_of_hexText hdigits hhigh hlow, _, .unicode hdigits hhigh hlow, rfl⟩

theorem jsonUnicodeEscape_unicode (hdigits : HexText digits code)
    (hhigh : ¬ HighSurrogate code) (hlow : ¬ LowSurrogate code) (last : Bytes) :
    jsonUnicodeEscape (digits ++ last) = .ok (code, last) := by
  unfold jsonUnicodeEscape
  rw [jsonHex4_eq_some_iff.mpr ⟨digits, hdigits, rfl⟩]
  exact (if_neg hhigh).trans (if_neg hlow)

theorem jsonUnicodeEscape_pair {digits' : Bytes}
    (hdigits : HexText digits high) (hhigh : HighSurrogate high) (hdigits' : HexText digits' low)
    (hlow : LowSurrogate low) (last : Bytes) :
    jsonUnicodeEscape (digits ++ backslash :: byte 'u' :: (digits' ++ last)) =
      .ok (pairCode high low, last) := by
  have hrange : ¬ (low < 0xdc00 ∨ 0xdfff < low) := by
    unfold LowSurrogate at hlow
    omega
  unfold jsonUnicodeEscape
  rw [jsonHex4_eq_some_iff.mpr ⟨digits, hdigits, rfl⟩]
  refine (if_pos hhigh).trans ((if_neg (by simp)).trans ?_)
  rw [jsonHex4_eq_some_iff.mpr ⟨digits', hdigits', rfl⟩]
  refine (if_neg hrange).trans ?_
  rw [pair_shift hlow]

end Escapes

section Strings

theorem utf8EncodeChar_single (h : c.toNat < 0x80) :
    String.utf8EncodeChar (Char.ofNat c.toNat) = [c] := by
  have hscalar : Scalar c.toNat := by
    unfold Scalar
    omega
  rw [Utf8.encode_ascii (hscalar.toNat_ofNat.symm ▸ h), hscalar.toNat_ofNat, UInt8.ofNat_toNat]

/-- A round that does not close the string reads one character and keeps its encoding. -/
theorem jsonStringStep_sound {len : Nat} {piece : StringPiece}
    (h : jsonStringStep len c rest = .ok (piece, last)) :
    (piece = .close ∧ c = quote ∧ last = rest) ∨
      ∃ text ch, CharText text ch ∧ piece = .piece (String.utf8EncodeChar ch) ∧
        c :: rest = text ++ last := by
  unfold jsonStringStep at h
  by_cases hquote : c = quote
  · rw [if_pos hquote] at h
    cases h
    exact .inl ⟨rfl, hquote, rfl⟩
  rw [if_neg hquote] at h
  by_cases hcontrol : c < 0x20
  · rw [if_pos hcontrol] at h
    cases h
  rw [if_neg hcontrol] at h
  right
  have hge : 0x20 ≤ c.toNat := UInt8.le_iff_toNat_le.mp (UInt8.not_lt.mp hcontrol)
  by_cases hback : c ≠ backslash
  · rw [if_pos hback] at h
    have hplain : c.toNat ≠ 0x22 ∧ c.toNat ≠ 0x5c :=
      ⟨fun heq => hquote (UInt8.toNat_inj.mp heq), fun heq => hback (UInt8.toNat_inj.mp heq)⟩
    by_cases hascii : 0x80 ≤ c
    · rw [if_pos hascii] at h
      cases htail : jsonUtf8Tail c rest with
      | none => simp [htail] at h
      | some tail =>
        simp only [htail] at h
        obtain ⟨rfl, rfl⟩ := h
        obtain ⟨ch, hcode, hch⟩ := exists_char_of_jsonUtf8Tail htail
        refine ⟨c :: rest.take tail, ch, ?_, by rw [hch], by simp⟩
        rw [← hch]
        exact .plain ⟨by omega, by omega, by omega⟩
    · rw [if_neg hascii] at h
      cases h
      have hlt : c.toNat < 0x80 := Nat.lt_of_not_le hascii
      have hsingle := utf8EncodeChar_single hlt
      have hscalar : Scalar c.toNat := by
        unfold Scalar
        omega
      refine ⟨[c], Char.ofNat c.toNat, ?_, by rw [hsingle], rfl⟩
      have hchar : CharText (String.utf8EncodeChar (Char.ofNat c.toNat)) (Char.ofNat c.toNat) := by
        refine .plain ?_
        unfold Plain
        rw [hscalar.toNat_ofNat]
        exact ⟨hge, hplain⟩
      rwa [hsingle] at hchar
  · rw [if_neg hback] at h
    obtain rfl := not_not.mp hback
    cases rest with
    | nil => cases h
    | cons escaped rest =>
      by_cases hu : escaped = byte 'u'
      · simp only [if_pos hu] at h
        cases hcode : jsonUnicodeEscape rest with
        | error stop => simp [hcode] at h
        | ok result =>
          simp only [hcode] at h
          obtain ⟨rfl, rfl⟩ := h
          obtain ⟨hscalar, text, htext, rfl⟩ := jsonUnicodeEscape_sound hcode
          refine ⟨_, _, htext, ?_, by rw [hu]; rfl⟩
          rw [jsonEncodeScalar_eq hscalar]
      · simp only [if_neg hu] at h
        rcases jsonSimpleEscape_cases escaped with ⟨-, hnone⟩ | ⟨ch, b, hch, hsome, hbytes⟩
        · simp [hnone] at h
        · simp only [hsome] at h
          obtain ⟨rfl, rfl⟩ := h
          exact ⟨_, _, .escape hch, by rw [hbytes], rfl⟩

theorem jsonStringStep_unicode {code : Nat}
    (h : jsonUnicodeEscape rest = .ok (code, last)) (len : Nat) :
    jsonStringStep len backslash (byte 'u' :: rest) = .ok (.piece (jsonEncodeScalar code), last) := by
  refine (if_neg (by decide)).trans ((if_neg (by decide)).trans ((if_neg (by simp)).trans ?_))
  refine (if_pos rfl).trans ?_
  rw [h]

theorem jsonStringStep_simple {e decoded : UInt8} (h : jsonSimpleEscape e = some decoded)
    (len : Nat) (rest : Bytes) :
    jsonStringStep len backslash (e :: rest) = .ok (.piece [decoded], rest) := by
  have hne : e ≠ byte 'u' := by
    rintro rfl
    exact nomatch h
  refine (if_neg (by decide)).trans ((if_neg (by decide)).trans ((if_neg (by simp)).trans ?_))
  refine (if_neg hne).trans ?_
  rw [h]

/-- A round that sees the first byte of a character takes all of it. -/
theorem jsonStringStep_complete {text : Bytes} {ch : Char} (h : CharText text ch) (len : Nat)
    (last : Bytes) :
    ∃ c rest, text = c :: rest ∧
      jsonStringStep len c (rest ++ last) = .ok (.piece (String.utf8EncodeChar ch), last) := by
  cases h with
  | plain hplain =>
    obtain ⟨hge, hne, hne'⟩ := hplain
    have hcontrol : ∀ {c : UInt8}, 0x20 ≤ c.toNat → ¬ c < 0x20 := fun h =>
      UInt8.not_lt.mpr (UInt8.le_iff_toNat_le.mpr h)
    by_cases hascii : ch.toNat < 0x80
    · have hbytes := Utf8.toNat_encode ch
      rw [if_pos hascii] at hbytes
      obtain ⟨c, tail, hch, hc, hbytes⟩ := map_eq_cons_iff.mp hbytes
      obtain rfl := map_eq_nil_iff.mp hbytes
      have hquote : c ≠ quote := fun heq => hne (hc.symm.trans (congrArg UInt8.toNat heq))
      have hback : c ≠ backslash := fun heq => hne' (hc.symm.trans (congrArg UInt8.toNat heq))
      have hlt : ¬ 0x80 ≤ c := by
        rw [UInt8.le_iff_toNat_le, hc]
        exact Nat.not_le.mpr hascii
      refine ⟨c, [], hch, ?_⟩
      rw [hch]
      exact (if_neg hquote).trans ((if_neg (hcontrol (hc ▸ hge))).trans
        ((if_pos hback).trans (if_neg hlt)))
    · obtain ⟨c, tail, hch, hc, htail⟩ :=
        jsonUtf8Tail_utf8EncodeChar (Nat.not_lt.mp hascii) last
      have hquote : c ≠ quote := by
        rintro rfl
        exact absurd hc (by decide)
      have hback : c ≠ backslash := by
        rintro rfl
        exact absurd hc (by decide)
      refine ⟨c, tail, hch, ?_⟩
      have hle : 0x80 ≤ c := UInt8.le_iff_toNat_le.mpr hc
      refine (if_neg hquote).trans ((if_neg (hcontrol (by omega))).trans
        ((if_pos hback).trans ((if_pos hle).trans ?_)))
      rw [htail, hch]
      simp
  | @escape e _ he =>
    rcases jsonSimpleEscape_cases e with ⟨hnone, -⟩ | ⟨ch', b, hch, hsome, hbytes⟩
    · rw [hnone] at he
      cases he
    · rw [hch] at he
      cases he
      exact ⟨backslash, [e], rfl, by rw [hbytes]; exact jsonStringStep_simple hsome len last⟩
  | unicode hdigits hhigh hlow =>
    refine ⟨backslash, _, rfl, ?_⟩
    rw [← jsonEncodeScalar_eq (scalar_of_hexText hdigits hhigh hlow)]
    exact jsonStringStep_unicode (jsonUnicodeEscape_unicode hdigits hhigh hlow last) len
  | pair hdigits hhigh hdigits' hlow =>
    refine ⟨backslash, _, rfl, ?_⟩
    rw [← jsonEncodeScalar_eq (scalar_pairCode hhigh hlow)]
    have hpair := jsonUnicodeEscape_pair hdigits hhigh hdigits' hlow last
    rw [cons_append, append_assoc]
    exact jsonStringStep_unicode hpair len

theorem jsonStringLoop_sound {len limit : Nat} : ∀ {rounds : Nat} {rest built value last : Bytes},
    jsonStringLoop len limit rounds rest built = .ok (value, last) →
      ∃ body cs, CharsText body cs ∧ rest = body ++ quote :: last ∧ value = built ++ utf8 cs
  | 0, _, _, _, _, h => nomatch h
  | rounds + 1, c :: rest, built, value, last, h => by
    unfold jsonStringLoop at h
    cases hstep : jsonStringStep len c rest with
    | error e => rw [hstep] at h; exact nomatch h
    | ok result =>
      obtain ⟨piece, after⟩ := result
      rw [hstep] at h
      rcases jsonStringStep_sound hstep with ⟨rfl, rfl, rfl⟩ | ⟨text, ch, hchar, rfl, htext⟩
      · cases h
        exact ⟨[], [], .nil, rfl, (append_nil _).symm⟩
      · -- the round took one character; the others are taken by the rounds left
        by_cases hlimit : limit ≠ 0 ∧ limit < built.length + (String.utf8EncodeChar ch).length
        · exact nomatch (if_pos hlimit).symm.trans h
        · obtain ⟨body, cs, hbody, rfl, rfl⟩ :=
            jsonStringLoop_sound ((if_neg hlimit).symm.trans h)
          refine ⟨text ++ body, ch :: cs, .cons hchar hbody, ?_, ?_⟩
          · rw [htext, append_assoc]
          · simp [utf8]

theorem jsonStringLoop_complete (len : Nat) {body : Bytes} (last : Bytes) {cs : List Char}
    (hbody : CharsText body cs) : ∀ {rounds : Nat} (built : Bytes), body.length < rounds →
      jsonStringLoop len 0 rounds (body ++ quote :: last) built = .ok (built ++ utf8 cs, last) := by
  induction hbody with
  | nil =>
    intro rounds built hrounds
    obtain ⟨rounds, rfl⟩ := Nat.exists_eq_succ_of_ne_zero (Nat.ne_of_gt hrounds)
    exact congrArg (fun value => Except.ok (value, last)) (append_nil built).symm
  | @cons text body ch cs hchar _ ih =>
    intro rounds built hrounds
    obtain ⟨c, rest, rfl, hstep⟩ := jsonStringStep_complete hchar len (body ++ quote :: last)
    obtain ⟨rounds, rfl⟩ :=
      Nat.exists_eq_succ_of_ne_zero (Nat.ne_of_gt (Nat.zero_lt_of_lt hrounds))
    have hlt : body.length < rounds := by
      simp only [length_append, length_cons] at hrounds
      omega
    rw [append_assoc, cons_append, jsonStringLoop, hstep]
    simp only [bind, Except.bind]
    rw [ih _ hlt]
    simp [utf8]

theorem jsonParseStringRaw_sound {parser' : JsonParser}
    (h : jsonParseStringRaw parser = .ok (value, parser')) :
    ∃ text, StringText text value ∧ parser.rest = text ++ parser'.rest ∧
      parser' = { parser with rest := parser'.rest } := by
  unfold jsonParseStringRaw at h
  cases hrest : parser.rest with
  | nil => rw [hrest] at h; exact nomatch h
  | cons c rest =>
    rw [hrest] at h
    by_cases hquote : c = quote
    · subst hquote
      cases hloop : jsonStringLoop parser.len
          (if parser.doc.bounded then parser.doc.byteLimit else 0) rest.length rest [] with
      | error e =>
        simp only [ne_eq] at h
        rw [hloop] at h
        exact nomatch h
      | ok result =>
        simp only [ne_eq] at h
        rw [hloop] at h
        cases h
        obtain ⟨body, cs, hbody, hrest', hvalue⟩ := jsonStringLoop_sound hloop
        refine ⟨quote :: (body ++ [quote]), ?_, ?_, rfl⟩
        · rw [hvalue]
          exact .mk hbody
        · rw [hrest']
          simp
    · exact nomatch (if_pos hquote).symm.trans h

theorem jsonParseStringRaw_complete {text : Bytes} (htext : StringText text value)
    (hbounded : parser.doc.bounded = false)
    (hrest : parser.rest = text ++ last) :
    jsonParseStringRaw parser = .ok (value, { parser with rest := last }) := by
  cases htext with
  | @mk body cs hbody =>
    have hloop := jsonStringLoop_complete parser.len last hbody []
      (show body.length < (body ++ quote :: last).length by simp)
    have hrest' : parser.rest = quote :: (body ++ quote :: last) := by simp [hrest]
    unfold jsonParseStringRaw
    rw [hrest']
    simp only [if_false, hbounded, Bool.false_eq_true]
    rw [hloop]
    rfl

end Strings

end Sengoo.Stdlib
