import Mathlib.Data.List.Basic
import Mathlib.Data.List.Flatten

/-!
Texts as characters and as bytes. A byte below 128 in the UTF-8 encoding of a
text is a character of its own, so a byte scanner that stops at such bytes
only, and steps over all others, stops between characters.
-/

namespace Sengoo.Utf8

open List

/-- The bytes of a text. -/
def bytes (text : List Char) : List UInt8 := text.flatMap String.utf8EncodeChar

@[simp] theorem bytes_nil : bytes [] = [] := rfl

@[simp] theorem bytes_cons (c : Char) (text : List Char) :
    bytes (c :: text) = String.utf8EncodeChar c ++ bytes text := rfl

variable (front back : List Char)

@[simp] theorem bytes_append :
    bytes (front ++ back) = bytes front ++ bytes back := flatMap_append

theorem encode_ascii {c : Char} (h : c.toNat < 128) :
    String.utf8EncodeChar c = [UInt8.ofNat c.toNat] := by
  exact if_pos (Nat.le_of_lt_succ h)

/-- The bytes of a two to four byte character, as the encoder writes them. -/
theorem toNat_encode (c : Char) : (String.utf8EncodeChar c).map UInt8.toNat =
      if c.toNat < 0x80 then [c.toNat]
      else if c.toNat < 0x800 then [0xc0 + c.toNat / 64, 0x80 + c.toNat % 64]
      else if c.toNat < 0x10000 then
        [0xe0 + c.toNat / 4096, 0x80 + c.toNat / 64 % 64, 0x80 + c.toNat % 64]
      else [0xf0 + c.toNat / 262144, 0x80 + c.toNat / 4096 % 64, 0x80 + c.toNat / 64 % 64,
        0x80 + c.toNat % 64] := by
  have hvalid : c.toNat.isValidChar := c.valid
  unfold String.utf8EncodeChar
  simp only [Char.toNat_val]
  split_ifs <;> simp only [map_cons, map_nil, UInt8.toNat_ofNat', List.cons.injEq,
    and_true, reduceCtorEq] <;> omega

/-- The bytes of any other character are above those of ASCII. -/
theorem encode_high {c : Char} (h : 128 ≤ c.toNat) :
    ∀ b ∈ String.utf8EncodeChar c, 128 ≤ b.toNat := by
  intro b hb
  have hmem := mem_map_of_mem (f := UInt8.toNat) hb
  rw [toNat_encode, if_neg (Nat.not_lt_of_le h)] at hmem
  split_ifs at hmem <;> simp only [mem_cons, not_mem_nil, or_false] at hmem <;> omega

/-- The byte of an ASCII character is in no other character. -/
theorem notMem_encode {c : Char} (ascii : Char) (hascii : ascii.toNat < 128) (h : c ≠ ascii) :
    UInt8.ofNat ascii.toNat ∉ String.utf8EncodeChar c := by
  have hbyte : (UInt8.ofNat ascii.toNat).toNat = ascii.toNat := by
    rw [UInt8.toNat_ofNat']
    omega
  intro hmem
  by_cases hc : c.toNat < 128
  · rw [encode_ascii hc, mem_singleton] at hmem
    have hnat := congrArg UInt8.toNat hmem
    rw [hbyte, UInt8.toNat_ofNat'] at hnat
    exact h (Char.toNat_inj.mp (by omega))
  · have hhigh := encode_high (Nat.le_of_not_lt hc) _ hmem
    omega

/-- Behind its first byte a character has none of ASCII. -/
theorem tail_encode_high (c : Char) : ∀ b ∈ (String.utf8EncodeChar c).tail, 128 ≤ b.toNat := by
  intro b hb
  by_cases hc : c.toNat < 128
  · rw [encode_ascii hc] at hb
    cases hb
  · exact encode_high (Nat.le_of_not_lt hc) b (mem_of_mem_tail hb)

/-- The number of bytes of a text. -/
def size (text : List Char) : Nat := (bytes text).length

@[simp] theorem size_nil : size [] = 0 := rfl

@[simp] theorem size_cons (c : Char) (text : List Char) :
    size (c :: text) = c.utf8Size + size text := by
  simp [size]

@[simp] theorem size_append : size (front ++ back) = size front + size back := by
  simp [size]

/-- The text from a byte offset on, if the offset is between two characters. -/
def afterBytes : List Char → Nat → Option (List Char)
  | text, 0 => some text
  | [], _ + 1 => none
  | c :: text, n + 1 => if c.utf8Size ≤ n + 1 then afterBytes text (n + 1 - c.utf8Size) else none

/-- The first bytes of a text, if they end between two characters. -/
def takeBytes : List Char → Nat → Option (List Char)
  | _, 0 => some []
  | [], _ + 1 => none
  | c :: text, n + 1 =>
    if c.utf8Size ≤ n + 1 then (takeBytes text (n + 1 - c.utf8Size)).map (c :: ·) else none

theorem splitBytes_size : afterBytes (front ++ back) (size front) = some back ∧
    takeBytes (front ++ back) (size front) = some front := by
  induction front with
  | nil => cases back <;> exact ⟨rfl, rfl⟩
  | cons c front ih =>
    have hpos := c.utf8Size_pos
    obtain ⟨n, hn⟩ : ∃ n, c.utf8Size + size front = n + 1 :=
      ⟨c.utf8Size + size front - 1, by omega⟩
    rw [size_cons, hn, cons_append, afterBytes, takeBytes, if_pos (by omega), if_pos (by omega),
      show n + 1 - c.utf8Size = size front by omega, ih.2]
    exact ⟨ih.1, rfl⟩

/-- The text between two byte offsets. -/
def slice (text : List Char) (lo hi : Nat) : Option (List Char) :=
  (afterBytes text lo).bind fun rest => takeBytes rest (hi - lo)

theorem slice_middle (front middle back : List Char) :
    slice (front ++ (middle ++ back)) (size front) (size front + size middle) = some middle := by
  rw [slice, (splitBytes_size _ _).1, Option.bind_some, Nat.add_sub_cancel_left, (splitBytes_size _ _).2]

end Sengoo.Utf8
