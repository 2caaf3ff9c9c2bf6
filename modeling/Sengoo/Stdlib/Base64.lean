import Mathlib.Data.Nat.Bitwise
import Sengoo.Fallible
import Sengoo.Json.Grammar

/-!
Base64 of byte strings and of managed buffers. Pointers are not null, handles are live and
allocations succeed; errors are status codes.
-/

namespace Sengoo.Stdlib

open Json List Fallible

structure ManagedBuffer where
  handle : Nat
  capacity : Nat
  used : Bytes
  fits : used.length ≤ capacity

def copyBytesToManagedBuffer (buffer : ManagedBuffer) (bytes : Bytes) : Except Nat ManagedBuffer :=
  if h : bytes.length ≤ buffer.capacity then .ok { buffer with used := bytes, fits := h }
  else .error 4

def ManagedBuffer.clear (buffer : ManagedBuffer) : ManagedBuffer :=
  { buffer with used := [], fits := Nat.zero_le _ }

/-- The first bytes of `src`, so many as given, put behind those of the buffer. -/
def ManagedBuffer.appendCopy (buffer src : ManagedBuffer) (len : Nat) : Except Nat ManagedBuffer :=
  if src.used.length < len then .error 2
  else if h : (buffer.used ++ src.used.take len).length ≤ buffer.capacity then
    .ok { buffer with used := buffer.used ++ src.used.take len, fits := h }
  else .error 4

def base64Table : Bytes :=
  ascii "ABCDEFGHIJKLMNOPQRSTUVWXYZabcdefghijklmnopqrstuvwxyz0123456789+/"

def base64Symbol (n : Nat) : UInt8 := base64Table.getD (n % 64) 0

def base64Triple (a : UInt8) (b c : Option UInt8) : Nat :=
  (a.toNat <<< 16 ||| (b.elim 0 (·.toNat)) <<< 8) ||| c.elim 0 (·.toNat)

/-- The loop, with `i + 1` and `i + 2` tested against the end by an option. -/
def base64Loop : Bytes → Bytes
  | [] => []
  | a :: rest =>
    let triple := base64Triple a rest[0]? rest[1]?
    [base64Symbol (triple >>> 18), base64Symbol (triple >>> 12),
      if 0 < rest.length then base64Symbol (triple >>> 6) else byte '=',
      if 1 < rest.length then base64Symbol triple else byte '='] ++ base64Loop (rest.drop 2)
termination_by data => data.length

def encodingBase64Encode (data : Bytes) (out : ManagedBuffer) : Except Nat ManagedBuffer :=
  if 65536 < data.length then .error 2 else copyBytesToManagedBuffer out (base64Loop data)

/-- The loop over chunks; `rest` is the input from `offset` on. -/
def base64Chunks (rest : Bytes) (chunk out : ManagedBuffer) : Except Nat ManagedBuffer :=
  if rest.length = 0 then .ok out
  else do
    let chunk ← encodingBase64Encode (rest.take 65535) chunk
    let out ← out.appendCopy chunk chunk.used.length
    base64Chunks (rest.drop 65535) chunk out
termination_by rest.length
decreasing_by simp; omega

def encodingBase64EncodeBufferBounded (buffer : ManagedBuffer) (usedLen maxBytes : Int)
    (out : ManagedBuffer) : Except Nat (Int × ManagedBuffer) :=
  if maxBytes < 1 ∨ 16777216 < maxBytes ∨ usedLen < 0 ∨ buffer.used.length < usedLen ∨
      buffer.handle = out.handle then .error 2
  else
    let length := (usedLen + 2) / 3 * 4
    if maxBytes < usedLen ∨ out.capacity < length then .error 13
    else if usedLen = 0 then .ok (0, out.clear)
    else do
      let out ← base64Chunks (buffer.used.take usedLen.toNat) ⟨0, 87380, [], Nat.zero_le _⟩ out.clear
      .ok (length, out)

/-- The value of a symbol of the alphabet. -/
def base64Value (b : UInt8) : Option Nat := base64Table.findIdx? (· = b)

/-- Groups of four symbols, the last of which may be padded. -/
def base64Decode : Bytes → Option Bytes
  | [] => some []
  | w :: x :: y :: z :: rest => do
    let w ← base64Value w
    let x ← base64Value x
    if z = byte '=' then
      if rest ≠ [] then none
      else if y = byte '=' then some [UInt8.ofNat (w * 4 + x / 16)]
      else
        let y ← base64Value y
        some [UInt8.ofNat (w * 4 + x / 16), UInt8.ofNat (x % 16 * 16 + y / 4)]
    else
      let y ← base64Value y
      let z ← base64Value z
      let bytes ← base64Decode rest
      some (UInt8.ofNat (w * 4 + x / 16) :: UInt8.ofNat (x % 16 * 16 + y / 4) ::
        UInt8.ofNat (y % 4 * 64 + z) :: bytes)
  | _ => none

theorem base64Symbol_spec (n : Nat) :
    base64Value (base64Symbol n) = some (n % 64) ∧ base64Symbol n ≠ byte '=' := by
  have hall : ∀ n < 64, base64Table.findIdx? (· = base64Table.getD n 0) = some n ∧
      base64Table.getD n 0 ≠ byte '=' := by decide +kernel
  exact hall (n % 64) (Nat.mod_lt n (by decide))

theorem base64Triple_eq (a : UInt8) (b c : Option UInt8) : base64Triple a b c =
    a.toNat * 65536 + (b.elim 0 (·.toNat)) * 256 + c.elim 0 (·.toNat) := by
  have hlt : ∀ d : Option UInt8, d.elim 0 (·.toNat) < 256 := by
    rintro (_ | d)
    · decide
    · exact d.toNat_lt
  have hc : c.elim 0 (·.toNat) < 2 ^ 8 := hlt c
  have hb := hlt b
  have hbc : (b.elim 0 (·.toNat)) <<< 8 + c.elim 0 (·.toNat) < 2 ^ 16 := by
    rw [Nat.shiftLeft_eq]
    omega
  rw [base64Triple, Nat.or_assoc, ← Nat.shiftLeft_add_eq_or_of_lt hc,
    ← Nat.shiftLeft_add_eq_or_of_lt hbc, Nat.shiftLeft_eq, Nat.shiftLeft_eq, Nat.add_assoc]

theorem ofNat_eq_of_toNat {n : Nat} {b : UInt8} (h : n = b.toNat) : UInt8.ofNat n = b := by
  rw [h, UInt8.ofNat_toNat]

theorem base64Decode_loop (data : Bytes) : base64Decode (base64Loop data) = some data := by
  induction data using base64Loop.induct with
  | case1 => rw [base64Loop]; rfl
  | case2 a rest ih =>
    have ha := a.toNat_lt
    have hvalue := fun n => (base64Symbol_spec n).1
    have hne := fun n => (base64Symbol_spec n).2
    rw [base64Loop]
    simp only [base64Triple_eq, Nat.shiftRight_eq_div_pow]
    -- the three lengths of the last group; only a whole one has something behind it
    rcases rest with _ | ⟨b, _ | ⟨c, rest⟩⟩
    · simp [base64Decode, hvalue, base64Loop, -UInt8.ofNat_add]
      exact ofNat_eq_of_toNat (by omega)
    · have hb := b.toNat_lt
      simp [base64Decode, hvalue, hne, base64Loop, -UInt8.ofNat_add]
      exact ⟨ofNat_eq_of_toNat (by omega), ofNat_eq_of_toNat (by omega)⟩
    · have hb := b.toNat_lt
      have hc := c.toNat_lt
      have hrest : base64Decode (base64Loop rest) = some rest := ih
      simp [base64Decode, hvalue, hne, hrest, -UInt8.ofNat_add]
      exact ⟨ofNat_eq_of_toNat (by omega), ofNat_eq_of_toNat (by omega),
        ofNat_eq_of_toNat (by omega)⟩

theorem length_base64Loop (data : Bytes) : (base64Loop data).length = (data.length + 2) / 3 * 4 := by
  induction data using base64Loop.induct with
  | case1 => rw [base64Loop]; rfl
  | case2 a rest ih =>
    rw [base64Loop, length_append, ih, length_drop]
    simp only [length_cons, length_nil]
    omega

/-- No group is padded before a boundary that three divides. -/
theorem base64Loop_append (front rest : Bytes) (hfront : 3 ∣ front.length) :
    base64Loop (front ++ rest) = base64Loop front ++ base64Loop rest := by
  induction front using base64Loop.induct with
  | case1 => rw [base64Loop]; rfl
  | case2 a front ih =>
    rcases front with _ | ⟨b, _ | ⟨c, front⟩⟩
    · exact absurd hfront (by simp)
    · exact absurd hfront (by simp)
    · have hdvd : 3 ∣ front.length := by
        simp only [length_cons] at hfront
        omega
      have hrest : base64Loop (front ++ rest) = base64Loop front ++ base64Loop rest := ih hdvd
      simp [base64Loop, hrest]

theorem base64Loop_chunk (rest : Bytes) :
    base64Loop rest = base64Loop (rest.take 65535) ++ base64Loop (rest.drop 65535) := by
  by_cases hlast : rest.length ≤ 65535
  · rw [take_of_length_le hlast, drop_of_length_le hlast, base64Loop, append_nil]
  · have hlength : (rest.take 65535).length = 3 * 21845 := length_take_of_le (by omega)
    rw [← base64Loop_append _ _ ⟨21845, hlength⟩, take_append_drop]

theorem encodingBase64Encode_eq (data : Bytes) (out : ManagedBuffer) (hdata : data.length ≤ 65536)
    (hroom : (base64Loop data).length ≤ out.capacity) :
    encodingBase64Encode data out = .ok { out with used := base64Loop data, fits := hroom } := by
  rw [encodingBase64Encode, if_neg (by omega), copyBytesToManagedBuffer, dif_pos hroom]

theorem appendCopy_eq (buffer src : ManagedBuffer)
    (hroom : (buffer.used ++ src.used).length ≤ buffer.capacity) :
    buffer.appendCopy src src.used.length =
      .ok { buffer with used := buffer.used ++ src.used, fits := hroom } := by
  rw [ManagedBuffer.appendCopy, if_neg (Nat.lt_irrefl _)]
  simp only [take_length, dif_pos hroom]

/-- The chunks written behind one another are the encoding of the whole. -/
theorem base64Chunks_eq (rest : Bytes) (chunk out : ManagedBuffer)
    (hchunk : chunk.capacity = 87380)
    (hroom : (out.used ++ base64Loop rest).length ≤ out.capacity) :
    ∃ out', base64Chunks rest chunk out = .ok out' ∧ out'.used = out.used ++ base64Loop rest := by
  rw [base64Chunks]
  by_cases hnil : rest.length = 0
  · rw [if_pos hnil, length_eq_zero_iff.mp hnil, base64Loop, append_nil]
    exact ⟨out, rfl, rfl⟩
  · have htake : (rest.take 65535).length ≤ 65535 := length_take_le ..
    have hfirst : (base64Loop (rest.take 65535)).length ≤ chunk.capacity := by
      rw [length_base64Loop, hchunk]
      omega
    rw [base64Loop_chunk, ← append_assoc] at hroom ⊢
    have hfits : (out.used ++ base64Loop (rest.take 65535)).length ≤ out.capacity := by
      rw [length_append] at hroom
      omega
    rw [if_neg hnil, encodingBase64Encode_eq _ _ (by omega) hfirst]
    simp only [bind, Except.bind, appendCopy_eq out ⟨_, _, _, hfirst⟩ hfits]
    exact base64Chunks_eq (rest.drop 65535) _ _ hchunk hroom
termination_by rest.length

/-- What is encoded decodes to the input, and has four symbols for three bytes; every input up
to the limit is encoded. In chunks the encoding is that of the whole input. -/
theorem base64_exact :
    (∀ data : Bytes, base64Decode (base64Loop data) = some data ∧
      (base64Loop data).length = 4 * ((data.length + 2) / 3)) ∧
    (∀ (data : Bytes) (out : ManagedBuffer),
      (∀ out', encodingBase64Encode data out = .ok out' → out'.used = base64Loop data) ∧
      (data.length ≤ 65536 → 4 * ((data.length + 2) / 3) ≤ out.capacity →
        ∃ out', encodingBase64Encode data out = .ok out')) ∧
    ∀ (buffer out : ManagedBuffer) (usedLen maxBytes : Int), buffer.handle ≠ out.handle →
      1 ≤ maxBytes → maxBytes ≤ 16777216 → 0 ≤ usedLen → usedLen ≤ buffer.used.length →
      usedLen ≤ maxBytes → 4 * ((usedLen + 2) / 3) ≤ out.capacity →
      ∃ out', encodingBase64EncodeBufferBounded buffer usedLen maxBytes out =
          .ok (out'.used.length, out') ∧
        out'.used = base64Loop (buffer.used.take usedLen.toNat) := by
  refine ⟨fun data => ⟨base64Decode_loop data, ?_⟩,
    fun data out => ⟨fun out' h => ?_, fun hdata hroom => ?_⟩, ?_⟩
  · rw [length_base64Loop, Nat.mul_comm]
  · obtain ⟨-, h⟩ := of_guard h
    rw [copyBytesToManagedBuffer] at h
    split at h
    · cases h
      rfl
    · cases h
  · have hlength := length_base64Loop data
    exact ⟨_, encodingBase64Encode_eq data out hdata (by omega)⟩
  · intro buffer out usedLen maxBytes hhandle hlow hhigh hnonneg hused hmax hroom
    have htake : (buffer.used.take usedLen.toNat).length = usedLen.toNat :=
      length_take_of_le (by omega)
    have hlength := length_base64Loop (buffer.used.take usedLen.toNat)
    rw [htake] at hlength
    rw [encodingBase64EncodeBufferBounded, if_neg (by omega), if_neg (by omega)]
    by_cases hzero : usedLen = 0
    · subst hzero
      exact ⟨out.clear, rfl, by rw [Int.toNat_zero, take_zero, base64Loop]; rfl⟩
    · obtain ⟨out', hchunks, hout⟩ := base64Chunks_eq (buffer.used.take usedLen.toNat)
        ⟨0, 87380, [], Nat.zero_le _⟩ out.clear rfl (by
          show (base64Loop _).length ≤ out.capacity
          omega)
      refine ⟨out', ?_, hout⟩
      have hwhole : out'.used.length = (usedLen.toNat + 2) / 3 * 4 := by
        rw [hout]
        exact hlength
      rw [if_neg hzero, hchunks, hwhole]
      exact congrArg (fun n => Except.ok (n, out')) (by omega)

/-- Four of the five bytes of a buffer, encoded into one with room for eight symbols. -/
theorem base64_exact_buffer :
    ∃ out', encodingBase64EncodeBufferBounded ⟨1, 8, [77, 97, 110, 33, 0], by decide⟩ 4 16
        ⟨2, 8, [], by decide⟩ = .ok (out'.used.length, out') ∧
      out'.used = base64Loop [77, 97, 110, 33] ∧ base64Decode out'.used = some [77, 97, 110, 33] := by
  obtain ⟨hdecode, -, hbuffer⟩ := base64_exact
  obtain ⟨out', hencode, hout⟩ := hbuffer ⟨1, 8, [77, 97, 110, 33, 0], by decide⟩
    ⟨2, 8, [], by decide⟩ 4 16 (by decide) (by decide) (by decide) (by decide) (by decide)
    (by decide) (by decide)
  exact ⟨out', hencode, hout, hout ▸ (hdecode _).1⟩

end Sengoo.Stdlib
