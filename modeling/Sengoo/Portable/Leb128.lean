import Mathlib.Data.Nat.Bitwise

/-!
LEB128 numbers as the WebAssembly backend writes and reads them. A `u64` is a natural
number here and an `i64` an integer; `& 0x7f` and `>> 7` are the remainder and the quotient
by 128, and only a left shift can lose bits.
-/

namespace Sengoo.Portable

def writeUleb (value : Nat) : List UInt8 :=
  if value / 128 = 0 then [UInt8.ofNat (value % 128)]
  else UInt8.ofNat (value % 128 + 128) :: writeUleb (value / 128)
termination_by value
decreasing_by omega

def writeSleb (value : Int) : List UInt8 :=
  if (value / 128 = 0 ∧ value % 128 < 64) ∨ (value / 128 = -1 ∧ 64 ≤ value % 128) then
    [UInt8.ofNat (value % 128).toNat]
  else UInt8.ofNat ((value % 128).toNat + 128) :: writeSleb (value / 128)
termination_by value.natAbs
decreasing_by omega

/-- The loop on the bytes from the offset on. -/
def readUlebLoop : List UInt8 → Nat → Nat → Nat → Except String (Nat × Nat)
  | [], _, _, _ => .error "truncated WebAssembly LEB128"
  | byte :: rest, offset, result, shift =>
    let result := result ||| (byte.toNat % 128) <<< shift % 2 ^ 64
    if byte.toNat < 128 then .ok (result, offset + 1)
    else if 63 < shift + 7 then .error "WebAssembly LEB128 is too large"
    else readUlebLoop rest (offset + 1) result (shift + 7)

def readUlebAt (bytes : List UInt8) (offset : Nat) : Except String (Nat × Nat) :=
  readUlebLoop (bytes.drop offset) offset 0 0

/-- The number that the bytes begin with, of any size, and how many bytes it has. -/
def decodeUleb : List UInt8 → Option (Nat × Nat)
  | [] => none
  | byte :: rest =>
    if byte.toNat < 128 then some (byte.toNat, 1)
    else (decodeUleb rest).map fun (n, used) => (byte.toNat % 128 + 128 * n, used + 1)

/-- The rules of WebAssembly for a signed number of so many bits. -/
def decodeSleb : Nat → List UInt8 → Option (Int × List UInt8)
  | _, [] => none
  | width, byte :: rest =>
    let n : Int := byte.toNat
    if n < 64 ∧ n < 2 ^ (width - 1) then some (n, rest)
    else if 64 ≤ n ∧ n < 128 ∧ 128 - 2 ^ (width - 1) ≤ n then some (n - 128, rest)
    else if 128 ≤ n ∧ 7 < width then
      (decodeSleb (width - 7) rest).map fun (m, rest) => (128 * m + (n - 128), rest)
    else none

variable {bytes : List UInt8} {offset result shift left value next : Nat}

/-- A group of bits is put above those read before; what is past bit 63 is lost. -/
theorem or_shiftLeft_mod (hresult : result < 2 ^ shift) (hshift : shift ≤ 64) (group : Nat) :
    result ||| group <<< shift % 2 ^ 64 = result + 2 ^ shift * (group % 2 ^ (64 - shift)) := by
  have hwidth : 2 ^ 64 = 2 ^ (64 - shift) * 2 ^ shift := by
    rw [← pow_add, Nat.sub_add_cancel hshift]
  rw [Nat.shiftLeft_eq, hwidth, Nat.mul_mod_mul_right, Nat.or_comm, ← Nat.shiftLeft_eq,
    ← Nat.shiftLeft_add_eq_or_of_lt hresult, Nat.shiftLeft_eq, Nat.add_comm, Nat.mul_comm]

/-- The bits read so far stay below the next shift. -/
theorem add_group_lt (hresult : result < 2 ^ shift) (group : Nat) :
    result + 2 ^ shift * (group % 128) < 2 ^ (shift + 7) := by
  have hgroup : 2 ^ shift * (group % 128) ≤ 2 ^ shift * 127 :=
    Nat.mul_le_mul_left _ (Nat.le_of_lt_succ (Nat.mod_lt group (by decide)))
  rw [pow_add]
  omega

/-- The loop returns the number that the bytes still allowed encode, without the bits that
were shifted out. -/
theorem readUlebLoop_eq_ok (hleft : shift + 7 * left = 63) (hresult : result < 2 ^ shift) :
    readUlebLoop bytes offset result shift = .ok (value, next) ↔
      ∃ n used, decodeUleb (bytes.take (left + 1)) = some (n, used) ∧
        value = result + 2 ^ shift * (n % 2 ^ (64 - shift)) ∧ next = offset + used := by
  induction bytes generalizing offset result shift left with
  | nil => exact ⟨nofun, nofun⟩
  | cons byte rest ih =>
    rw [readUlebLoop, List.take_succ_cons, decodeUleb]
    simp only [or_shiftLeft_mod hresult (by omega : shift ≤ 64)]
    by_cases hlast : byte.toNat < 128
    · rw [if_pos hlast, if_pos hlast, Nat.mod_eq_of_lt hlast]
      constructor
      · intro h
        cases h
        exact ⟨_, _, rfl, rfl, rfl⟩
      · rintro ⟨_, _, h, rfl, rfl⟩
        cases h
        rfl
    · rw [if_neg hlast, if_neg hlast]
      cases left with
      | zero =>
        rw [if_pos (by omega)]
        exact ⟨nofun, nofun⟩
      | succ left =>
        have hpow : 2 ^ (64 - shift) = 128 * 2 ^ (64 - (shift + 7)) := by
          rw [show 64 - shift = 7 + (64 - (shift + 7)) by omega, pow_add]
          rfl
        have hpos : 0 < 2 ^ (64 - (shift + 7)) := Nat.two_pow_pos _
        have hleft' : shift + 7 + 7 * left = 63 := by omega
        rw [if_neg (by omega), Nat.mod_eq_of_lt (by omega : byte.toNat % 128 < 2 ^ (64 - shift)),
          ih hleft' (add_group_lt hresult _)]
        have hvalue (n : Nat) : result + 2 ^ shift * (byte.toNat % 128) +
            2 ^ (shift + 7) * (n % 2 ^ (64 - (shift + 7))) =
            result + 2 ^ shift * ((byte.toNat % 128 + 128 * n) % 2 ^ (64 - shift)) := by
          rw [hpow, Nat.mod_mul, Nat.add_mul_mod_self_left, Nat.mod_mod,
            show (byte.toNat % 128 + 128 * n) / 128 = n by omega, Nat.mul_add,
            show 2 ^ (shift + 7) = 2 ^ shift * 128 from pow_add 2 shift 7, Nat.mul_assoc,
            Nat.add_assoc]
        constructor
        · rintro ⟨n, used, hn, rfl, rfl⟩
          rw [hn]
          exact ⟨_, _, rfl, hvalue n, by omega⟩
        · rintro ⟨_, _, h, rfl, rfl⟩
          obtain ⟨⟨n, used⟩, hn, heq⟩ := Option.map_eq_some_iff.mp h
          cases heq
          exact ⟨n, used, hn, (hvalue n).symm, by omega⟩

theorem decodeUleb_writeUleb (v : Nat) (rest : List UInt8) :
    decodeUleb (writeUleb v ++ rest) = some (v, (writeUleb v).length) := by
  induction v using writeUleb.induct with
  | case1 v hlast =>
    have hbyte : (UInt8.ofNat (v % 128)).toNat = v := by simp; omega
    rw [writeUleb, if_pos hlast, List.singleton_append, decodeUleb, hbyte, if_pos (by omega)]
    rfl
  | case2 v hmore ih =>
    have hbyte : (UInt8.ofNat (v % 128 + 128)).toNat = v % 128 + 128 := by simp; omega
    rw [writeUleb, if_neg hmore, List.cons_append, decodeUleb, hbyte, if_neg (by omega), ih]
    simp only [Option.map_some, Nat.add_mod_right, Nat.mod_mod, Nat.mod_add_div, List.length_cons]

theorem length_writeUleb_le (v : Nat) (hv : v < 128 ^ (left + 1)) :
    (writeUleb v).length ≤ left + 1 := by
  induction v using writeUleb.induct generalizing left with
  | case1 v hlast =>
    rw [writeUleb, if_pos hlast]
    exact Nat.le_add_left 1 left
  | case2 v hmore ih =>
    rw [writeUleb, if_neg hmore, List.length_cons]
    cases left with
    | zero => omega
    | succ left => exact Nat.succ_le_succ (ih (Nat.div_lt_of_lt_mul (by rwa [pow_succ'] at hv)))

theorem decodeUleb_of_take {n used k : Nat} (h : decodeUleb (bytes.take k) = some (n, used)) :
    decodeUleb bytes = some (n, used) := by
  induction bytes generalizing k n used with
  | nil => rwa [List.take_nil] at h
  | cons byte rest ih =>
    cases k with
    | zero => cases h
    | succ k =>
      rw [List.take_succ_cons, decodeUleb] at h
      rw [decodeUleb]
      split_ifs at h ⊢ with hlast
      · exact h
      · obtain ⟨⟨m, used⟩, hm, heq⟩ := Option.map_eq_some_iff.mp h
        rw [ih hm]
        exact congrArg some heq

theorem decodeSleb_writeSleb (v : Int) {width : Nat} (hlow : -2 ^ (width - 1) ≤ v)
    (hhigh : v < 2 ^ (width - 1)) (rest : List UInt8) :
    decodeSleb width (writeSleb v ++ rest) = some (v, rest) := by
  induction v using writeSleb.induct generalizing width with
  | case1 v hlast =>
    have hbyte : (UInt8.ofNat (v % 128).toNat).toNat = (v % 128).toNat := by simp; omega
    rw [writeSleb, if_pos hlast, List.singleton_append, decodeSleb, hbyte]
    rcases hlast with ⟨hzero, hsmall⟩ | ⟨hone, hlarge⟩
    · rw [if_pos (by omega)]
      congr 2
      omega
    · rw [if_neg (by omega), if_pos (by omega)]
      congr 2
      omega
  | case2 v hmore ih =>
    have hbyte : (UInt8.ofNat ((v % 128).toNat + 128)).toNat = (v % 128).toNat + 128 := by
      simp; omega
    have hlarge : (2 : Int) ^ 6 < 2 ^ (width - 1) := by omega
    have hwide : 6 < width - 1 :=
      (Nat.pow_lt_pow_iff_right (by decide : 1 < 2)).mp (by exact_mod_cast hlarge)
    have hpow : (2 : Int) ^ (width - 1) = 128 * 2 ^ (width - 7 - 1) := by
      rw [show width - 1 = 7 + (width - 7 - 1) by omega, pow_add]
      rfl
    rw [writeSleb, if_neg hmore, List.cons_append, decodeSleb, hbyte, if_neg (by omega),
      if_neg (by omega), if_pos (by omega), ih (by omega) (by omega)]
    simp only [Option.map_some]
    congr 2
    omega

/-- A number that is written is read back, wherever it stands. What is read is the number
that the bytes encode, and below `2 ^ 64`, exactly where ten bytes encode no larger one, whose
bits the last shift drops. A signed number is written as WebAssembly reads it. -/
theorem leb128_codec (bytes : List UInt8) (offset : Nat) :
    (∀ (v : UInt64) (p s : List UInt8),
      readUlebAt (p ++ writeUleb v.toNat ++ s) p.length =
        .ok (v.toNat, p.length + (writeUleb v.toNat).length)) ∧
    ((∀ value next, readUlebAt bytes offset = .ok (value, next) → ∃ used,
        decodeUleb (bytes.drop offset) = some (value, used) ∧ next = offset + used ∧
          value < 2 ^ 64) ↔
      ∀ n used, decodeUleb ((bytes.drop offset).take 10) = some (n, used) → n < 2 ^ 64) ∧
    ∀ v : Int64, decodeSleb 64 (writeSleb v.toInt) = some (v.toInt, []) := by
  have hread : ∀ (bytes : List UInt8) (offset value next : Nat),
      readUlebAt bytes offset = .ok (value, next) ↔ ∃ n used,
        decodeUleb ((bytes.drop offset).take 10) = some (n, used) ∧ value = n % 2 ^ 64 ∧
          next = offset + used := by
    intro bytes offset value next
    have h := @readUlebLoop_eq_ok (bytes.drop offset) offset 0 0 9 value next (by decide) (by decide)
    simpa [readUlebAt] using h
  refine ⟨fun v p s => ?_, ⟨fun h n used hn => ?_, fun h value next hvalue => ?_⟩, fun v => ?_⟩
  · have hlength : (writeUleb v.toNat).length ≤ 10 :=
      length_writeUleb_le v.toNat (v.toNat_lt.trans (by decide))
    apply (hread _ _ _ _).mpr
    refine ⟨_, _, ?_, (Nat.mod_eq_of_lt v.toNat_lt).symm, rfl⟩
    rw [List.append_assoc, List.drop_left, List.take_append, List.take_of_length_le hlength]
    exact decodeUleb_writeUleb v.toNat _
  · obtain ⟨_, hdecode, -, hsmall⟩ := h _ _ ((hread _ _ _ _).mpr ⟨n, used, hn, rfl, rfl⟩)
    rw [decodeUleb_of_take hn] at hdecode
    have hmod : n = n % 2 ^ 64 := congrArg Prod.fst (Option.some.inj hdecode)
    rwa [← hmod] at hsmall
  · obtain ⟨n, used, hn, rfl, rfl⟩ := (hread _ _ _ _).mp hvalue
    have hsmall := h n used hn
    rw [Nat.mod_eq_of_lt hsmall]
    exact ⟨used, decodeUleb_of_take hn, rfl, hsmall⟩
  · rw [← List.append_nil (writeSleb v.toInt)]
    exact decodeSleb_writeSleb v.toInt v.le_toInt v.toInt_lt []

/-- Nine bytes that go on and a tenth with its second bit encode `2 ^ 64`, but read as zero. -/
theorem readUlebAt_drops_bit :
    readUlebAt (List.replicate 9 128 ++ [2]) 0 = .ok (0, 10) ∧
      decodeUleb (List.replicate 9 128 ++ [2]) = some (2 ^ 64, 10) := by
  decide

end Sengoo.Portable
