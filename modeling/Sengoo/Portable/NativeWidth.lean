import Sengoo.Portable.ExactScalar
import Sengoo.Portable.WasmSimulation

/-!
Portable slots against the declared widths. The VM computes on 64 bits and only
a cast cuts its result, so a slot is the extension of the native value as long
as the exact result of every executed instruction fits the type of the local it
is stored in. Under that condition the slots of every reachable state are
extensions, and every instruction stores the extension of what the native
instruction computes from the same inputs.
-/

namespace Sengoo.Portable

open StateTransition Sengoo.Mir Sengoo.Width Sengoo.Codegen Sengoo.Fallible Sengoo.Transition List Option

variable {function : PortableFunction}

variable {locals locals' : List I64} {value : I64} {destination : Local}
  {callers' callers : List VmCaller} {slot : UInt32} {state : VmState}
  {indices : String → Option UInt32} {previousBlock : Option UInt32} {incoming : List (Local × Nat)}
  {z : Int} {instruction : Instruction} {rightTy : MIRType}

section Slots

variable {ty : MIRType} {native : Option NativeValue}

variable (mir : MirFunction)

/-- The integer type of a slot, by its place in the table of locals. -/
def declaredType (slot : UInt32) : Option IntType :=
  match mir.locals[slot.toNat]? with
  | some (_, ty) => integerType ty
  | none => none

/-- What the native local holds when the slot is an extension: its low bits. -/
def slotBits (locals : List I64) (slot : UInt32) : Option NativeValue :=
  match declaredType mir slot, locals[slot.toNat]? with
  | some ty, some value => some ⟨ty.bits, value.setWidth ty.bits⟩
  | _, _ => none

def IsExtension (ty : IntType) (value : I64) : Prop :=
  value = extend ty.signed 64 (value.setWidth ty.bits)

instance (ty : IntType) (value : I64) : Decidable (IsExtension ty value) :=
  inferInstanceAs (Decidable (_ = _))

def SlotsExtended (locals : List I64) : Prop :=
  ∀ slot ty value, declaredType mir slot = some ty →
    locals[slot.toNat]? = some value → IsExtension ty value

/-- The table lists the locals by id, as `add_local` builds it, and the edges of
phis are block indices that fit in `u32`. -/
structure WellIndexed : Prop where
  locals : ∀ k (entry : Local × MIRType), mir.locals[k]? = some entry → entry.1.id.toNat = k
  phiEdges : ∀ destination incoming, .phi destination incoming ∈ mir.instructions →
    ∀ edge ∈ incoming, edge.2 < 2 ^ 32

/-- An exact result fits the local it is stored in; at 64 bits both sides wrap
alike. -/
def ResultFits (slot : UInt32) (exact : Int) : Prop :=
  match declaredType mir slot with
  | some ty => ty.bits = 64 ∨ InRange ty.signed ty.bits exact
  | none => True

instance (mir : MirFunction) (slot : UInt32) (exact : Int) :
    Decidable (ResultFits mir slot exact) := by
  unfold ResultFits
  split <;> infer_instance

/-- The condition on one instruction: its exact result fits, and an order of
booleans, which natively is that of signed one-bit integers, compares equals. -/
def InstructionFits (previousBlock : Option UInt32)
    (locals : List I64) : PortableInstruction → Prop
  | .const destination value => ResultFits mir destination value.toInt
  | .unary destination op operand =>
    ∀ value, getLocal locals operand = .ok value →
      ResultFits mir destination (exactUnary op value.toInt)
  | .binary destination op left right unsigned =>
    ∀ x y, getLocal locals left = .ok x → getLocal locals right = .ok y → ResultFits mir destination
        (exactBinary op (toInteger (!unsigned) x) (toInteger (!unsigned) y)) ∧
      (op.isOrdered = true → declaredType mir left = some ⟨1, false⟩ → x = y)
  | .move destination source =>
    ∀ value, getLocal locals source = .ok value → ResultFits mir destination value.toInt
  | .phi destination incoming =>
    ∀ previous source value, previousBlock = some previous →
      phiSource incoming previous = some source → getLocal locals source = .ok value →
      ResultFits mir destination value.toInt
  | .cast _ _ _ _ | .call _ _ _ | .nop => True

variable {mir} {ty : IntType}

/-- The widths that the lowering accepts. -/
def ValidTypes (mir : MirFunction) : Prop :=
  ∀ entry ∈ mir.locals, ∀ bits, entry.2 = .int bits ∨ entry.2 = .uint bits →
    8 ≤ bits.toNat ∧ bits.toNat ≤ 64

theorem validTypes_of_fromMir {target : PortableBackendTarget}
    (h : PortableFunction.fromMir target indices mir = .ok function) : ValidTypes mir := by
  intro entry hentry bits hbits
  obtain ⟨scalar, hscalar⟩ := PortableFunction.fromMir_locals h entry hentry
  have hwidth : bits = 8 ∨ bits = 16 ∨ bits = 32 ∨ bits = 64 := by
    rcases hbits with hbits | hbits
    all_goals
      rw [hbits, portableScalarType] at hscalar
      split at hscalar
      · assumption
      · cases hscalar
  rcases hwidth with rfl | rfl | rfl | rfl <;> decide

section

variable (h : ValidTypes mir) (hty : declaredType mir slot = some ty)
include h hty

theorem ValidTypes.bool_or_wide : ty = ⟨1, false⟩ ∨ (8 ≤ ty.bits ∧ ty.bits ≤ 64) := by
  unfold declaredType at hty
  split at hty
  · rename_i entry mirTy hentry
    have hbits := h _ (mem_of_getElem? hentry)
    cases mirTy with
    | bool =>
      cases hty
      exact .inl rfl
    | int bits =>
      cases hty
      exact .inr (hbits bits (.inl rfl))
    | uint bits =>
      cases hty
      exact .inr (hbits bits (.inr rfl))
    | _ => cases hty
  · cases hty

theorem ValidTypes.pos : 0 < ty.bits := by
  rcases h.bool_or_wide hty with rfl | ⟨hlow, -⟩
  · decide
  · omega

theorem ValidTypes.le : ty.bits ≤ 64 := by
  rcases h.bool_or_wide hty with rfl | ⟨-, hhigh⟩
  · decide
  · exact hhigh

end

theorem IsExtension.toInteger_eq (h : IsExtension ty value) (hpos : 0 < ty.bits)
    (hle : ty.bits ≤ 64) :
    toInteger ty.signed value = toInteger ty.signed (value.setWidth ty.bits) := by
  have hread : toInteger ty.signed (extend ty.signed 64 (value.setWidth ty.bits)) =
      toInteger ty.signed (value.setWidth ty.bits) := toInteger_extend hpos hle _
  rwa [← h] at hread

theorem IsExtension.eq_zero_iff (h : IsExtension ty value) :
    value.setWidth ty.bits = 0 ↔ value.toInt = 0 := by
  have hzero : value.toInt = 0 ↔ value = 0 := @toInteger_eq_zero 64 true value
  rw [hzero]
  constructor
  · intro hlow
    rw [IsExtension, hlow, extend_eq_ofInt, toInteger_eq_zero.mpr rfl] at h
    exact h
  · rintro rfl
    simp

/-- A one-bit slot reads the same with either sign. -/
theorem IsExtension.toInt_bool (h : IsExtension ⟨1, false⟩ value) :
    value.toInt = (value.setWidth 1).toNat := by
  have hread := @toInt_extend_unsigned 1 64 (by omega) (value.setWidth 1)
  rwa [← h] at hread

section

variable (hvalid : ValidTypes mir) (hty : declaredType mir slot = some ty)
  (hfits : ResultFits mir slot z)
include hvalid hty hfits

/-- An integer that fits is stored as the extension of its low bits. -/
theorem extend_of_resultFits :
    extend ty.signed 64 (BitVec.ofInt ty.bits z) = BitVec.ofInt 64 z := by
  simp only [ResultFits, hty] at hfits
  rcases hfits with hfull | hrange
  · rw [hfull, extend_eq_ofInt, ofInt_toInteger]
  · exact extend_ofInt (hvalid.pos hty) hrange

theorem isExtension_of_resultFits : IsExtension ty (BitVec.ofInt 64 z) := by
  rw [IsExtension, setWidth_ofInt (hvalid.le hty), extend_of_resultFits hvalid hty hfits]

end

theorem SlotsExtended.set (h : SlotsExtended mir locals) (hvalid : ValidTypes mir)
    (hfits : ResultFits mir slot z) :
    SlotsExtended mir (locals.set slot.toNat (BitVec.ofInt 64 z)) := by
  intro other ty value hty hvalue
  rw [getElem?_set] at hvalue
  split at hvalue
  · rename_i hslot
    split at hvalue
    · cases hvalue
      obtain rfl : slot = other := UInt32.toNat_inj.mp hslot
      exact isExtension_of_resultFits hvalid hty hfits
    · cases hvalue
  · exact h other ty value hty hvalue

end Slots

variable {lowered : PortableInstruction}

section Instruction

variable {target : PortableBackendTarget} {mir : MirFunction}

/-- The type that the lowering reads for a local is the one of its slot. -/
theorem WellIndexed.table_of_mirLocalType (hindexed : WellIndexed mir)
    (h : mirLocalType mir slot = .ok ty) :
    ∃ entry, mir.locals[slot.toNat]? = some (entry, ty) := by
  unfold mirLocalType at h
  split at h
  · rename_i entry mirTy hfind
    cases h
    have hid : entry.id = slot := by simpa using find?_some hfind
    obtain ⟨k, hk⟩ := mem_iff_getElem?.mp (mem_of_find?_eq_some hfind)
    have hplace : entry.id.toNat = k := hindexed.locals k _ hk
    exact ⟨entry, by rw [← hid, hplace, hk]⟩
  · cases h

theorem WellIndexed.declaredType_eq (hindexed : WellIndexed mir)
    (h : mirLocalType mir slot = .ok ty) :
    declaredType mir slot = integerType ty := by
  obtain ⟨entry, hentry⟩ := hindexed.table_of_mirLocalType h
  simp only [declaredType, hentry]

theorem WellIndexed.getLocalType_eq (hindexed : WellIndexed mir) {slot : Local}
    (h : mirLocalType mir slot.id = .ok ty) : getLocalType mir slot = ty := by
  obtain ⟨entry, hentry⟩ := hindexed.table_of_mirLocalType h
  simp only [getLocalType, hentry]

theorem integerType_getLocalType {slot : Local} {ty : IntType}
    (hty : declaredType mir slot.id = some ty) :
    integerType (getLocalType mir slot) = some ty := by
  unfold declaredType at hty
  unfold getLocalType
  cases hentry : mir.locals[slot.id.toNat]? with
  | none => exact nomatch (hentry ▸ hty :)
  | some entry => exact (hentry ▸ hty :)

theorem slotBits_eq_some {bits : NativeValue} (hvalue : locals[slot.toNat]? = some value)
    (h : slotBits mir locals slot = some bits) :
    ∃ ty, declaredType mir slot = some ty ∧ bits = ⟨ty.bits, value.setWidth ty.bits⟩ := by
  unfold slotBits at h
  rw [hvalue] at h
  split at h
  · rename_i ty _ hty hfound
    cases hfound
    cases h
    exact ⟨ty, hty, rfl⟩
  · cases h

/-- The instruction stores one exact integer that fits, and the native value, if
there is one at the type of the destination, is the same integer. -/
def WritesExact (mir : MirFunction) (locals locals' : List I64) (destination : Local)
    (native : Option NativeValue) : Prop :=
  ∃ z, destination.id.toNat < locals.length ∧
    locals' = locals.set destination.id.toNat (BitVec.ofInt 64 z) ∧
    ResultFits mir destination.id z ∧
    ∀ result ty, native = some result → declaredType mir destination.id = some ty →
      result.width = ty.bits → result.bits = BitVec.ofInt result.width z

theorem WritesExact.of_setLocal (hset : setLocal locals destination.id value = .ok locals')
    (hvalue : value = BitVec.ofInt 64 z) (hfits : ResultFits mir destination.id z)
    (hnative : ∀ result ty, native = some result →
      declaredType mir destination.id = some ty → result.width = ty.bits →
      result.bits = BitVec.ofInt result.width z) :
    WritesExact mir locals locals' destination native := by
  obtain ⟨hslot, rfl⟩ := setLocal_ok hset
  exact ⟨z, hslot, by rw [hvalue], hfits, hnative⟩

theorem find_incoming {previous source : UInt32}
    {entry : Local × Nat} (hedges : ∀ edge ∈ incoming, edge.2 < 2 ^ 32)
    (hsource : phiSource
      (incoming.map (fun entry => (entry.1.id, UInt32.ofNat entry.2))) previous = some source)
    (hentry : incoming.find? (fun entry => entry.2 = previous.toNat) = some entry) :
    entry.1.id = source := by
  induction incoming with
  | nil => cases hentry
  | cons edge rest ih =>
    have hedge : edge.2 < 2 ^ 32 := hedges edge (mem_cons_self ..)
    have hsame : UInt32.ofNat edge.2 = previous ↔ edge.2 = previous.toNat := by
      rw [← UInt32.toNat_inj, UInt32.toNat_ofNat', Nat.mod_eq_of_lt hedge]
    by_cases hmatch : edge.2 = previous.toNat
    · simp only [phiSource, map_cons, find?_cons, hsame.mpr hmatch, decide_true,
        map_some, Option.some.injEq] at hsource
      simp only [find?_cons, hmatch, decide_true, Option.some.injEq] at hentry
      rw [← hentry, hsource]
    · have hother : ¬ UInt32.ofNat edge.2 = previous := fun h => hmatch (hsame.mp h)
      apply ih (forall_mem_cons.mp hedges).2
      · simpa [phiSource, hother] using hsource
      · simpa [hmatch] using hentry

/-- The scalar type of the lowered cast is the declared type of the local. -/
theorem scalar_eq_integerType {scalar : PortableScalarType} {int : IntType}
    (h : portableScalarType target mir.name ty = .ok scalar)
    (hint : integerType ty = some int) : int = ⟨scalar.bits.toNat, scalar.signed⟩ := by
  cases ty with
  | bool =>
    cases h
    cases hint
    rfl
  | int bits | uint bits =>
    cases hint
    simp only [portableScalarType] at h
    split at h
    · cases h
      rfl
    · cases h
  | _ => cases hint

theorem extendScalar_eq (value : I64) (ty : PortableScalarType) :
    extendScalar value ty = extend ty.signed 64 (value.setWidth ty.bits.toNat) := rfl

section

variable (hvalid : ValidTypes mir)
include hvalid

theorem writesExact_const {constant : MirConstant}
    (hconstant : portableConstant target mir.name constant = .ok value)
    (hfits : ResultFits mir destination.id value.toInt)
    (hset : setLocal locals destination.id value = .ok locals') :
    WritesExact mir locals locals' destination
      (nativeConstant (getLocalType mir destination) constant) := by
  refine WritesExact.of_setLocal hset (BitVec.ofInt_toInt).symm hfits ?_
  intro result ty hresult hty hwidth
  have hle := hvalid.le hty
  have hinteger := integerType_getLocalType hty
  rw [← setWidth_ofInt (by omega : result.width ≤ 64), BitVec.ofInt_toInt]
  cases constant with
  | int v | uint v =>
    cases hconstant
    simp only [nativeConstant, hinteger, map_some, Option.some.injEq] at hresult
    subst hresult
    rfl
  | bool b =>
    cases hconstant
    cases hresult
    cases b <;> rfl
  | char c =>
    cases hconstant
    simp only [nativeConstant, hinteger, map_some, Option.some.injEq] at hresult
    subst hresult
    apply BitVec.eq_of_toNat_eq
    have hdvd : 2 ^ ty.bits ∣ 2 ^ 64 := pow_dvd_pow 2 hle
    simp only [BitVec.toNat_setWidth, BitVec.toNat_ofNat]
    rw [Nat.mod_mod_of_dvd _ hdvd]
  | unit => cases hresult
  | float bits | string text | bytes values | globalRef name => cases hconstant

theorem writesExact_phi (hedges : ∀ edge ∈ incoming, edge.2 < 2 ^ 32)
    (hfits : InstructionFits mir previousBlock locals (.phi destination.id
      (incoming.map (fun entry => (entry.1.id, UInt32.ofNat entry.2)))))
    (hexec : executeScalar (.phi destination.id
      (incoming.map (fun entry => (entry.1.id, UInt32.ofNat entry.2)))) previousBlock locals =
      .ok locals') :
    WritesExact mir locals locals' destination (do
      let previous ← previousBlock.map (·.toNat)
      let entry ← incoming.find? (fun entry => entry.2 = previous)
      slotBits mir locals entry.1.id) := by
  obtain ⟨previous, source, value, rfl, hsource, hvalue, hset⟩ := executeScalar_phi_ok hexec
  refine WritesExact.of_setLocal hset (BitVec.ofInt_toInt).symm
    (hfits previous source value rfl hsource hvalue) ?_
  intro result ty hresult hty hwidth
  obtain ⟨_, hprevious, hresult⟩ := bind_eq_some_iff.mp hresult
  cases hprevious
  obtain ⟨entry, hentry, hbits⟩ := bind_eq_some_iff.mp hresult
  rw [find_incoming hedges hsource hentry] at hbits
  obtain ⟨srcInt, hsrcInt, rfl⟩ := slotBits_eq_some (getLocal_ok hvalue) hbits
  rw [← setWidth_ofInt (hvalid.le hsrcInt), BitVec.ofInt_toInt]

variable (hindexed : WellIndexed mir)
include hindexed

/-- Operands of one width are two booleans, or two integers of the sign that the
lowered instruction records. -/
theorem binary_operand_types {left right : Local} {leftTy : MIRType}
    {leftInt rightInt : IntType} {unsigned : Bool} (hleft : mirLocalType mir left.id = .ok leftTy)
    (hright : mirLocalType mir right.id = .ok rightTy)
    (hunsigned : portableBinaryIsUnsigned target mir.name leftTy rightTy = .ok unsigned)
    (hleftInt : declaredType mir left.id = some leftInt)
    (hrightInt : declaredType mir right.id = some rightInt)
    (hbits : rightInt.bits = leftInt.bits) :
    isUnsigned leftTy = unsigned ∧
      ((leftInt = ⟨1, false⟩ ∧ rightInt = ⟨1, false⟩ ∧ unsigned = false) ∨
        (leftInt ≠ ⟨1, false⟩ ∧ leftInt.signed = !unsigned ∧ rightInt.signed = !unsigned)) := by
  obtain ⟨leftEntry, hleftTable⟩ := hindexed.table_of_mirLocalType hleft
  obtain ⟨rightEntry, hrightTable⟩ := hindexed.table_of_mirLocalType hright
  have hleftWide := hvalid _ (mem_of_getElem? hleftTable)
  have hrightWide := hvalid _ (mem_of_getElem? hrightTable)
  rw [hindexed.declaredType_eq hleft] at hleftInt
  rw [hindexed.declaredType_eq hright] at hrightInt
  cases leftTy <;> cases hleftInt <;> cases rightTy <;> cases hrightInt <;> cases hunsigned
  case bool.refl.bool.refl.refl => exact ⟨rfl, .inl ⟨rfl, rfl, rfl⟩⟩
  case bool.refl.int.refl.refl bits | bool.refl.uint.refl.refl bits =>
    have hwide := hrightWide bits (by simp)
    simp only at hbits
    omega
  case int.refl.bool.refl.refl bits | uint.refl.bool.refl.refl bits =>
    have hwide := hleftWide bits (by simp)
    simp only at hbits
    omega
  case int.refl.int.refl.refl => exact ⟨rfl, .inr ⟨by simp, rfl, rfl⟩⟩
  case uint.refl.uint.refl.refl bits rightBits =>
    have hwide := hleftWide bits (.inr rfl)
    refine ⟨rfl, .inr ⟨?_, rfl, rfl⟩⟩
    intro hbool
    have hone : bits.toNat = 1 := congrArg IntType.bits hbool
    omega

variable (hslots : SlotsExtended mir locals)
include hslots

omit hindexed in
theorem writesExact_unary {operand : Local} {op : MirUnOp}
    (hvalue : getLocal locals operand.id = .ok value)
    (hfits : ResultFits mir destination.id (exactUnary (.ofMir op) value.toInt))
    (hset : setLocal locals destination.id (evalUnary (.ofMir op) value) = .ok locals') :
    WritesExact mir locals locals' destination
      (slotBits mir locals operand.id >>= nativeUnary op) := by
  refine WritesExact.of_setLocal hset ?_ hfits ?_
  · exact evalUnary_exact _ value
  · intro result ty hresult hty hwidth
    obtain ⟨bits, hbits, hunary⟩ := bind_eq_some_iff.mp hresult
    obtain ⟨operandTy, hoperand, rfl⟩ := slotBits_eq_some (getLocal_ok hvalue) hbits
    have hextended := hslots operand.id operandTy value hoperand (getLocal_ok hvalue)
    have hcut : value.setWidth operandTy.bits = BitVec.ofInt operandTy.bits value.toInt := by
      rw [← setWidth_ofInt (hvalid.le hoperand), BitVec.ofInt_toInt]
    exact nativeUnary_exact hcut hextended.eq_zero_iff hunary

theorem writesExact_binary {left right : Local} {op : MirBinOp}
    {leftTy : MIRType} {unsigned : Bool} {x y : I64}
    (hleft : mirLocalType mir left.id = .ok leftTy)
    (hright : mirLocalType mir right.id = .ok rightTy)
    (hunsigned : portableBinaryIsUnsigned target mir.name leftTy rightTy = .ok unsigned)
    (hx : getLocal locals left.id = .ok x) (hy : getLocal locals right.id = .ok y)
    (hvalue : evalBinary (.ofMir op) unsigned x y = .ok value)
    (hfits : ResultFits mir destination.id
      (exactBinary (.ofMir op) (toInteger (!unsigned) x) (toInteger (!unsigned) y)))
    (hordered : (PortableBinary.ofMir op).isOrdered = true →
      declaredType mir left.id = some ⟨1, false⟩ → x = y)
    (hset : setLocal locals destination.id value = .ok locals') :
    WritesExact mir locals locals' destination (do
      let leftValue ← slotBits mir locals left.id
      let rightValue ← slotBits mir locals right.id
      nativeBinary op (getLocalType mir left) leftValue rightValue) := by
  refine WritesExact.of_setLocal hset (evalBinary_exact hvalue) hfits ?_
  intro result ty hresult _ _
  obtain ⟨leftBits, hleftBits, hresult⟩ := bind_eq_some_iff.mp hresult
  obtain ⟨rightBits, hrightBits, hresult⟩ := bind_eq_some_iff.mp hresult
  obtain ⟨leftInt, hleftInt, rfl⟩ := slotBits_eq_some (getLocal_ok hx) hleftBits
  obtain ⟨rightInt, hrightInt, rfl⟩ := slotBits_eq_some (getLocal_ok hy) hrightBits
  rw [hindexed.getLocalType_eq hleft] at hresult
  unfold nativeBinary at hresult
  split at hresult
  case isFalse => cases hresult
  case isTrue hbits =>
    simp only at hbits hresult
    rw [hbits, BitVec.setWidth_setWidth_of_le y (Nat.le_refl _)] at hresult
    have hxExt := hslots _ _ _ hleftInt (getLocal_ok hx)
    have hyExt := hslots _ _ _ hrightInt (getLocal_ok hy)
    obtain ⟨hopcode, htypes⟩ := binary_operand_types hvalid hindexed hleft hright hunsigned
      hleftInt hrightInt hbits
    rw [hopcode] at hresult
    rcases htypes with ⟨rfl, rfl, rfl⟩ | ⟨-, hleftSign, hrightSign⟩
    · have hequal : (PortableBinary.ofMir op).isOrdered = true →
          x.setWidth 1 = y.setWidth 1 := fun h => by rw [hordered h hleftInt]
      have hexact := llvmBinary_bool hresult hequal
      rw [← hxExt.toInt_bool, ← hyExt.toInt_bool] at hexact
      exact hexact
    · have hexact := llvmBinary_exact (hvalid.le hleftInt) hresult
      have hxRead := hxExt.toInteger_eq (hvalid.pos hleftInt) (hvalid.le hleftInt)
      have hyRead := hyExt.toInteger_eq (hvalid.pos hrightInt) (hvalid.le hrightInt)
      rw [hleftSign] at hxRead
      rw [hrightSign, hbits] at hyRead
      rw [← hxRead, ← hyRead] at hexact
      exact hexact

theorem writesExact_cast {source : Local} {instruction : PortableInstruction}
    {native : NativeValue → Option NativeValue}
    (hlower : portableCast target mir destination source = .ok instruction)
    (hexec : executeScalar instruction previousBlock locals = .ok locals')
    (hnative : ∀ ty value result, declaredType mir source.id = some ty →
      IsExtension ty value → native ⟨ty.bits, value.setWidth ty.bits⟩ = some result →
      result.width ≤ 64 → result.bits = value.setWidth result.width) :
    WritesExact mir locals locals' destination (slotBits mir locals source.id >>= native) := by
  obtain ⟨destTy, hdest, hlower⟩ := bind_eq_ok hlower
  obtain ⟨srcTy, hsrc, hlower⟩ := bind_eq_ok hlower
  split at hlower
  · cases hlower
  obtain ⟨fromTy, hfrom, hlower⟩ := bind_eq_ok hlower
  obtain ⟨toTy, hto, hlower⟩ := bind_eq_ok hlower
  cases hlower
  obtain ⟨value, hvalue, hset⟩ := bind_eq_ok hexec
  rw [normalizePortableScalar_eq value (portableScalarType_fits hfrom),
    normalizePortableScalar_eq _ (portableScalarType_fits hto), extendScalar_eq _ toTy,
    extend_eq_ofInt] at hset
  refine WritesExact.of_setLocal hset rfl ?_ ?_
  · simp only [ResultFits, hindexed.declaredType_eq hdest]
    split
    · rename_i int hint
      obtain rfl := scalar_eq_integerType hto hint
      exact .inr (inRange_toInteger _)
    · trivial
  · intro result ty hresult hty hwidth
    obtain ⟨bits, hbits, hresult⟩ := bind_eq_some_iff.mp hresult
    obtain ⟨srcInt, hsrcInt, rfl⟩ := slotBits_eq_some (getLocal_ok hvalue) hbits
    have hextended := hslots _ _ _ hsrcInt (getLocal_ok hvalue)
    have hle := hvalid.le hty
    have hbits := hnative srcInt value result hsrcInt hextended hresult (by omega)
    have hsame : extendScalar value fromTy = value := by
      rw [hindexed.declaredType_eq hsrc] at hsrcInt
      obtain rfl := scalar_eq_integerType hfrom hsrcInt
      exact hextended.symm
    rw [hindexed.declaredType_eq hdest] at hty
    obtain rfl := scalar_eq_integerType hto hty
    rw [hbits, hsame, hwidth, ofInt_toInteger]

/-- The native value of an instruction, from the low bits of the slots. -/
def nativeResult (mir : MirFunction) (previousBlock : Option UInt32) (locals : List I64)
    (instruction : Instruction) : Option NativeValue :=
  nativeInstruction mir (previousBlock.map (·.toNat))
    (fun slot => slotBits mir locals slot.id) instruction

/-- Every executed scalar instruction either writes nothing or writes an exact
integer that fits. -/
theorem writesExact_of_executeScalar (hmem : instruction ∈ mir.instructions)
    (hlower : PortableInstruction.fromMir target mir indices instruction = .ok lowered)
    (hfits : InstructionFits mir previousBlock locals lowered)
    (hexec : executeScalar lowered previousBlock locals = .ok locals') :
    (scalarDestination instruction = none ∧ locals' = locals) ∨
      ∃ destination, scalarDestination instruction = some destination ∧
        WritesExact mir locals locals' destination
          (nativeResult mir previousBlock locals instruction) := by
  cases instruction with
  | assign destination constant =>
    obtain ⟨value, hvalue, hlower⟩ := bind_eq_ok hlower
    cases hlower
    exact .inr ⟨destination, rfl, writesExact_const hvalid hvalue hfits hexec⟩
  | unary destination op operand =>
    cases hlower
    obtain ⟨value, hvalue, hset⟩ := bind_eq_ok hexec
    exact .inr ⟨destination, rfl, writesExact_unary hvalid hslots hvalue (hfits value hvalue) hset⟩
  | binary destination op left right =>
    obtain ⟨leftTy, hleft, hlower⟩ := bind_eq_ok hlower
    obtain ⟨rightTy, hright, hlower⟩ := bind_eq_ok hlower
    obtain ⟨unsigned, hunsigned, hlower⟩ := bind_eq_ok hlower
    cases hlower
    obtain ⟨x, hx, hexec⟩ := bind_eq_ok hexec
    obtain ⟨y, hy, hexec⟩ := bind_eq_ok hexec
    obtain ⟨value, hvalue, hset⟩ := bind_eq_ok hexec
    obtain ⟨hresult, hordered⟩ := hfits x y hx hy
    exact .inr ⟨destination, rfl, writesExact_binary hvalid hindexed hslots hleft hright
      hunsigned hx hy hvalue hresult hordered hset⟩
  | cast destination value toTy =>
    refine .inr ⟨destination, rfl, ?_⟩
    apply writesExact_cast hvalid hindexed hslots hlower hexec
    intro ty slot result hty hextended hcast hwidth
    exact nativeCast_exact (integerType_getLocalType hty) (hvalid.pos hty) hextended hwidth hcast
  | bitcast destination value toTy =>
    refine .inr ⟨destination, rfl, ?_⟩
    apply writesExact_cast hvalid hindexed hslots hlower hexec
    intro ty slot result _ _ hcast _
    rw [nativeBitcast_eq hcast]
  | phi destination incoming =>
    cases hlower
    exact .inr ⟨destination, rfl, writesExact_phi hvalid
      (hindexed.phiEdges destination incoming hmem) hfits hexec⟩
  | call destination func args =>
    obtain ⟨callee, -, hlower⟩ := bind_eq_ok hlower
    cases hlower
    cases hexec
    exact .inl ⟨rfl, rfl⟩
  | nop =>
    cases hlower
    cases hexec
    exact .inl ⟨rfl, rfl⟩
  | _ => cases hlower

end

theorem WritesExact.slotsExtended
    (h : WritesExact mir locals locals' destination native) (hvalid : ValidTypes mir)
    (hslots : SlotsExtended mir locals) : SlotsExtended mir locals' := by
  obtain ⟨z, -, rfl, hfits, -⟩ := h
  exact hslots.set hvalid hfits

theorem WritesExact.stores_native
    {result : NativeValue} {ty : IntType}
    (h : WritesExact mir locals locals' destination native) (hvalid : ValidTypes mir)
    (hnative : native = some result) (hty : declaredType mir destination.id = some ty)
    (hwidth : result.width = ty.bits) :
    locals'[destination.id.toNat]? = some (extend ty.signed 64 result.bits) := by
  obtain ⟨z, hslot, rfl, hfits, hexact⟩ := h
  have hstored := extend_of_resultFits hvalid hty hfits
  rw [getElem?_set_self hslot, hexact result ty hnative hty hwidth, hwidth, hstored]

end Instruction

section Arguments

variable {mir : MirFunction}

theorem argSlot_toNat (k : Nat) : (UInt32.ofNat k + 1).toNat = (k + 1) % 2 ^ 32 := by
  simp

/-- Storing the arguments `todo`, the first of them as argument `start`. -/
def storeFrom (locals : List I64) (todo : List I64) (start : Nat) :
    Except VmError (List I64) :=
  (todo.zipIdx start).foldlM
    (fun locals entry => setLocal locals (UInt32.ofNat entry.2 + 1) entry.1) locals

theorem slotsExtended_storeFrom (hvalid : ValidTypes mir) (todo : List I64) (start : Nat)
    (hslots : SlotsExtended mir locals)
    (hfits : ∀ k value, todo[k]? = some value →
      ResultFits mir (UInt32.ofNat (start + k) + 1) value.toInt)
    (h : storeFrom locals todo start = .ok locals') : SlotsExtended mir locals' := by
  induction todo generalizing start locals with
  | nil =>
    cases h
    exact hslots
  | cons value todo ih =>
    obtain ⟨stored, hset, hrest⟩ := bind_eq_ok h
    obtain ⟨-, rfl⟩ := setLocal_ok hset
    apply ih (start + 1) _ _ hrest
    · have hset := hslots.set hvalid (hfits 0 value rfl)
      rwa [BitVec.ofInt_toInt] at hset
    · intro k other hother
      have hnext := hfits (k + 1) other hother
      rwa [show start + (k + 1) = start + 1 + k by omega] at hnext

/-- Arguments stored later do not touch the slots of earlier ones. -/
theorem storeFrom_keeps (todo : List I64) (start earlier : Nat)
    (hearlier : earlier < start) (hsize : start + todo.length ≤ 2 ^ 32)
    (h : storeFrom locals todo start = .ok locals') :
    locals'[(UInt32.ofNat earlier + 1).toNat]? = locals[(UInt32.ofNat earlier + 1).toNat]? := by
  induction todo generalizing start locals with
  | nil =>
    cases h
    rfl
  | cons value todo ih =>
    obtain ⟨stored, hset, hrest⟩ := bind_eq_ok h
    obtain ⟨-, rfl⟩ := setLocal_ok hset
    simp only [length_cons] at hsize
    rw [ih (start + 1) (by omega) (by omega) hrest, getElem?_set_ne]
    rw [argSlot_toNat, argSlot_toNat]
    omega

theorem storeFrom_getElem (todo : List I64) (start : Nat)
    (hsize : start + todo.length ≤ 2 ^ 32) (h : storeFrom locals todo start = .ok locals') :
    ∀ k value, todo[k]? = some value →
      locals'[(UInt32.ofNat (start + k) + 1).toNat]? = some value := by
  induction todo generalizing start locals with
  | nil =>
    intro k value hvalue
    cases hvalue
  | cons first todo ih =>
    obtain ⟨stored, hset, hrest⟩ := bind_eq_ok h
    simp only [length_cons] at hsize
    intro k value hvalue
    cases k with
    | zero =>
      cases hvalue
      obtain ⟨hslot, rfl⟩ := setLocal_ok hset
      rw [Nat.add_zero, storeFrom_keeps todo (start + 1) start (by omega) (by omega) hrest,
        getElem?_set_self hslot]
    | succ k =>
      have hlater := ih (start + 1) (by omega) hrest k value hvalue
      rwa [show start + 1 + k = start + (k + 1) by omega] at hlater

theorem slotsExtended_replicate (count : Nat) : SlotsExtended mir (List.replicate count 0) := by
  intro slot ty value _ hvalue
  obtain rfl : value = 0 := eq_of_mem_replicate (mem_of_getElem? hvalue)
  rw [IsExtension, extend_eq_ofInt, toInteger_eq_zero.mpr (by simp)]
  rfl

end Arguments

section Run

variable (target : PortableBackendTarget) (functions : List MirFunction) (program : PortableProgram)

/-- The running function is the lowering of this MIR function. -/
structure LowersTo (mir : MirFunction) (function : PortableFunction) : Prop where
  mem : mir ∈ functions
  lowered : PortableFunction.fromMir target (functionIndices functions) mir = .ok function

/-- Argument `k` fits the local that receives it. -/
def ArgsFit (callee : PortableFunction) (args : List I64) : Prop :=
  ∀ mir, LowersTo target functions mir callee → ∀ k value, args[k]? = some value →
    ResultFits mir (UInt32.ofNat k + 1) value.toInt

def ReturnFits (value : I64) : List VmCaller → Prop
  | [] => True
  | caller :: _ => ∀ mir, LowersTo target functions mir caller.frame.function →
      ResultFits mir caller.destination value.toInt

/-- The condition on the next step: what it stores fits where it is stored. -/
def VmState.Fits : VmState → Prop
  | .running frame callers =>
    match frame.rest with
    | .call _ index args :: _ =>
      ∀ values callee, args.mapM (getLocal frame.locals) = .ok values →
        program.functions[index.toNat]? = some callee →
        ArgsFit target functions callee values
    | instruction :: _ =>
      ∀ mir, LowersTo target functions mir frame.function →
        InstructionFits mir frame.previousBlock frame.locals instruction
    | [] =>
      match frame.terminator with
      | .return (some slot) =>
        ∀ value, getLocal frame.locals slot = .ok value → ReturnFits target functions value callers
      | .call index args _ _ =>
        ∀ values callee, args.mapM (argValue frame.locals) = .ok values →
          program.functions[index.toNat]? = some callee →
          ArgsFit target functions callee values
      | _ => True
  | _ => True

/-- A frame runs lowered code, and its slots are extensions. -/
def FrameExtended (frame : VmFrame) : Prop :=
  (∃ mir, LowersTo target functions mir frame.function) ∧
    ∀ mir, LowersTo target functions mir frame.function → SlotsExtended mir frame.locals

def VmState.Extended : VmState → Prop
  | .running frame callers =>
    FrameExtended target functions frame ∧
      ∀ caller ∈ callers, FrameExtended target functions caller.frame
  | _ => True

/-- A slot receives the native value of another local. -/
def CopiesNative (mir : MirFunction) (locals : List I64) (slot : UInt32)
    (mir' : MirFunction) (locals' : List I64) (slot' : UInt32) : Prop :=
  ∀ result ty, slotBits mir locals slot = some result → declaredType mir' slot' = some ty →
    result.width = ty.bits → locals'[slot'.toNat]? = some (extend ty.signed 64 result.bits)

/-- A slot receives the native value of an argument: a local, or a constant cut to
the type of the slot. -/
def PassesNative (mir : MirFunction) (locals : List I64) (mir' : MirFunction)
    (locals' : List I64) (slot' : UInt32) : PortableArg → Prop
  | .local slot => CopiesNative mir locals slot mir' locals' slot'
  | .constant value => ∀ ty, declaredType mir' slot' = some ty →
      locals'[slot'.toNat]? = some (extend ty.signed 64 (value.setWidth ty.bits))

/-- The destination of an instruction receives its native value, and no other
slot changes. -/
def StoresNative (mir : MirFunction) (previousBlock : Option UInt32)
    (locals locals' : List I64) (instruction : Instruction) : Prop :=
  (∀ destination ty result, scalarDestination instruction = some destination →
    declaredType mir destination.id = some ty →
    nativeResult mir previousBlock locals instruction = some result →
    result.width = ty.bits →
    locals'[destination.id.toNat]? = some (extend ty.signed 64 result.bits)) ∧
  ∀ slot, (∀ destination, scalarDestination instruction = some destination →
    destination.id ≠ slot) → locals'[slot.toNat]? = locals[slot.toNat]?

/-- What a step into a running state stores is the extension of the native
values: the result of an instruction, the arguments of a call, and the value
that a call returns. -/
def StepNative (state : VmState) (after : VmFrame) : Prop :=
  match state with
  | .running frame callers =>
    ∀ mir, LowersTo target functions mir frame.function →
      match frame.rest with
      | .call _ _ args :: _ =>
        ∀ callee, LowersTo target functions callee after.function → ∀ k slot, args[k]? = some slot →
            CopiesNative mir frame.locals slot callee after.locals (UInt32.ofNat k + 1)
      | lowered :: _ =>
        ∀ instruction ∈ mir.instructions,
          PortableInstruction.fromMir target mir (functionIndices functions) instruction =
            .ok lowered →
          StoresNative mir frame.previousBlock frame.locals after.locals instruction
      | [] =>
        match frame.terminator, callers with
        | .return (some slot), caller :: _ =>
          ∀ waiting, LowersTo target functions waiting caller.frame.function →
            CopiesNative mir frame.locals slot waiting after.locals caller.destination
        | .call _ args _ _, _ =>
          ∀ callee, LowersTo target functions callee after.function → ∀ k arg, args[k]? = some arg →
            PassesNative mir frame.locals callee after.locals (UInt32.ofNat k + 1) arg
        | _, _ => True
  | _ => True

/-- In every state of the run the slots are extensions, and every step stores
the extension of what the native code computes from the same inputs. -/
def WidthPreserved (start : VmState) : Prop :=
  ∀ state, Reaches (vmStep program) start state → state.Extended target functions ∧
      ∀ after callers, vmStep program state = some (.running after callers) →
        StepNative target functions state after

structure FrameValid (frame : VmFrame) : Prop where
  function_mem : frame.function ∈ program.functions
  rest_mem : ∃ block ∈ frame.function.blocks, ∀ i ∈ frame.rest, i ∈ block.instructions
  extended : ∀ mir, LowersTo target functions mir frame.function → SlotsExtended mir frame.locals

def StateValid : VmState → Prop
  | .running frame callers =>
    FrameValid target functions program frame ∧
      ∀ caller ∈ callers, FrameValid target functions program caller.frame
  | _ => True

variable {target functions program}

variable {mir : MirFunction} {frame : VmFrame} {after : VmFrame}

theorem LowersTo.validTypes
    (h : LowersTo target functions mir function) : ValidTypes mir :=
  validTypes_of_fromMir h.lowered

theorem enterBlock_running {block : UInt32}
    (h : enterBlock function block previousBlock locals callers = .running after callers') :
    after.function = function ∧ after.locals = locals := by
  unfold enterBlock at h
  split at h
  · cases h
  · cases h
    exact ⟨rfl, rfl⟩

theorem FrameValid.set (h : FrameValid target functions program frame) {destination : UInt32}
    (hfits : ∀ mir, LowersTo target functions mir frame.function →
      ResultFits mir destination value.toInt)
    (hset : setLocal frame.locals destination value = .ok locals) :
    ∀ mir, LowersTo target functions mir frame.function → SlotsExtended mir locals := by
  intro mir hmir
  obtain ⟨-, rfl⟩ := setLocal_ok hset
  have hstored := (h.extended mir hmir).set hmir.validTypes (hfits mir hmir)
  rwa [BitVec.ofInt_toInt] at hstored

section

variable (hcallers : ∀ caller ∈ callers, FrameValid target functions program caller.frame)
include hcallers

theorem stateValid_enterBlock (hmem : function ∈ program.functions)
    (hextended : ∀ mir, LowersTo target functions mir function → SlotsExtended mir locals)
    (block : UInt32) (previousBlock : Option UInt32) :
    StateValid target functions program
      (enterBlock function block previousBlock locals callers) := by
  unfold enterBlock
  split
  · trivial
  · rename_i current hcurrent
    refine ⟨⟨hmem, ⟨current, mem_of_getElem? hcurrent, ?_⟩, hextended⟩, hcallers⟩
    intro i hi
    exact hi

/-- A call enters a valid state, with the arguments in the locals of the callee. -/
theorem enterFunction_valid {index : UInt32} {args : List I64}
    (hargs : ∀ callee, program.functions[index.toNat]? = some callee →
      ArgsFit target functions callee args) :
    StateValid target functions program (enterFunction program index args callers) ∧
    ∀ after callers', enterFunction program index args callers = .running after callers' →
      program.functions[index.toNat]? = some after.function ∧
      ∀ k value, args[k]? = some value →
        after.locals[(UInt32.ofNat k + 1).toNat]? = some value := by
  unfold enterFunction
  split
  · exact ⟨trivial, nofun⟩
  · rename_i callee hcallee
    split
    · exact ⟨trivial, nofun⟩
    · rename_i hlength
      split
      · exact ⟨trivial, nofun⟩
      · rename_i locals hstore
        constructor
        · apply stateValid_enterBlock hcallers (mem_of_getElem? hcallee)
          intro mir hmir
          apply slotsExtended_storeFrom hmir.validTypes args 0 (slotsExtended_replicate _) _ hstore
          intro k value hvalue
          rw [Nat.zero_add]
          exact hargs callee hcallee mir hmir k value hvalue
        · intro after callers' h
          obtain ⟨rfl, rfl⟩ := enterBlock_running h
          refine ⟨hcallee, fun k value hvalue => ?_⟩
          have hsize : 0 + args.length ≤ 2 ^ 32 := by
            have hbound := after.function.paramCount.toNat_lt
            omega
          have hstored := storeFrom_getElem args 0 hsize hstore k value hvalue
          rwa [Nat.zero_add] at hstored

theorem deliver_valid (hfits : ReturnFits target functions value callers) :
    StateValid target functions program (deliver value callers) ∧
    ∀ after callers', deliver value callers = .running after callers' →
      ∀ caller ∈ callers.head?,
        setLocal caller.frame.locals caller.destination value = .ok after.locals := by
  cases callers with
  | nil => exact ⟨trivial, nofun⟩
  | cons caller callers =>
    obtain ⟨hcaller, hrest⟩ := forall_mem_cons.mp hcallers
    simp only [deliver]
    split
    · exact ⟨trivial, by rintro _ _ ⟨⟩⟩
    · rename_i locals hset
      have hextended := hcaller.set hfits hset
      unfold resume
      split
      · refine ⟨⟨⟨hcaller.function_mem, hcaller.rest_mem, hextended⟩, hrest⟩, ?_⟩
        rintro _ _ ⟨⟩ _ ⟨⟩
        exact hset
      · refine ⟨stateValid_enterBlock hrest hcaller.function_mem hextended _ _, ?_⟩
        rintro after callers' h _ ⟨⟩
        rw [(enterBlock_running h).2, hset]

end

/-- Zero fits every type. -/
theorem resultFits_zero : ResultFits mir slot (0 : I64).toInt := by
  unfold ResultFits
  split
  · rename_i ty _
    cases ty.signed <;> simp [InRange]
  · trivial

section

variable {mir mir' : MirFunction} {slot' : UInt32} (hvalid : ValidTypes mir')
  (hstored : locals'[slot'.toNat]? = some value) (hfits : ResultFits mir' slot' value.toInt)
include hvalid hstored hfits

theorem extend_of_fits {ty : IntType} (hty : declaredType mir' slot' = some ty) :
    locals'[slot'.toNat]? = some (extend ty.signed 64 (value.setWidth ty.bits)) := by
  have hextension := isExtension_of_resultFits hvalid hty hfits
  rw [BitVec.ofInt_toInt] at hextension
  rw [hstored, ← hextension]

/-- A copied slot that fits its new local holds the native value there. -/
theorem copiesNative_of_fits (hvalue : locals[slot.toNat]? = some value) :
    CopiesNative mir locals slot mir' locals' slot' := by
  intro result ty hresult hty hwidth
  obtain ⟨srcTy, -, rfl⟩ := slotBits_eq_some hvalue hresult
  simp only at hwidth
  rw [hwidth, extend_of_fits hvalid hstored hfits hty]

theorem passesNative_of_fits {arg : PortableArg} (hvalue : argValue locals arg = .ok value) :
    PassesNative mir locals mir' locals' slot' arg := by
  cases arg with
  | «local» slot => exact copiesNative_of_fits hvalid hstored hfits (getLocal_ok hvalue)
  | constant =>
    cases hvalue
    exact fun ty hty => extend_of_fits hvalid hstored hfits hty

end

theorem storesNative_of_executeScalar (hmir : LowersTo target functions mir function)
    (hindexed : WellIndexed mir) (hslots : SlotsExtended mir locals)
    (hmem : instruction ∈ mir.instructions)
    (hlower : PortableInstruction.fromMir target mir (functionIndices functions) instruction =
      .ok lowered)
    (hfits : InstructionFits mir previousBlock locals lowered)
    (hexec : executeScalar lowered previousBlock locals = .ok locals') :
    StoresNative mir previousBlock locals locals' instruction ∧ SlotsExtended mir locals' := by
  have hvalid := hmir.validTypes
  rcases writesExact_of_executeScalar hvalid hindexed hslots hmem hlower hfits hexec with
    ⟨hnone, rfl⟩ | ⟨destination, hsome, hwrites⟩
  · refine ⟨⟨fun destination ty result hdestination => ?_, fun slot _ => rfl⟩, hslots⟩
    exact nomatch hnone.symm.trans hdestination
  · refine ⟨⟨fun other ty result hother hty hresult hwidth => ?_, fun slot hslot => ?_⟩,
      hwrites.slotsExtended hvalid hslots⟩
    · cases hsome.symm.trans hother
      exact hwrites.stores_native hvalid hresult hty hwidth
    · obtain ⟨z, -, rfl, -, -⟩ := hwrites
      apply getElem?_set_ne
      intro hsame
      exact hslot destination hsome (UInt32.toNat_inj.mp hsame)

/-- What one step keeps: the slots of all frames are extensions, and it stores the extensions
of the native values. -/
def StepSound (target : PortableBackendTarget) (functions : List MirFunction)
    (program : PortableProgram) (state next : VmState) : Prop :=
  StateValid target functions program next ∧
    ∀ after callers, next = .running after callers → StepNative target functions state after

section

variable (hstate : StateValid target functions program (.running frame callers))
  (hfits : VmState.Fits target functions program (.running frame callers))
include hstate hfits

theorem stepInstruction_sound {rest : List PortableInstruction}
    (hindexed : ∀ mir ∈ functions, WellIndexed mir) (hrest : frame.rest = lowered :: rest) :
    StepSound target functions program (.running frame callers)
      (stepInstruction program frame callers lowered rest) := by
  obtain ⟨hframe, hcallers⟩ := hstate
  obtain ⟨block, hblock, hmem⟩ := hframe.rest_mem
  rw [hrest] at hmem
  have hrestMem : ∃ block ∈ frame.function.blocks, ∀ i ∈ rest, i ∈ block.instructions :=
    ⟨block, hblock, (forall_mem_cons.mp hmem).2⟩
  have hlowered := hmem lowered (mem_cons_self ..)
  simp only [VmState.Fits, hrest] at hfits
  simp only [StepSound, StepNative, hrest]
  cases lowered with
  | call destination index args =>
    simp only [stepInstruction]
    split
    · exact ⟨trivial, by rintro _ _ ⟨⟩⟩
    · rename_i values hvalues
      apply And.imp_right _ (enterFunction_valid (forall_mem_cons.mpr
        ⟨⟨hframe.function_mem, hrestMem, hframe.extended⟩, hcallers⟩) (hfits values · hvalues))
      intro hentered after _ hafter mir hmir callee hcallee k slot hslot
      obtain ⟨hfunction, hstored⟩ := hentered after _ hafter
      obtain ⟨value, hvalue, hread⟩ := getElem?_of_mapM hvalues hslot
      exact copiesNative_of_fits hcallee.validTypes (hstored k value hvalue)
        (hfits values _ hvalues hfunction callee hcallee k value hvalue) (getLocal_ok hread)
  | _ =>
    simp only [stepInstruction]
    split
    · exact ⟨trivial, by rintro _ _ ⟨⟩⟩
    · rename_i locals' hexec
      have hscalar := fun mir hmir instruction (hmem : instruction ∈ mir.instructions) hlower =>
        storesNative_of_executeScalar hmir (hindexed mir hmir.mem) (hframe.extended mir hmir)
          hmem hlower (hfits mir hmir) hexec
      refine ⟨⟨⟨hframe.function_mem, hrestMem, fun mir hmir => ?_⟩, hcallers⟩, ?_⟩
      · obtain ⟨instruction, hinstruction, hlower⟩ := PortableFunction.fromMir_instructions
          hmir.lowered block hblock _ hlowered
        exact (hscalar mir hmir instruction hinstruction hlower).2
      · rintro _ _ ⟨⟩ mir hmir instruction hinstruction hlower
        exact (hscalar mir hmir instruction hinstruction hlower).1

theorem stepTerminator_sound (hrest : frame.rest = []) :
    StepSound target functions program (.running frame callers)
      (stepTerminator program frame callers) := by
  obtain ⟨hframe, hcallers⟩ := hstate
  have henter : ∀ block, StateValid target functions program
      (enterBlock frame.function block (some frame.block) frame.locals callers) :=
    fun block => stateValid_enterBlock hcallers hframe.function_mem hframe.extended block _
  simp only [VmState.Fits, hrest] at hfits
  simp only [StepSound, StepNative, hrest]
  unfold stepTerminator
  cases hterminator : frame.terminator with
  | «return» result =>
    cases result with
    | none =>
      refine ⟨(deliver_valid hcallers ?_).1, fun _ _ _ _ _ => trivial⟩
      cases callers with
      | nil => trivial
      | cons caller callers => exact fun mir _ => resultFits_zero
    | some slot =>
      simp only [hterminator] at hfits ⊢
      split
      · exact ⟨trivial, nofun⟩
      · rename_i value hvalue
        obtain ⟨hvalid, hdelivered⟩ := deliver_valid hcallers (hfits value hvalue)
        refine ⟨hvalid, fun after _ hafter mir hmir => ?_⟩
        cases callers with
        | nil => trivial
        | cons caller callers =>
          intro waiting hwaiting
          obtain ⟨hslot, hlocals⟩ := setLocal_ok (hdelivered after _ hafter caller rfl)
          refine copiesNative_of_fits hwaiting.validTypes ?_ (hfits value hvalue waiting hwaiting)
            (getLocal_ok hvalue)
          rw [hlocals, getElem?_set_self hslot]
  | goto block => exact ⟨henter block, fun _ _ _ _ _ => trivial⟩
  | «if» | switch =>
    dsimp only
    split
    · exact ⟨trivial, nofun⟩
    · exact ⟨henter _, fun _ _ _ _ _ => trivial⟩
  | call index args destination next =>
    simp only [hterminator] at hfits ⊢
    split
    · exact ⟨trivial, nofun⟩
    · rename_i values hvalues
      apply And.imp_right _ (enterFunction_valid (forall_mem_cons.mpr ⟨hframe, hcallers⟩)
        (hfits values · hvalues))
      intro hentered after _ hafter mir hmir callee hcallee k arg harg
      obtain ⟨hfunction, hstored⟩ := hentered after _ hafter
      obtain ⟨value, hvalue, hread⟩ := getElem?_of_mapM hvalues harg
      exact passesNative_of_fits hcallee.validTypes (hstored k value hvalue)
        (hfits values _ hvalues hfunction callee hcallee k value hvalue) hread
  | unreachable => exact ⟨trivial, nofun⟩

end

theorem step_sound (hindexed : ∀ mir ∈ functions, WellIndexed mir)
    {next : VmState} (hstate : StateValid target functions program state)
    (hfits : state.Fits target functions program) (hstep : vmStep program state = some next) :
    StepSound target functions program state next := by
  cases state with
  | running frame callers =>
    simp only [vmStep] at hstep
    cases hrest : frame.rest with
    | nil =>
      simp only [hrest, Option.some.injEq] at hstep
      subst hstep
      exact stepTerminator_sound hstate hfits hrest
    | cons lowered rest =>
      simp only [hrest, Option.some.injEq] at hstep
      subst hstep
      exact stepInstruction_sound hstate hfits hindexed hrest
  | returned value | failed e => cases hstep

theorem StateValid.extended (hfrom : PortableProgram.fromMir target functions = .ok program)
    (h : StateValid target functions program state) :
    state.Extended target functions := by
  have hframe : ∀ frame, FrameValid target functions program frame →
      FrameExtended target functions frame := by
    intro frame hframe
    obtain ⟨mir, hmem, hlowered⟩ :=
      PortableProgram.fromMir_functions hfrom frame.function hframe.function_mem
    exact ⟨⟨mir, hmem, hlowered⟩, hframe.extended⟩
  cases state with
  | running frame callers =>
    exact ⟨hframe frame h.1, fun caller hcaller => hframe _ (h.2 caller hcaller)⟩
  | returned value | failed e => trivial

/-- In a run of any lowered function, on arguments that fit its parameters and
through steps whose exact results fit the locals they are stored in, every slot
is the extension of the native value at the declared width. -/
theorem portable_preserves_width
    (hfrom : PortableProgram.fromMir target functions = .ok program)
    (hindexed : ∀ mir ∈ functions, WellIndexed mir) (index : UInt32) (args : List I64)
    (hargs : ∀ callee, program.functions[index.toNat]? = some callee →
      ArgsFit target functions callee args)
    (hfits : ∀ state, Reaches (vmStep program) (enterFunction program index args []) state →
      state.Fits target functions program) :
    WidthPreserved target functions program (enterFunction program index args []) := by
  have hstart : StateValid target functions program (enterFunction program index args []) :=
    (enterFunction_valid (by simp) hargs).1
  have hvalid := reaches_invariant hstart (fun state next hreach hstate hstep =>
    (step_sound hindexed hstate (hfits state hreach) hstep).1)
  intro state hreach
  have hstate := hvalid state hreach
  constructor
  · exact hstate.extended hfrom
  · intro after callers hstep
    exact (step_sound hindexed hstate (hfits state hreach) hstep).2 after callers rfl

end Run

section Wrap

/-- A `main` that adds two `u8` constants and returns the sum as an `i64`. -/
def addBytesMain (left right : I64) : MirFunction where
  name := "main"
  params := []
  returnType := .int 64
  locals := [(⟨0, .return⟩, .int 64), (⟨1, .temp⟩, .uint 8), (⟨2, .temp⟩, .uint 8),
    (⟨3, .temp⟩, .uint 8), (⟨4, .temp⟩, .int 64)]
  basicBlocks := [⟨0, [0, 1, 2, 3], some (.return (some ⟨4, .temp⟩))⟩]
  instructions := [.assign ⟨1, .temp⟩ (.uint left), .assign ⟨2, .temp⟩ (.uint right),
    .binary ⟨3, .temp⟩ .add ⟨1, .temp⟩ ⟨2, .temp⟩, .cast ⟨4, .temp⟩ ⟨3, .temp⟩ (.int 64)]
  startBlock := 0
  isAsync := false

/-- What `addBytesMain` lowers to. -/
def addBytesProgram (left right : I64) : PortableProgram where
  functions := [{
    name := "main", paramCount := 0, localCount := 5, startBlock := 0
    blocks := [{
      instructions := [.const 1 left, .const 2 right, .binary 3 .add 1 2 true,
        .cast 4 3 ⟨8, false⟩ ⟨64, true⟩]
      terminator := .return (some 4) }] }]
  mainIndex := 0

/-- After `255 + 1` the slot of a `u8` local holds 256, where the native local
holds 0. -/
theorem addBytes_leaves_width :
    PortableProgram.fromMir .bytecode [addBytesMain 255 1] = .ok (addBytesProgram 255 1) ∧
    declaredType (addBytesMain 255 1) 3 = some ⟨8, false⟩ ∧
    nativeResult (addBytesMain 255 1) none [0, 255, 1, 0, 0]
      (.binary ⟨3, .temp⟩ .add ⟨1, .temp⟩ ⟨2, .temp⟩) = some ⟨8, 0⟩ ∧
    (∃ frame, Reaches (vmStep (addBytesProgram 255 1)) (vmStart (addBytesProgram 255 1))
      (.running frame []) ∧ frame.locals = [0, 255, 1, 256, 0]) ∧
    ¬ WidthPreserved .bytecode [addBytesMain 255 1] (addBytesProgram 255 1)
      (vmStart (addBytesProgram 255 1)) := by
  have hreach := reaches_runAtMost (vmStep (addBytesProgram 255 1)) 3
    (vmStart (addBytesProgram 255 1))
  refine ⟨rfl, rfl, rfl, ⟨_, hreach, rfl⟩, ?_⟩
  intro hpreserved
  obtain ⟨⟨⟨-, hextended⟩, -⟩, -⟩ := hpreserved _ hreach
  have hslot := hextended (addBytesMain 255 1) ⟨mem_cons_self .., rfl⟩ 3 ⟨8, false⟩ 256 rfl rfl
  exact absurd hslot (by decide)

theorem addBytesMain_wellIndexed (left right : I64) : WellIndexed (addBytesMain left right) := by
  constructor
  · intro k entry hentry
    match k with
    | 0 | 1 | 2 | 3 | 4 =>
      cases hentry
      rfl
  · intro destination incoming hphi
    simp [addBytesMain] at hphi

/-- With a sum that fits, the run keeps the declared widths. -/
theorem addBytes_keeps_width :
    WidthPreserved .bytecode [addBytesMain 200 55] (addBytesProgram 200 55)
      (enterFunction (addBytesProgram 200 55) 0 [] []) := by
  have hlowers : ∀ {mir function}, LowersTo .bytecode [addBytesMain 200 55] mir function →
      mir = addBytesMain 200 55 := fun h => mem_singleton.mp h.mem
  apply portable_preserves_width rfl
  · intro mir hmir
    rw [mem_singleton.mp hmir]
    exact addBytesMain_wellIndexed 200 55
  · intro callee _ mir _ k value hvalue
    cases hvalue
  · refine forall_reaches_of_runAtMost 5 (by decide +kernel) ?_
    intro k hk
    have hcases : k = 0 ∨ k = 1 ∨ k = 2 ∨ k = 3 ∨ k = 4 ∨ k = 5 := by omega
    rcases hcases with rfl | rfl | rfl | rfl | rfl | rfl
    · intro mir hmir
      rw [hlowers hmir]
      exact (by decide : ResultFits (addBytesMain 200 55) 1 (200 : I64).toInt)
    · intro mir hmir
      rw [hlowers hmir]
      exact (by decide : ResultFits (addBytesMain 200 55) 2 (55 : I64).toInt)
    · intro mir hmir x y hx hy
      rw [hlowers hmir]
      cases hx
      cases hy
      refine ⟨?_, by decide⟩
      exact (by decide : ResultFits (addBytesMain 200 55) 3 255)
    · intro mir hmir
      trivial
    · intro value _
      trivial
    · trivial

end Wrap

end Sengoo.Portable
