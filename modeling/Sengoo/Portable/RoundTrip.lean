import Sengoo.Portable.Bytecode

/-!
Encoding and decoding bytecode are inverse on the programs the format can
hold. Each layer of the format has one lemma saying that its decoder reads
what its encoder wrote, and one saying that what its decoder accepts fits the
format again; the program theorem puts the two together.
-/

namespace Sengoo.Portable

open Codec List

variable {α : Type} {item : BytecodeReader α}

/-- The widths that `decode_scalar_type` accepts. -/
def PortableScalarType.Fits (ty : PortableScalarType) : Prop :=
  ty.bits ∈ [(0 : UInt8), 1, 8, 16, 32, 64]

def PortableInstruction.Fits : PortableInstruction → Prop
  | .call _ _ args => args.length < 2 ^ 32
  | .phi _ incoming => incoming.length < 2 ^ 32
  | .cast _ _ fromTy toTy => fromTy.Fits ∧ toTy.Fits
  | _ => True

def PortableTerminator.Fits : PortableTerminator → Prop
  | .switch _ targets _ => targets.length < 2 ^ 32
  | .call _ args _ _ => args.length < 2 ^ 32
  | _ => True

def PortableBlock.Fits (block : PortableBlock) : Prop :=
  block.instructions.length < 2 ^ 32 ∧ (∀ i ∈ block.instructions, i.Fits) ∧ block.terminator.Fits

def PortableFunction.Fits (function : PortableFunction) : Prop :=
  function.name.toUTF8.size < 2 ^ 32 ∧ function.blocks.length < 2 ^ 32 ∧
    ∀ block ∈ function.blocks, block.Fits

/-- Every collection and string length fits in a `u32`, every cast names a
known width, and the main index names a function. -/
def PortableProgram.Fits (program : PortableProgram) : Prop :=
  program.functions.length < 2 ^ 32 ∧ (∀ function ∈ program.functions, function.Fits) ∧
    program.mainIndex.toNat < program.functions.length

theorem decodes_readExact (bytes : List UInt8) : Decodes (readExact bytes.length) bytes bytes := by
  intro rest
  have hlength : ¬ (bytes ++ rest).length < bytes.length := by simp
  simp only [readExact, StateT.run_bind, StateT.run_get, pure_bind, if_neg hlength,
    StateT.run_set, StateT.run_pure, take_left, drop_left]
  rfl

theorem decodes_readU8 (value : UInt8) : Decodes readU8 [value] value :=
  (decodes_readExact [value]).bind_pure

/-- The fixed-width readers in one: read `width` bytes and interpret them. -/
theorem decodes_readLe (width n : Nat) (f : Nat → α) :
    Decodes (do let bytes ← readExact width; pure (f (ofLeBytes bytes)))
      (leBytes width n) (f (n % 256 ^ width)) := by
  have hread := decodes_readExact (leBytes width n)
  rw [leBytes_length] at hread
  have hpure := hread.bind_pure (g := fun bytes => f (ofLeBytes bytes))
  rw [ofLeBytes_leBytes] at hpure
  exact hpure

theorem decodes_readU16 (value : UInt16) : Decodes readU16 (writeU16 value) value := by
  have hread := decodes_readLe 2 value.toNat UInt16.ofNat
  rw [Nat.mod_eq_of_lt (show value.toNat < 256 ^ 2 from value.toNat_lt),
    UInt16.ofNat_toNat] at hread
  exact hread

theorem decodes_readU32 (value : UInt32) : Decodes readU32 (writeU32 value) value := by
  have hread := decodes_readLe 4 value.toNat UInt32.ofNat
  rw [Nat.mod_eq_of_lt (show value.toNat < 256 ^ 4 from value.toNat_lt),
    UInt32.ofNat_toNat] at hread
  exact hread

theorem decodes_readI64 (value : I64) : Decodes readI64 (writeI64 value) value := by
  have hread := decodes_readLe 8 value.toNat (BitVec.ofNat 64)
  rw [Nat.mod_eq_of_lt (show value.toNat < 256 ^ 8 from value.isLt),
    BitVec.ofNat_toNat, BitVec.setWidth_eq] at hread
  exact hread

theorem length_le_flatMap {encode : α → List UInt8} (items : List α)
    (h : ∀ a ∈ items, encode a ≠ []) : items.length ≤ (items.flatMap encode).length := by
  induction items with
  | nil => simp
  | cons a rest ih =>
    have hhead : 0 < (encode a).length := length_pos_of_ne_nil (h a (by simp))
    have htail := ih (fun b hb => h b (mem_cons_of_mem a hb))
    simp only [flatMap_cons, length_append, length_cons]
    omega

/-- The count guard never rejects what the encoder wrote: every item takes at
least one byte, so the count is at most the number of bytes that follow. -/
theorem decodes_readVec_payload (kind : String)
    (items : List α) (payload : List UInt8) (hlength : items.length < 2 ^ 32)
    (hpayload : items.length ≤ payload.length)
    (h : Decodes (repeatN item items.length) payload items) :
    Decodes (readVec kind item) (writeU32 (UInt32.ofNat items.length) ++ payload) items := by
  intro rest
  have hcount : (UInt32.ofNat items.length).toNat = items.length := by
    simpa using hlength
  have hguard : ¬ items.length > (payload ++ rest).length + 1 := by
    simp only [length_append]
    omega
  rw [append_assoc, readVec, readCount, bind_assoc, (decodes_readU32 _).run_bind, hcount]
  simp only [remaining, StateT.run_bind, StateT.run_get, pure_bind, StateT.run_pure]
  rw [if_neg hguard]
  exact h rest

theorem decodes_readVec {encode : α → List UInt8}
    (kind : String) (items : List α) (hlength : items.length < 2 ^ 32)
    (hne : ∀ a ∈ items, encode a ≠ []) (h : ∀ a ∈ items, Decodes item (encode a) a) :
    Decodes (readVec kind item) (writeVec encode items) items :=
  decodes_readVec_payload kind items _ hlength (length_le_flatMap items hne)
    (Decodes.repeatN items h)

theorem writeU32_ne_nil (value : UInt32) : writeU32 value ≠ [] := by
  intro h
  have := congrArg List.length h
  simp [writeU32] at this

theorem writePair_ne_nil (pair : UInt32 × UInt32) : writePair pair ≠ [] := by
  simp [writePair, writeU32_ne_nil]

theorem encodeInstruction_ne_nil (i : PortableInstruction) : encodeInstruction i ≠ [] := by
  cases i <;> simp [encodeInstruction]

theorem encodeArg_ne_nil (arg : PortableArg) : encodeArg arg ≠ [] := by
  cases arg <;> simp [encodeArg]

theorem encodeBlock_ne_nil (block : PortableBlock) : encodeBlock block ≠ [] := by
  simp [encodeBlock, writeVec, writeU32_ne_nil]

theorem decodes_readPair (pair : UInt32 × UInt32) : Decodes readPair (writePair pair) pair :=
  (decodes_readU32 pair.1).bind (decodes_readU32 pair.2).bind_pure

theorem decodes_decodeUnary (op : PortableUnary) :
    Decodes (readU8 >>= decodeUnary) [unaryCode op] op := by
  cases op <;> exact Decodes.pure _

theorem decodes_decodeBinary (op : PortableBinary) :
    Decodes (readU8 >>= decodeBinary) [binaryCode op] op := by
  cases op <;> exact Decodes.pure _

theorem toUInt8_ne_zero (b : Bool) : (b.toUInt8 != 0) = b := by
  cases b <;> rfl

theorem decodes_decodeScalarType (ty : PortableScalarType) (hty : ty.Fits) :
    Decodes decodeScalarType (encodeScalarType ty) ty := by
  have hbits : ty.bits ∈ [(0 : UInt8), 1, 8, 16, 32, 64] := hty
  have hsigned := (decodes_readU8 ty.signed.toUInt8).bind_pure
    (g := fun signed => PortableScalarType.mk ty.bits (signed != 0))
  rw [toUInt8_ne_zero] at hsigned
  refine Decodes.bind (x := [ty.bits]) (decodes_readU8 ty.bits) ?_
  rw [if_pos hbits]
  exact hsigned

theorem decodes_decodeInstruction (i : PortableInstruction) (hi : i.Fits) :
    Decodes decodeInstruction (encodeInstruction i) i := by
  cases i <;> simp only [encodeInstruction]
  case const destination value =>
    refine (decodes_readU8 0).bind ?_
    exact (decodes_readU32 destination).bind (decodes_readI64 value).bind_pure
  case unary destination op operand =>
    refine (decodes_readU8 1).bind ?_
    refine (decodes_readU32 destination).bind ?_
    exact (decodes_decodeUnary op).bind (decodes_readU32 operand).bind_pure
  case binary destination op left right unsigned =>
    have hlast := (decodes_readU8 unsigned.toUInt8).bind_pure
      (g := fun u => PortableInstruction.binary destination op left right (u != 0))
    rw [toUInt8_ne_zero] at hlast
    refine (decodes_readU8 2).bind ?_
    refine (decodes_readU32 destination).bind ?_
    refine (decodes_decodeBinary op).bind ?_
    exact (decodes_readU32 left).bind ((decodes_readU32 right).bind hlast)
  case move destination source =>
    refine (decodes_readU8 3).bind ?_
    exact (decodes_readU32 destination).bind (decodes_readU32 source).bind_pure
  case cast destination source fromTy toTy =>
    have hfrom := decodes_decodeScalarType fromTy hi.1
    have hto := decodes_decodeScalarType toTy hi.2
    refine (decodes_readU8 7).bind ?_
    refine (decodes_readU32 destination).bind ?_
    exact (decodes_readU32 source).bind (hfrom.bind hto.bind_pure)
  case call destination function args =>
    have hargs := decodes_readVec "call argument" args hi
      (fun a _ => writeU32_ne_nil a) (fun a _ => decodes_readU32 a)
    refine (decodes_readU8 4).bind ?_
    refine (decodes_readU32 destination).bind ?_
    exact (decodes_readU32 function).bind hargs.bind_pure
  case phi destination incoming =>
    have hincoming := decodes_readVec "phi input" incoming hi
      (fun a _ => writePair_ne_nil a) (fun a _ => decodes_readPair a)
    refine (decodes_readU8 5).bind ?_
    exact (decodes_readU32 destination).bind hincoming.bind_pure
  case nop => exact (decodes_readU8 6).bind (Decodes.pure _)

theorem decodes_decodeArg (arg : PortableArg) : Decodes decodeArg (encodeArg arg) arg := by
  cases arg with
  | «local» slot => exact (decodes_readU8 0).bind (decodes_readU32 slot).bind_pure
  | constant value => exact (decodes_readU8 1).bind (decodes_readI64 value).bind_pure

theorem decodes_decodeTerminator (t : PortableTerminator) (ht : t.Fits) :
    Decodes decodeTerminator (encodeTerminator t) t := by
  cases t with
  | «return» result =>
    cases result with
    | none => exact (decodes_readU8 0).bind ((decodes_readU8 0).bind (Decodes.pure _))
    | some slot =>
      refine Decodes.bind (x := [0]) (decodes_readU8 0) ?_
      refine Decodes.bind (x := [1]) (decodes_readU8 1) ?_
      exact (decodes_readU32 slot).bind_pure
  | goto target => exact (decodes_readU8 1).bind (decodes_readU32 target).bind_pure
  | «if» condition thenBlock elseBlock =>
    refine (decodes_readU8 2).bind ?_
    refine (decodes_readU32 condition).bind ?_
    exact (decodes_readU32 thenBlock).bind (decodes_readU32 elseBlock).bind_pure
  | switch discriminant targets otherwise =>
    have htargets := decodes_readVec "switch target" targets ht
      (fun a _ => writePair_ne_nil a) (fun a _ => decodes_readPair a)
    refine (decodes_readU8 3).bind ?_
    refine (decodes_readU32 discriminant).bind ?_
    exact htargets.bind (decodes_readU32 otherwise).bind_pure
  | call function args destination target =>
    have hargs := decodes_readVec "call argument" args ht
      (fun a _ => encodeArg_ne_nil a) (fun a _ => decodes_decodeArg a)
    simp only [encodeTerminator, append_assoc]
    refine (decodes_readU8 4).bind ?_
    refine (decodes_readU32 function).bind ?_
    refine hargs.bind ?_
    exact (decodes_readU32 destination).bind (decodes_readU32 target).bind_pure
  | unreachable => exact (decodes_readU8 5).bind (Decodes.pure _)

theorem decodes_decodeBlock (block : PortableBlock) (hblock : block.Fits) :
    Decodes decodeBlock (encodeBlock block) block := by
  have hinstructions := decodes_readVec "instruction" block.instructions hblock.1
    (fun i _ => encodeInstruction_ne_nil i)
    (fun i hi => decodes_decodeInstruction i (hblock.2.1 i hi))
  have hterminator := decodes_decodeTerminator block.terminator hblock.2.2
  exact hinstructions.bind hterminator.bind_pure

theorem fromUTF8_toUTF8 (value : String) :
    String.fromUTF8? ⟨value.toUTF8.data.toList.toArray⟩ = some value := by
  have hbytes : (⟨value.toUTF8.data.toList.toArray⟩ : ByteArray) = value.toByteArray := by
    simp
  rw [hbytes, String.fromUTF8?, dif_pos value.isValidUTF8]
  rfl

theorem decodes_readString (value : String) (hsize : value.toUTF8.size < 2 ^ 32) :
    ∃ bytes, writeString value = .ok bytes ∧ bytes ≠ [] ∧ Decodes readString bytes value := by
  have hlength : value.toUTF8.data.toList.length = (UInt32.ofNat value.toUTF8.size).toNat := by
    rw [UInt32.toNat_ofNat', Nat.mod_eq_of_lt hsize]
    rfl
  refine ⟨_, if_pos hsize, by simp [writeU32_ne_nil], ?_⟩
  refine (decodes_readU32 _).bind ?_
  rw [← append_nil value.toUTF8.data.toList, ← hlength]
  refine (decodes_readExact _).bind ?_
  rw [fromUTF8_toUTF8]
  exact Decodes.pure _

theorem decodes_decodeFunction (function : PortableFunction) (hfunction : function.Fits) :
    ∃ bytes, encodeFunction function = .ok bytes ∧ bytes ≠ [] ∧
      Decodes decodeFunction bytes function := by
  obtain ⟨name, hname, hne, hread⟩ := decodes_readString function.name hfunction.1
  have hblocks := decodes_readVec "block" function.blocks hfunction.2.1
    (fun block _ => encodeBlock_ne_nil block)
    (fun block hblock => decodes_decodeBlock block (hfunction.2.2 block hblock))
  refine ⟨_, by rw [encodeFunction, hname]; rfl, by simp [hne], ?_⟩
  simp only [append_assoc]
  refine hread.bind ?_
  refine (decodes_readU32 function.paramCount).bind ?_
  refine (decodes_readU32 function.localCount).bind ?_
  exact (decodes_readU32 function.startBlock).bind hblocks.bind_pure

/-- Encoding a list of functions succeeds item by item, so the encoded list is
the concatenation of single encodings that decode back. -/
theorem decodes_decodeFunctions (functions : List PortableFunction)
    (hfunctions : ∀ function ∈ functions, function.Fits) :
    ∃ chunks, functions.mapM encodeFunction = .ok chunks ∧
      functions.length ≤ chunks.flatten.length ∧
      Decodes (repeatN decodeFunction functions.length) chunks.flatten functions := by
  induction functions with
  | nil => exact ⟨[], rfl, by simp, Decodes.pure []⟩
  | cons function rest ih =>
    obtain ⟨bytes, hbytes, hne, hread⟩ :=
      decodes_decodeFunction function (hfunctions function (by simp))
    obtain ⟨chunks, hchunks, hlength, hrest⟩ :=
      ih (fun f hf => hfunctions f (mem_cons_of_mem function hf))
    have hpositive : 0 < bytes.length := length_pos_of_ne_nil hne
    refine ⟨bytes :: chunks, ?_, ?_, ?_⟩
    · rw [mapM_cons, hbytes, hchunks]
      rfl
    · simp only [flatten_cons, length_append, length_cons]
      omega
    · exact hread.bind hrest.bind_pure

/-- Every program that fits the format encodes, and its encoding decodes back
to the same program. -/
theorem decodeBytecode_of_encodeBytecode (program : PortableProgram) (hp : program.Fits) :
    ∃ bytes, encodeBytecode program = .ok bytes ∧ decodeBytecode bytes = .ok program := by
  obtain ⟨chunks, hchunks, hlength, hread⟩ :=
    decodes_decodeFunctions program.functions hp.2.1
  have hfunctions := decodes_readVec_payload "function" program.functions chunks.flatten
    hp.1 hlength hread
  have hmain : ¬ program.mainIndex.toNat ≥ program.functions.length := by
    have := hp.2.2
    omega
  refine ⟨_, by rw [encodeBytecode, hchunks]; rfl, ?_⟩
  have hrun : decodeProgram.run (bytecodeMagic ++ (writeU16 bytecodeVersion ++
      (writeU32 program.mainIndex ++ (writeU32 (UInt32.ofNat program.functions.length) ++
        chunks.flatten)))) = .ok (program, []) := by
    rw [decodeProgram, show 4 = bytecodeMagic.length from rfl,
      (decodes_readExact bytecodeMagic).run_bind, if_neg (not_not_intro rfl),
      (decodes_readU16 bytecodeVersion).run_bind, if_neg (not_not_intro rfl),
      (decodes_readU32 program.mainIndex).run_bind]
    have hinput := append_nil
      (writeU32 (UInt32.ofNat program.functions.length) ++ chunks.flatten)
    rw [← hinput, hfunctions.run_bind]
    simp only [if_neg hmain]
    rfl
  simp only [append_assoc, decodeBytecode, hrun]
  rfl

theorem yields_readExact (count : Nat) :
    Yields (readExact count) (fun bytes => bytes.length = count) := by
  intro input bytes rest h
  simp only [readExact, StateT.run_bind, StateT.run_get, pure_bind] at h
  split at h
  · cases h
  · rename_i hlength
    cases h
    simp only [length_take]
    omega

theorem yields_readVec {P : α → Prop} (kind : String)
    (hitem : Yields item P) :
    Yields (readVec kind item) (fun items => items.length < 2 ^ 32 ∧ ∀ a ∈ items, P a) := by
  have hcount : Yields (readCount kind) (fun count => count < 2 ^ 32) := by
    refine .after fun count => ?_
    refine .after fun left => ?_
    split
    · exact Yields.throw _
    · exact Yields.pure count.toNat_lt
  refine hcount.bind (fun count hc => (hitem.repeatN count).mono ?_)
  intro items hitems
  exact ⟨hitems.1 ▸ hc, hitems.2⟩

theorem yields_decodeScalarType : Yields decodeScalarType PortableScalarType.Fits := by
  refine .after fun bits => ?_
  split
  · rename_i hbits
    exact .after fun signed => .pure hbits
  · exact Yields.throw _

theorem yields_decodeInstruction : Yields decodeInstruction PortableInstruction.Fits := by
  refine .after fun opcode => ?_
  split
  · refine .after fun _ => .after fun _ => ?_
    exact Yields.pure trivial
  · refine .after fun _ => .after fun _ => ?_
    exact .after fun _ => .pure trivial
  · refine .after fun _ => .after fun _ => ?_
    refine .after fun _ => .after fun _ => ?_
    exact .after fun _ => .pure trivial
  · refine .after fun _ => .after fun _ => ?_
    exact Yields.pure trivial
  · refine .after fun _ => .after fun _ => ?_
    exact (yields_readVec _ (Yields.trivial readU32)).bind (fun args hargs => Yields.pure hargs.1)
  · refine .after fun _ => ?_
    exact (yields_readVec _ (Yields.trivial readPair)).bind
      (fun incoming hincoming => Yields.pure hincoming.1)
  · exact Yields.pure trivial
  · refine .after fun _ => .after fun _ => ?_
    exact yields_decodeScalarType.bind (fun _ hfrom =>
      yields_decodeScalarType.bind (fun _ hto => Yields.pure ⟨hfrom, hto⟩))
  · exact Yields.throw _

theorem yields_decodeTerminator : Yields decodeTerminator PortableTerminator.Fits := by
  refine .after fun opcode => ?_
  split
  · refine .after fun present => ?_
    split
    · exact Yields.pure trivial
    · exact .after fun _ => .pure trivial
  · exact .after fun _ => .pure trivial
  · refine .after fun _ => .after fun _ => ?_
    exact .after fun _ => .pure trivial
  · refine .after fun _ => ?_
    refine (yields_readVec _ (Yields.trivial readPair)).bind (fun targets htargets => ?_)
    exact .after fun _ => .pure htargets.1
  · refine .after fun _ => ?_
    refine (yields_readVec _ (Yields.trivial decodeArg)).bind (fun args hargs => ?_)
    refine .after fun _ => ?_
    exact .after fun _ => .pure hargs.1
  · exact Yields.pure trivial
  · exact Yields.throw _

theorem yields_decodeBlock : Yields decodeBlock PortableBlock.Fits := by
  refine (yields_readVec _ yields_decodeInstruction).bind (fun instructions hi => ?_)
  refine yields_decodeTerminator.bind (fun terminator ht => ?_)
  exact Yields.pure ⟨hi.1, hi.2, ht⟩

theorem yields_readString : Yields readString (fun name => name.toUTF8.size < 2 ^ 32) := by
  refine .after fun length => ?_
  refine (yields_readExact length.toNat).bind (fun bytes hbytes => ?_)
  split
  · rename_i name hname
    apply Yields.pure
    rw [String.fromUTF8?] at hname
    split at hname
    · cases hname
      change bytes.toArray.size < 2 ^ 32
      rw [size_toArray, hbytes]
      exact length.toNat_lt
    · cases hname
  · exact Yields.throw _

theorem yields_decodeFunction : Yields decodeFunction PortableFunction.Fits := by
  refine yields_readString.bind (fun name hname => ?_)
  refine .after fun _ => .after fun _ => ?_
  refine .after fun _ => ?_
  refine (yields_readVec _ yields_decodeBlock).bind (fun blocks hblocks => ?_)
  exact Yields.pure ⟨hname, hblocks.1, hblocks.2⟩

theorem yields_decodeProgram : Yields decodeProgram PortableProgram.Fits := by
  refine .after fun magic => ?_
  split
  · exact Yields.throw _
  refine .after fun version => ?_
  split
  · exact Yields.throw _
  refine .after fun mainIndex => ?_
  refine (yields_readVec _ yields_decodeFunction).bind (fun functions hfunctions => ?_)
  refine .after fun left => ?_
  split
  · exact Yields.throw _
  split
  · exact Yields.throw _
  · rename_i hmain
    exact Yields.pure ⟨hfunctions.1, hfunctions.2, Nat.lt_of_not_le hmain⟩

/-- Whatever the decoder accepts fits the format. -/
theorem fits_of_decodeBytecode {bytes : List UInt8} {program : PortableProgram}
    (h : decodeBytecode bytes = .ok program) : program.Fits := by
  unfold decodeBytecode at h
  cases hrun : decodeProgram.run bytes with
  | error e => rw [hrun] at h; cases h
  | ok result =>
    obtain ⟨decoded, rest⟩ := result
    rw [hrun] at h
    cases h
    exact yields_decodeProgram bytes decoded rest hrun

/-- The bytecode round trip: a program that fits the format encodes and its
encoding decodes to itself, and so does every program the decoder returns. -/
theorem bytecode_round_trip :
    (∀ program : PortableProgram, program.Fits →
      ∃ bytes, encodeBytecode program = .ok bytes ∧ decodeBytecode bytes = .ok program) ∧
    (∀ bytes program, decodeBytecode bytes = .ok program →
      ∃ encoded, encodeBytecode program = .ok encoded ∧
        decodeBytecode encoded = .ok program) := by
  constructor
  · intro program hp
    exact decodeBytecode_of_encodeBytecode program hp
  · intro bytes program hdecode
    exact decodeBytecode_of_encodeBytecode program (fits_of_decodeBytecode hdecode)

/-- A program whose only function casts its argument and returns it. -/
def castProgram : PortableProgram where
  functions := [{
    name := "main", paramCount := 0, localCount := 2, startBlock := 0
    blocks := [{
      instructions := [.const 0 300, .cast 1 0 ⟨64, true⟩ ⟨8, false⟩]
      terminator := .return (some 1) }] }]
  mainIndex := 0

theorem castProgram_fits : castProgram.Fits := by
  have hname : ("main" : String).utf8ByteSize < 4294967296 := by decide
  simp [castProgram, PortableProgram.Fits, PortableFunction.Fits, PortableBlock.Fits,
    PortableInstruction.Fits, PortableTerminator.Fits, PortableScalarType.Fits, hname]

theorem castProgram_round_trip :
    ∃ bytes, encodeBytecode castProgram = .ok bytes ∧
      decodeBytecode bytes = .ok castProgram := by
  obtain ⟨bytes, -, hdecode⟩ := bytecode_round_trip.1 castProgram castProgram_fits
  exact bytecode_round_trip.2 bytes castProgram hdecode

end Sengoo.Portable
