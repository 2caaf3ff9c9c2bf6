import Mathlib.Data.List.Basic
import Mathlib.Tactic.Linarith

/-!
Byte codecs in general. A decoder consumes the unread suffix of a byte string
and either fails or returns a value with the bytes it left over. `Decodes`
says that a decoder reads one given encoding whatever follows it, `Yields`
says what every value it can return satisfies. Both compose along the monadic
bind, so a format built from smaller formats needs one lemma for each layer.
-/

namespace Sengoo.Codec

/-- A decoder over the unread suffix of a byte string. -/
abbrev Decoder (ε α : Type) := StateT (List UInt8) (Except ε) α

variable {ε α β : Type}

/-- `d` reads exactly `bytes` from the front of every input that starts with
them and returns `a`. -/
def Decodes (d : Decoder ε α) (bytes : List UInt8) (a : α) : Prop :=
  ∀ rest, d.run (bytes ++ rest) = .ok (a, rest)

/-- Every value that `d` returns on any input satisfies `P`. -/
def Yields (d : Decoder ε α) (P : α → Prop) : Prop :=
  ∀ input a rest, d.run input = .ok (a, rest) → P a

theorem Decodes.pure (a : α) : Decodes (Pure.pure a : Decoder ε α) [] a := by
  intro rest
  rfl

variable {d : Decoder ε α} {f : α → Decoder ε β} {a : α} {P : α → Prop}

theorem Decodes.bind
    {x y : List UInt8} {b : β}
    (hd : Decodes d x a) (hf : Decodes (f a) y b) :
    Decodes (d >>= f) (x ++ y) b := by
  intro rest
  rw [StateT.run_bind, List.append_assoc, hd (y ++ rest)]
  exact hf rest

/-- The last read of a record: its result is only wrapped. -/
theorem Decodes.bind_pure {g : α → β} {x : List UInt8}
    (hd : Decodes d x a) : Decodes (d >>= fun b => Pure.pure (g b)) x (g a) := by
  have h := hd.bind (f := fun b => Pure.pure (g b)) (Decodes.pure (g a))
  rw [List.append_nil] at h
  exact h

theorem Decodes.run_bind {x : List UInt8}
    (hd : Decodes d x a) (rest : List UInt8) :
    (d >>= f).run (x ++ rest) = (f a).run rest := by
  rw [StateT.run_bind, hd rest]
  rfl

/-- A successful bind splits into its two successful parts. -/
theorem run_bind_ok
    {input rest : List UInt8} {b : β} (h : (d >>= f).run input = .ok (b, rest)) :
    ∃ a middle, d.run input = .ok (a, middle) ∧ (f a).run middle = .ok (b, rest) := by
  rw [StateT.run_bind] at h
  cases hd : d.run input with
  | error e => rw [hd] at h; cases h
  | ok result =>
    obtain ⟨a, middle⟩ := result
    rw [hd] at h
    exact ⟨a, middle, rfl, h⟩

theorem Yields.pure (ha : P a) : Yields (Pure.pure a : Decoder ε α) P := by
  intro input value rest h
  cases h
  exact ha

theorem Yields.bind {Q : β → Prop} (hd : Yields d P)
    (hf : ∀ a, P a → Yields (f a) Q) : Yields (d >>= f) Q := by
  intro input b rest h
  obtain ⟨a, middle, hfirst, hsecond⟩ := run_bind_ok h
  exact hf a (hd input a middle hfirst) middle b rest hsecond

theorem Yields.throw (e : ε) : Yields (throw e : Decoder ε α) P := by
  intro input a rest h
  cases h

theorem Yields.mono {P Q : α → Prop} (hd : Yields d P)
    (h : ∀ a, P a → Q a) : Yields d Q :=
  fun input a rest hrun => h a (hd input a rest hrun)

theorem Yields.trivial (d : Decoder ε α) : Yields d (fun _ => True) :=
  fun _ _ _ _ => True.intro

/-- Nothing need be known of the value read first. -/
theorem Yields.after {Q : β → Prop} (hf : ∀ a, Yields (f a) Q) : Yields (d >>= f) Q :=
  (Yields.trivial d).bind fun a _ => hf a

/-- Run `d` a given number of times and collect the values. -/
def repeatN (d : Decoder ε α) : Nat → Decoder ε (List α)
  | 0 => Pure.pure []
  | n + 1 => do
      let a ← d
      let as ← repeatN d n
      Pure.pure (a :: as)

theorem Decodes.repeatN {encode : α → List UInt8}
    (values : List α) (h : ∀ a ∈ values, Decodes d (encode a) a) :
    Decodes (repeatN d values.length) (values.flatMap encode) values := by
  induction values with
  | nil => exact Decodes.pure []
  | cons a rest ih =>
    have htail := ih (fun b hb => h b (List.mem_cons_of_mem a hb))
    exact (h a (List.mem_cons_self ..)).bind htail.bind_pure

theorem Yields.repeatN (hd : Yields d P) (n : Nat) :
    Yields (repeatN d n) (fun values => values.length = n ∧ ∀ a ∈ values, P a) := by
  induction n with
  | zero => exact Yields.pure ⟨rfl, by simp⟩
  | succ n ih =>
    refine hd.bind (fun a ha => ih.bind (fun values hvalues => Yields.pure ⟨?_, ?_⟩))
    · simp [hvalues.1]
    · intro b hb
      rcases List.mem_cons.mp hb with rfl | hb
      · exact ha
      · exact hvalues.2 b hb

/-- The `width` little-endian bytes of a number. -/
def leBytes : Nat → Nat → List UInt8
  | 0, _ => []
  | width + 1, n => UInt8.ofNat n :: leBytes width (n / 256)

/-- The number that little-endian bytes denote. -/
def ofLeBytes : List UInt8 → Nat
  | [] => 0
  | byte :: bytes => byte.toNat + 256 * ofLeBytes bytes

@[simp] theorem leBytes_length (width n : Nat) : (leBytes width n).length = width := by
  induction width generalizing n with
  | zero => rfl
  | succ width ih => simp [leBytes, ih]

theorem ofLeBytes_leBytes (width n : Nat) : ofLeBytes (leBytes width n) = n % 256 ^ width := by
  induction width generalizing n with
  | zero => simp [leBytes, ofLeBytes, Nat.mod_one]
  | succ width ih =>
    have hbyte : (UInt8.ofNat n).toNat = n % 256 := by simp
    rw [leBytes, ofLeBytes, ih, hbyte, pow_succ', Nat.mod_mul]

end Sengoo.Codec
