import Mathlib.Data.BitVec

/-!
Command lines for Windows processes, as `runtime.c` builds them, and the rules by which
the C runtime of the started process takes them apart. A C string is the list of the
bytes before its terminator.
-/

namespace Sengoo.Stdlib.CommandLine

open List

abbrev quote : UInt8 := 0x22

abbrev backslash : UInt8 := 0x5c

abbrev space : UInt8 := 0x20

def isBlank (c : UInt8) : Bool := c = space || c = 0x09

section Writing

/-- The loop over an argument, behind backslashes that are counted and not yet written. -/
def appendQuoted : Nat → List UInt8 → List UInt8
  | backslashes, [] => replicate (backslashes * 2) backslash
  | backslashes, c :: arg =>
    if c = backslash then appendQuoted (backslashes + 1) arg
    else if c = quote then
      replicate (backslashes * 2 + 1) backslash ++ c :: appendQuoted 0 arg
    else replicate backslashes backslash ++ c :: appendQuoted 0 arg

def windowsAppendQuotedArg (arg : List UInt8) : List UInt8 :=
  quote :: (appendQuoted 0 arg ++ [quote])

def windowsArgNeedsQuotes (arg : List UInt8) : Bool :=
  arg = [] || arg.any fun c => isBlank c || c = quote

def windowsAppendArg (arg : List UInt8) : List UInt8 :=
  if windowsArgNeedsQuotes arg then windowsAppendQuotedArg arg else arg

def sizeMax : Nat := 2 ^ 64 - 1

def sizeAdd (total value : Nat) : Option Nat :=
  if sizeMax - total < value then none else some (total + value)

def addCapacity (capacity : Nat) (value : List UInt8) : Option Nat :=
  if (sizeMax - 3) / 2 < value.length then none else sizeAdd capacity (value.length * 2 + 3)

/-- The capacity asked for and the bytes written before the terminator; there are none
when the sizes overflow or the memory is not granted. -/
def windowsProcessCommandLine (granted : Bool) (executable : List UInt8)
    (args : List (List UInt8)) : Option (Nat × List UInt8) := do
  let capacity ← (executable :: args).foldlM addCapacity 1
  if granted then
    some (capacity, windowsAppendArg executable ++
      args.flatMap fun arg => space :: windowsAppendArg arg)
  else none

end Writing

section Reading

/-- An argument that is being read: what it has so far, whether quotes are open, and the
backslashes just read, which count as they are until a quote comes. -/
structure Argument where
  built : List UInt8
  quoted : Bool
  backslashes : Nat

def Argument.text (arg : Argument) : List UInt8 :=
  arg.built ++ replicate arg.backslashes backslash

def Argument.next (arg : Argument) (c : UInt8) : Argument :=
  if c = backslash then { arg with backslashes := arg.backslashes + 1 }
  else if c = quote then
    let built := arg.built ++ replicate (arg.backslashes / 2) backslash
    if arg.backslashes % 2 = 0 then ⟨built, !arg.quoted, 0⟩ else ⟨built ++ [quote], arg.quoted, 0⟩
  else ⟨arg.text ++ [c], arg.quoted, 0⟩

def splitArgs : Option Argument → List UInt8 → List (List UInt8)
  | arg, [] => (arg.map Argument.text).toList
  | arg, c :: line =>
    if isBlank c && arg.all (!·.quoted) then (arg.map Argument.text).toList ++ splitArgs none line
    else splitArgs (some ((arg.getD ⟨[], false, 0⟩).next c)) line

/-- The program name has no escapes: it ends at the closing quote or the first blank. -/
def readProgram (line : List UInt8) : List UInt8 × List UInt8 :=
  if line.head? = some quote then
    (line.tail.takeWhile (· != quote), (line.tail.dropWhile (· != quote)).tail)
  else (line.takeWhile (!isBlank ·), line.dropWhile (!isBlank ·))

def splitCommandLine (line : List UInt8) : List (List UInt8) :=
  (readProgram line).1 :: splitArgs none (readProgram line).2

end Reading

variable {n : Nat} {arg rest built : List UInt8} {args : List (List UInt8)}

@[simp] theorem quote_ne_backslash : quote ≠ backslash := by decide

@[simp] theorem isBlank_quote : isBlank quote = false := by decide

@[simp] theorem isBlank_backslash : isBlank backslash = false := by decide

theorem needsQuotes_iff : ¬ windowsArgNeedsQuotes arg ↔
    arg ≠ [] ∧ ∀ c ∈ arg, ¬ isBlank c ∧ c ≠ quote := by
  simp [windowsArgNeedsQuotes]

section Arguments

theorem splitArgs_backslashes (k : Nat) {a : Argument} :
    splitArgs (some a) (replicate k backslash ++ rest) =
      splitArgs (some { a with backslashes := a.backslashes + k }) rest := by
  induction k generalizing a with
  | zero => rfl
  | succ k ih =>
    rw [replicate_succ, cons_append, splitArgs, if_neg (by simp), Argument.next]
    simpa [Nat.add_comm, Nat.add_left_comm] using ih

/-- Between its quotes an argument is read back as it was. -/
theorem splitArgs_appendQuoted : splitArgs (some ⟨built, true, 0⟩) (appendQuoted n arg ++ quote :: rest) =
    splitArgs (some ⟨built ++ replicate n backslash ++ arg, false, 0⟩) rest := by
  induction arg generalizing n built with
  | nil =>
    rw [appendQuoted, splitArgs_backslashes, splitArgs, if_neg (by simp)]
    simp [Argument.next]
  | cons c arg ih =>
    rw [appendQuoted]
    split_ifs with hbackslash hquote
    · rw [ih, hbackslash, replicate_succ']
      simp
    · rw [append_assoc, splitArgs_backslashes, cons_append, splitArgs, if_neg (by simp)]
      have hodd : (n * 2 + 1) / 2 = n := by omega
      simp [Argument.next, hquote, hodd, ih]
    · rw [append_assoc, splitArgs_backslashes, cons_append, splitArgs, if_neg (by simp)]
      simp [Argument.next, hbackslash, hquote, Argument.text, ih]

theorem splitArgs_plain (rest : List UInt8) (hplain : ∀ c ∈ arg, ¬ isBlank c ∧ c ≠ quote) {a : Argument} :
    a.quoted = false → ∃ a', a'.quoted = false ∧ a'.text = a.text ++ arg ∧
      splitArgs (some a) (arg ++ rest) = splitArgs (some a') rest := by
  induction arg generalizing a with
  | nil => exact fun ha => ⟨a, ha, (append_nil _).symm, rfl⟩
  | cons c arg ih =>
    intro ha
    obtain ⟨⟨hblank, hquote⟩, hrest⟩ := forall_mem_cons.mp hplain
    have hnext : (a.next c).quoted = false ∧ (a.next c).text = a.text ++ [c] := by
      rw [Argument.next]
      split_ifs with hbackslash
      · exact ⟨ha, by simp [Argument.text, hbackslash, replicate_succ']⟩
      · exact ⟨ha, by simp [Argument.text]⟩
    obtain ⟨a', ha', htext, hread⟩ := ih hrest hnext.1
    refine ⟨a', ha', by simp [htext, hnext.2], ?_⟩
    rw [cons_append, splitArgs, if_neg (by simp [hblank])]
    exact hread

/-- What is written of an argument is read as one argument, with its text. -/
theorem splitArgs_appendArg (arg rest : List UInt8) : ∃ a, a.quoted = false ∧ a.text = arg ∧
    splitArgs none (windowsAppendArg arg ++ rest) = splitArgs (some a) rest := by
  unfold windowsAppendArg
  split_ifs with hneeds
  · refine ⟨⟨arg, false, 0⟩, rfl, append_nil arg, ?_⟩
    rw [windowsAppendQuotedArg, cons_append, append_assoc, splitArgs, if_neg (by simp)]
    exact splitArgs_appendQuoted
  · obtain ⟨hne, hclean⟩ := needsQuotes_iff.mp hneeds
    obtain ⟨a, ha, htext, hread⟩ := splitArgs_plain rest hclean (a := ⟨[], false, 0⟩) rfl
    refine ⟨a, ha, htext, Eq.trans ?_ hread⟩
    obtain ⟨c, arg, rfl⟩ := exists_cons_of_ne_nil hne
    simp [splitArgs, hclean c (mem_cons_self ..)]

theorem splitArgs_args {a : Option Argument} (ha : a.all (!·.quoted) = true) :
    splitArgs a (args.flatMap fun arg => space :: windowsAppendArg arg) =
      (a.map Argument.text).toList ++ args := by
  induction args generalizing a with
  | nil => exact (append_nil _).symm
  | cons arg args ih =>
    obtain ⟨a', ha', htext, hread⟩ := splitArgs_appendArg arg
      (args.flatMap fun arg => space :: windowsAppendArg arg)
    have hnext := ih (a := some a') (by simp [ha'])
    rw [flatMap_cons, cons_append, splitArgs, if_pos (by simp [isBlank, ha]), hread, hnext]
    simp [htext]

end Arguments

section Program

/-- Only the backslashes at the end of a program name are written twice. -/
theorem appendQuoted_program (h : quote ∉ arg) : ∃ k,
    appendQuoted n arg = replicate n backslash ++ arg ++ replicate k backslash ∧
      (k = 0 ↔ (replicate n backslash ++ arg).getLast? ≠ some backslash) := by
  induction arg generalizing n with
  | nil =>
    refine ⟨n, by rw [appendQuoted, append_nil, replicate_append_replicate, Nat.mul_two], ?_⟩
    cases n <;> simp [getLast?_replicate]
  | cons c arg ih =>
    obtain ⟨hc, harg⟩ := not_or.mp (mt mem_cons.mpr h)
    rw [appendQuoted]
    split_ifs with hbackslash hquote
    · obtain ⟨k, hwritten, hk⟩ := ih (n := n + 1) harg
      have hmove : replicate (n + 1) backslash ++ arg = replicate n backslash ++ c :: arg := by
        simp [hbackslash, replicate_succ']
      exact ⟨k, hmove ▸ hwritten, hmove ▸ hk⟩
    · exact absurd hquote.symm hc
    · obtain ⟨k, hwritten, hk⟩ := ih (n := 0) harg
      refine ⟨k, by simp [hwritten], hk.trans ?_⟩
      cases arg <;> simp [hbackslash]

theorem readProgram_appendArg {executable : List UInt8} (h : quote ∉ executable)
    (hrest : ∀ c ∈ rest.head?, c = space) : ∃ program,
    readProgram (windowsAppendArg executable ++ rest) = (program, rest) ∧ (program = executable ↔
      ¬ (windowsArgNeedsQuotes executable ∧ executable.getLast? = some backslash)) := by
  unfold windowsAppendArg
  split_ifs with hneeds
  · obtain ⟨k, hwritten, hk⟩ := appendQuoted_program (n := 0) h
    rw [replicate_zero, nil_append] at hwritten hk
    have hplain : ∀ c ∈ appendQuoted 0 executable, (c != quote) = true := by
      intro c hc
      rcases mem_append.mp (hwritten ▸ hc) with hc | hc
      · exact bne_iff_ne.mpr (ne_of_mem_of_not_mem hc h)
      · rw [eq_of_mem_replicate hc]
        decide
    refine ⟨appendQuoted 0 executable, ?_, ?_⟩
    · rw [readProgram, windowsAppendQuotedArg, cons_append, append_assoc, if_pos head?_cons, tail_cons,
        takeWhile_append_of_pos hplain, dropWhile_append_of_pos hplain]
      simp
    · rw [hwritten, append_right_eq_self, replicate_eq_nil_iff, hk,
        and_iff_right hneeds]
  · obtain ⟨hne, hclean⟩ := needsQuotes_iff.mp hneeds
    have hplain : ∀ c ∈ executable, (!isBlank c) = true := fun c hc => by simp [hclean c hc]
    have hhead : (executable ++ rest).head? ≠ some quote := by
      obtain ⟨c, executable, rfl⟩ := exists_cons_of_ne_nil hne
      exact fun hhead => h (Option.some.inj hhead ▸ mem_cons_self ..)
    refine ⟨executable, ?_, iff_of_true rfl fun hbad => hneeds hbad.1⟩
    rw [readProgram, if_neg hhead, takeWhile_append_of_pos hplain, dropWhile_append_of_pos hplain]
    cases rest <;> simp_all [isBlank]

end Program

section Capacity

theorem length_appendQuoted_le : (appendQuoted n arg).length ≤ 2 * (n + arg.length) := by
  induction arg generalizing n with
  | nil => simp [appendQuoted, Nat.mul_comm]
  | cons c arg ih =>
    have hnext := ih (n := n + 1)
    have hagain := ih (n := 0)
    rw [appendQuoted]
    split_ifs <;> simp <;> omega

theorem length_appendArg_le (arg : List UInt8) : (windowsAppendArg arg).length ≤ 2 * arg.length + 2 := by
  have hle := @length_appendQuoted_le 0 arg
  unfold windowsAppendArg windowsAppendQuotedArg
  split_ifs <;> simp <;> omega

/-- Each string has room in the capacity for its quotes, its separator and every byte twice. -/
theorem length_le_capacity {capacity total : Nat} (h : args.foldlM addCapacity capacity = some total) :
    capacity + (args.flatMap fun arg => space :: windowsAppendArg arg).length ≤ total := by
  induction args generalizing capacity with
  | nil => exact Nat.le_of_eq (Option.some.inj h)
  | cons arg args ih =>
    rw [foldlM_cons, Option.bind_eq_bind, Option.bind_eq_some_iff] at h
    obtain ⟨next, hnext, hrest⟩ := h
    have hadded : next = capacity + (arg.length * 2 + 3) := by
      unfold addCapacity sizeAdd at hnext
      split_ifs at hnext
      exact (Option.some.inj hnext).symm
    have hle := ih hrest
    have harg := length_appendArg_le arg
    rw [flatMap_cons, length_append, length_cons]
    omega

end Capacity

variable {executable line : List UInt8}

/-- The line fits in its capacity, and the process sees the executable and the arguments
unless the executable is quoted and ends in a backslash, which is then written twice. -/
theorem splitCommandLine_iff (hquote : quote ∉ executable) {granted : Bool} (capacity : Nat)
    (h : windowsProcessCommandLine granted executable args = some (capacity, line)) :
    line.length + 1 ≤ capacity ∧ (splitCommandLine line = executable :: args ↔
      ¬ (windowsArgNeedsQuotes executable ∧ executable.getLast? = some backslash)) := by
  simp only [windowsProcessCommandLine, Option.bind_eq_bind, Option.bind_eq_some_iff] at h
  obtain ⟨total, htotal, hline⟩ := h
  split_ifs at hline
  cases hline
  have hhead : ∀ c ∈ (args.flatMap fun arg => space :: windowsAppendArg arg).head?, c = space := by
    cases args <;> simp
  obtain ⟨program, hread, hprogram⟩ := readProgram_appendArg hquote hhead
  refine ⟨?_, ?_⟩
  · have hle := length_le_capacity htotal
    rw [flatMap_cons, length_append, length_cons] at hle
    rw [length_append]
    omega
  · rw [splitCommandLine, hread, splitArgs_args rfl]
    simpa using hprogram

theorem splitCommandLine_loses :
    (windowsProcessCommandLine true [0x61, space, backslash] []).map (splitCommandLine ·.2) =
      some [[0x61, space, backslash, backslash]] := by
  decide

theorem splitCommandLine_blank :
    splitCommandLine [quote, 0x61, space, quote, space, quote, backslash, quote, quote] =
      [[0x61, space], [quote]] :=
  (splitCommandLine_iff (by decide) 13 (by decide : windowsProcessCommandLine true _ _ = _)).2.mpr
    (by decide)

end Sengoo.Stdlib.CommandLine
