import Sengoo.Fuel

/-!
Matching file names against globs in `runtime_breadth.c`: a loop over both strings that
goes back to the last `*`. A position in a string is kept as what is left from it on.
-/

namespace Sengoo.Stdlib.Glob

open Fuel List

abbrev star : UInt8 := '*'.toUInt8

abbrev question : UInt8 := '?'.toUInt8

/-- A name is `none` from past its terminator on. -/
structure GlobState where
  pattern : List UInt8
  value : Option (List UInt8)
  star : Option (List UInt8 × Option (List UInt8))

def advance : Option (List UInt8) → Option (List UInt8)
  | some (_ :: rest) => some rest
  | _ => none

def goBack (s : GlobState) : GlobState ⊕ Option Bool :=
  match s.star with
  | none => .inr (some false)
  | some (pattern, value) => .inl ⟨pattern, advance value, some (pattern, advance value)⟩

/-- A round of the loop. The answer is `none` when a byte past the terminator is read. -/
def globStep (s : GlobState) : GlobState ⊕ Option Bool :=
  match s.pattern, s.value with
  | [], some (_ :: _) => goBack s
  | [], _ => .inr (some true)
  | c :: pattern, value =>
    if c = question then .inl ⟨pattern, advance value, s.star⟩
    else match value with
      | none => .inr none
      | some rest =>
        -- the terminator is no byte of the pattern
        if rest.head? = some c then .inl ⟨pattern, advance value, s.star⟩
        else if c = star then .inl ⟨pattern, value, some (pattern, value)⟩
        else goBack s

def globLoop : Nat → GlobState → Option (Option Bool)
  | 0, _ => none
  | fuel + 1, s =>
    match globStep s with
    | .inl next => globLoop fuel next
    | .inr answer => some answer

def globMatch (pattern value : List UInt8) (fuel : Nat) : Option (Option Bool) :=
  globLoop fuel ⟨pattern, some value, none⟩

/-- The language of a pattern: `*` stands for any bytes, `?` for one byte. -/
def InGlob : List UInt8 → List UInt8 → Prop
  | [], value => value = []
  | c :: pattern, value =>
    if c = star then ∃ rest, rest <:+ value ∧ InGlob pattern rest
    else ∃ b rest, value = b :: rest ∧ (c = question ∨ c = b) ∧ InGlob pattern rest

/-- The name differs from the pattern before its first `*`, by a byte or by its length. -/
inductive Differs : List UInt8 → List UInt8 → Prop
  | long (b : UInt8) (value : List UInt8) : Differs [] (b :: value)
  | short (c : UInt8) (pattern : List UInt8) (hstar : c ≠ star) (hany : c ≠ question) :
    Differs (c :: pattern) []
  | byte (c b : UInt8) (pattern value : List UInt8) (hstar : c ≠ star) (hany : c ≠ question)
    (hbyte : c ≠ b) : Differs (c :: pattern) (b :: value)
  | later (c b : UInt8) {pattern value : List UInt8} (hstar : c ≠ star)
    (hmatch : c = question ∨ c = b) (h : Differs pattern value) : Differs (c :: pattern) (b :: value)

def Ends (s : GlobState) (answer : Option Bool) : Prop := Settles (globLoop · s) (some answer)

variable {s t : GlobState} {pattern value after tried : List UInt8} {answer : Option Bool}
  {b c : UInt8}

theorem Ends.step (h : globStep s = .inl t) (ht : Ends t answer) : Ends s answer :=
  Settles.call (fun fuel => by rw [globLoop, h]) ht

theorem Ends.stop (h : globStep s = .inr answer) : Ends s answer :=
  Settles.call (fun fuel => by rw [globLoop, h]) (Settles.const _)

/-- At a `*` the loop marks the place to go back to. -/
theorem globStep_star {last : Option (List UInt8 × Option (List UInt8))}
    (hhead : value.head? ≠ some star) : globStep ⟨star :: pattern, some value, last⟩ =
      .inl ⟨pattern, some value, some (pattern, some value)⟩ := by
  simp [globStep, hhead, show star ≠ question by decide]

theorem inGlob_star : InGlob (star :: pattern) value ↔ ∃ rest, rest <:+ value ∧ InGlob pattern rest := by
  rw [InGlob, if_pos rfl]

theorem inGlob_cons (hc : c ≠ star) : InGlob (c :: pattern) value ↔
    ∃ b rest, value = b :: rest ∧ (c = question ∨ c = b) ∧ InGlob pattern rest := by
  rw [InGlob, if_neg hc]

/-- Behind the last `*`, the part `after` of the pattern is tried from `tried` on, and
`pattern` and `value` are left of them. -/
structure Searching (after tried pattern value : List UInt8) : Prop where
  le : pattern.length ≤ after.length
  suffix : value <:+ tried
  found : ∃ rest, rest <:+ tried ∧ InGlob after rest
  left : ∃ rest, rest <:+ value ∧ InGlob pattern rest
  whole : InGlob after tried → InGlob pattern value

theorem Searching.start (h : ∃ rest, rest <:+ value ∧ InGlob pattern rest) :
    Searching pattern value pattern value :=
  ⟨Nat.le_refl _, suffix_rfl, h, h, id⟩

theorem Searching.forward (h : Searching after tried (c :: pattern) (b :: value))
    (hc : c ≠ star) : Searching after tried pattern value where
  le := Nat.le_of_succ_le h.le
  suffix := (suffix_cons b value).trans h.suffix
  found := h.found
  left := by
    obtain ⟨_, hrest, hglob⟩ := h.left
    obtain ⟨_, rest, rfl, -, hleft⟩ := (inGlob_cons hc).mp hglob
    rcases suffix_cons_iff.mp hrest with heq | hsuffix
    · cases heq
      exact ⟨value, suffix_rfl, hleft⟩
    · exact ⟨rest, (suffix_cons _ rest).trans hsuffix, hleft⟩
  whole hwhole := by
    obtain ⟨_, _, heq, -, hglob⟩ := (inGlob_cons hc).mp (h.whole hwhole)
    cases heq
    exact hglob

theorem Searching.retry (h : Searching after tried pattern value)
    (hfail : ¬ InGlob pattern value) :
    ∃ b tried', tried = b :: tried' ∧ Searching after tried' after tried' := by
  obtain ⟨rest, hrest, hglob⟩ := h.found
  have hne : rest ≠ tried := by
    rintro rfl
    exact hfail (h.whole hglob)
  cases tried with
  | nil => exact absurd (suffix_nil.mp hrest) hne
  | cons b tried =>
    exact ⟨b, tried, rfl, .start ⟨rest, (suffix_cons_iff.mp hrest).resolve_left hne, hglob⟩⟩

/-- The search ends where the first end of the name fits. -/
theorem search_ends {after tried pattern value : List UInt8}
    (h : Searching after tried pattern value) (hplain : star ∉ tried) :
    Ends ⟨pattern, some value, some (after, some tried)⟩ (some true) := by
  have hback (hfail : ¬ InGlob pattern value)
      (hstep : globStep ⟨pattern, some value, some (after, some tried)⟩ =
        goBack ⟨pattern, some value, some (after, some tried)⟩) :
      Ends ⟨pattern, some value, some (after, some tried)⟩ (some true) := by
    obtain ⟨b, tried', rfl, hnext⟩ := h.retry hfail
    exact .step hstep (search_ends hnext fun hmem => hplain (mem_cons_of_mem b hmem))
  cases pattern with
  | nil =>
    cases value with
    | nil => exact .stop rfl
    | cons b value => exact hback nofun rfl
  | cons c pattern =>
    obtain ⟨rest, hrest, hglob⟩ := h.left
    have hhead : value.head? ≠ some star := fun hmem =>
      hplain (h.suffix.subset (mem_of_mem_head? hmem))
    by_cases hc : c = star
    · subst hc
      obtain ⟨rest', hrest', hglob⟩ := inGlob_star.mp hglob
      have hnext := Searching.start ⟨rest', hrest'.trans hrest, hglob⟩
      have hlt : pattern.length < after.length := h.le
      exact .step (globStep_star hhead)
        (search_ends hnext fun hmem => hplain (h.suffix.subset hmem))
    · obtain ⟨_, _, rfl, -⟩ := (inGlob_cons hc).mp hglob
      obtain ⟨b, value, rfl⟩ := exists_cons_of_ne_nil fun hnil : value = [] => by
        simp [hnil] at hrest
      by_cases hmatch : c = question ∨ c = b
      · refine .step ?_ (search_ends (h.forward hc) hplain)
        rcases hmatch with rfl | rfl <;> simp [globStep, advance]
      · refine hback ?_ (by simp_all [globStep, eq_comm])
        intro hglob
        obtain ⟨_, _, heq, hmatch', -⟩ := (inGlob_cons hc).mp hglob
        cases heq
        exact hmatch hmatch'
termination_by (after.length, tried.length, pattern.length)

theorem inGlob_ends (hplain : star ∉ value) (h : InGlob pattern value) :
    Ends ⟨pattern, some value, none⟩ (some true) := by
  induction pattern generalizing value with
  | nil =>
    cases h
    exact .stop rfl
  | cons c pattern ih =>
    by_cases hc : c = star
    · subst hc
      have hhead : value.head? ≠ some star := fun hmem => hplain (mem_of_mem_head? hmem)
      exact .step (globStep_star hhead) (search_ends (.start (inGlob_star.mp h)) hplain)
    · obtain ⟨b, value, rfl, hmatch, hglob⟩ := (inGlob_cons hc).mp h
      refine .step ?_ (ih (fun hmem => hplain (mem_cons_of_mem b hmem)) hglob)
      rcases hmatch with rfl | rfl <;> simp [globStep, advance]

theorem Differs.ends (h : Differs pattern value) :
    ¬ InGlob pattern value ∧ Ends ⟨pattern, some value, none⟩ (some false) := by
  induction h with
  | long => exact ⟨nofun, .stop rfl⟩
  | short c pattern hstar hany =>
    refine ⟨fun hglob => ?_, .stop (by simp [globStep, goBack, hstar, hany])⟩
    obtain ⟨_, _, heq, -⟩ := (inGlob_cons hstar).mp hglob
    cases heq
  | byte c b pattern value hstar hany hbyte =>
    refine ⟨fun hglob => ?_, .stop (by simp [globStep, goBack, hstar, hany, hbyte.symm])⟩
    obtain ⟨_, _, heq, hmatch, -⟩ := (inGlob_cons hstar).mp hglob
    cases heq
    exact hmatch.elim hany hbyte
  | later c b hstar hmatch _ ih =>
    refine ⟨fun hglob => ?_, .step ?_ ih.2⟩
    · obtain ⟨_, _, heq, -, hglob⟩ := (inGlob_cons hstar).mp hglob
      cases heq
      exact ih.1 hglob
    · rcases hmatch with rfl | rfl <;> simp [globStep, advance]

/-- The loop answers `false` only before the first `*`, and within the name. -/
theorem globStep_past (h : s.star.isSome ∨ s.value = none) :
    (∀ t, globStep s = .inl t → t.star.isSome ∨ t.value = none) ∧
      globStep s ≠ .inr (some false) := by
  obtain ⟨pattern, value, last⟩ := s
  cases pattern with
  | nil => rcases value with _ | _ | _ <;> cases last <;> simp_all [globStep, goBack]
  | cons c pattern =>
    by_cases hc : c = question
    · rcases h with h | rfl <;> simp_all [globStep, advance]
    · cases value with
      | none => simp [globStep, hc]
      | some rest =>
        have hlast : last.isSome := by simpa using h
        obtain ⟨marked, rfl⟩ := Option.isSome_iff_exists.mp hlast
        by_cases hb : rest.head? = some c
        · simp [globStep, hc, hb]
        · by_cases hstar : c = star
          · subst hstar
            simp [globStep_star hb]
          · simp [globStep, goBack, hc, hb, hstar]

theorem globLoop_past (fuel : Nat) (h : s.star.isSome ∨ s.value = none) :
    globLoop fuel s ≠ some (some false) := by
  induction fuel generalizing s with
  | zero => exact nofun
  | succ fuel ih =>
    obtain ⟨hnext, hstop⟩ := globStep_past h
    rw [globLoop]
    cases hstep : globStep s with
    | inl t => exact ih (hnext t hstep)
    | inr answer =>
      intro hfalse
      cases Option.some.inj hfalse
      exact hstop hstep

theorem differs_of_globLoop (hplain : star ∉ value) {fuel : Nat}
    (h : globLoop fuel ⟨pattern, some value, none⟩ = some (some false)) :
    Differs pattern value := by
  induction fuel generalizing pattern value with
  | zero => cases h
  | succ fuel ih =>
    rw [globLoop] at h
    cases pattern with
    | nil =>
      cases value with
      | nil => cases h
      | cons b value => exact .long b value
    | cons c pattern =>
      by_cases hstar : c = star
      · subst hstar
        rw [globStep_star fun hmem => hplain (mem_of_mem_head? hmem)] at h
        exact absurd h (globLoop_past fuel (.inl rfl))
      cases value with
      | nil =>
        by_cases hany : c = question
        · simp only [globStep, hany, if_true, advance] at h
          exact absurd h (globLoop_past fuel (.inr rfl))
        · exact .short c pattern hstar hany
      | cons b value =>
        by_cases hmatch : c = question ∨ c = b
        · refine .later c b hstar hmatch (ih (fun hmem => hplain (mem_cons_of_mem b hmem)) ?_)
          rcases hmatch with rfl | rfl <;> simpa [globStep, advance] using h
        · obtain ⟨hany, hbyte⟩ := not_or.mp hmatch
          exact .byte c b pattern value hstar hany hbyte

end Sengoo.Stdlib.Glob
