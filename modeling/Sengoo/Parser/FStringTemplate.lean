import Sengoo.Fallible
import Sengoo.Parser.FStringGrammar

/-!
When an interpolated string means what it says. The literal texts between the
interpolations are decoded in their own right, a doubled brace being one brace
and every other brace itself; the template the lexer hands on is decoded
first and divided at its braces afterwards. The two agree exactly when no
brace of the decoded template comes from anything but a doubled brace or an
interpolation. That this is necessary is a count: a template that parses has
two braces for every placeholder and for every brace of its literal text.
-/

namespace Sengoo.Parser

open Utf8 Fallible List

def isBrace (c : Char) : Bool := c = openBrace || c = closeBrace

def braces (text : List Char) : Nat := text.countP isBrace

@[simp] theorem braces_nil : braces [] = 0 := rfl

@[simp] theorem braces_append (front back : List Char) :
    braces (front ++ back) = braces front + braces back := countP_append

theorem braces_cons (c : Char) (text : List Char) :
    braces (c :: text) = braces [c] + braces text := braces_append [c] text

variable {c : Char} {run : List Char} {runs : List (List Char)} {state : EscapeState}

theorem braces_cons_of_brace (h : isBrace c = true) (text : List Char) :
    braces (c :: text) = braces text + 1 := countP_cons_of_pos h

variable (text : List Char)

@[simp] theorem braces_openBrace :
    braces (openBrace :: text) = braces text + 1 := braces_cons_of_brace rfl text

@[simp] theorem braces_closeBrace :
    braces (closeBrace :: text) = braces text + 1 := braces_cons_of_brace rfl text

theorem braces_singleton_of_not (h : isBrace c = false) : braces [c] = 0 :=
  countP_eq_zero.mpr (by simp [h])

/-! ### The meaning of the literal texts -/

def EscapeState.isText : EscapeState → Bool
  | .text => true
  | _ => false

/-- Two equal braces outside an escape. -/
def doubled (state : EscapeState) (c d : Char) : Bool := state.isText && isBrace c && d = c

/-- The text a piece of source between two interpolations stands for. -/
def decode : EscapeState → List Char → List Char
  | state, [] => escapeEnd state
  | state, [c] => (escapeStep state c).1 ++ escapeEnd (escapeStep state c).2
  | state, c :: d :: rest =>
    if doubled state c d then c :: decode .text rest
    else (escapeStep state c).1 ++ decode (escapeStep state c).2 (d :: rest)

/-- The source texts before, between and behind the interpolations, the first
one beginning with the given text. -/
def literalRuns : List Char → List Item → List (List Char)
  | front, [] => [front]
  | front, .interpolation _ :: items => front :: literalRuns [] items
  | front, item :: items => literalRuns (front ++ item.source) items

/-- The template that emits the runs with a placeholder between each two. -/
def segmentsOf : List (List Char) → List FormatSegment
  | [] => []
  | [run] => flushLiteral (decode .text run) []
  | run :: runs =>
    flushLiteral (decode .text run) [] ++ .placeholder displayPlaceholder :: segmentsOf runs

def exprsOf : List Item → List (List Char)
  | [] => []
  | .interpolation expr :: items => expr :: exprsOf items
  | _ :: items => exprsOf items

/-- The literal means what its source says: the template divides into the
decoded literal texts with one automatic placeholder for each interpolation,
and each span is the byte range of its interpolation. -/
structure Faithful (items : List Item) (literal : FStringLiteral) : Prop where
  segments : parseFormatTemplate literal.template = .ok (segmentsOf (literalRuns [] items))
  count : ((segmentsOf (literalRuns [] items)).foldl countArg (0, 0)).1 =
    literal.interpolations.length
  spans : literal.interpolations.map (fun span => (span.1.toNat, span.2.toNat)) =
    positions fstringPrefixLen items

/-! ### The condition -/

/-- The braces of an interpolation pass through: no escape takes them. A lone
backslash keeps the character behind it. -/
def EscapeState.keepsBraces : EscapeState → Bool
  | .text | .escape => true
  | _ => false

/-- Outside doubled braces nothing decodes to a brace. An escape is not open
at the end of the text, unless the literal ends there. -/
def clean (last : Bool) : EscapeState → List Char → Prop
  | state, [] => if last then braces (escapeEnd state) = 0 else state.keepsBraces = true
  | state, [c] =>
    braces (escapeStep state c).1 = 0 ∧ if last then braces (escapeEnd (escapeStep state c).2) = 0
      else (escapeStep state c).2.keepsBraces = true
  | state, c :: d :: rest =>
    if doubled state c d then clean last .text rest
    else braces (escapeStep state c).1 = 0 ∧ clean last (escapeStep state c).2 (d :: rest)

def CleanRuns : List (List Char) → Prop
  | [] => True
  | [run] => clean true .text run
  | run :: runs => clean false .text run ∧ CleanRuns runs

/-! ### Runs and raw templates -/

/-- The runs with the placeholder of an interpolation between each two. -/
def joinRuns : List (List Char) → List Char
  | [] => []
  | [run] => run
  | run :: runs => run ++ openBrace :: closeBrace :: joinRuns runs

theorem literalRuns_ne_nil (front : List Char) (items : List Item) :
    literalRuns front items ≠ [] := by
  induction items generalizing front with
  | nil => simp [literalRuns]
  | cons item items ih => cases item <;> simp [literalRuns, ih]

theorem joinRuns_cons (h : runs ≠ []) :
    joinRuns (run :: runs) = run ++ openBrace :: closeBrace :: joinRuns runs := by
  cases runs with
  | nil => exact absurd rfl h
  | cons next runs => rfl

theorem joinRuns_literalRuns (front : List Char) (items : List Item) :
    joinRuns (literalRuns front items) = front ++ rawOf items := by
  induction items generalizing front with
  | nil => simp [literalRuns, joinRuns, rawOf]
  | cons item items ih =>
    cases item with
    | interpolation expr =>
      rw [literalRuns, joinRuns_cons (literalRuns_ne_nil [] items), ih]
      rfl
    | _ =>
      rw [literalRuns, ih, append_assoc]
      · rfl
      · simp

/-! ### Escapes -/

theorem unescape_doubled {c d : Char} (h : doubled state c d = true)
    (rest : List Char) : unescape state (c :: d :: rest) = c :: c :: unescape .text rest := by
  simp only [doubled, Bool.and_eq_true, decide_eq_true_eq] at h
  obtain ⟨⟨hstate, hbrace⟩, rfl⟩ := h
  cases state with
  | text =>
    have hne : d ≠ backslash := by
      rintro rfl
      cases hbrace
    simp [unescape, escapeStep, hne]
  | _ => cases hstate

theorem stripPlus_append : ∃ digits, stripPlus (text ++ [openBrace]) = digits ++ [openBrace] := by
  cases text with
  | nil => exact ⟨[], rfl⟩
  | cons c text =>
    by_cases hplus : c = '+'
    · exact ⟨text, if_pos hplus⟩
    · exact ⟨c :: text, if_neg hplus⟩

theorem radixNumber_openBrace (digits : List Char) :
    radixNumber 16 (digits ++ [openBrace]) = none := by
  rw [radixNumber, foldlM_append]
  cases List.foldlM (fun value c => (digitInBase 16 c).map (value * 16 + ·)) 0 digits <;> rfl

theorem fromStrRadix_openBrace (bound : Nat) :
    fromStrRadix 16 bound (text ++ [openBrace]) = none := by
  obtain ⟨digits, hdigits⟩ := stripPlus_append text
  rw [fromStrRadix, hdigits, radixNumber_openBrace]
  split <;> rfl

theorem braces_codeChar_le (code : List Char) : braces (codeChar code) ≤ 1 := by
  have hlength : (codeChar code).length ≤ 1 := by
    unfold codeChar
    split
    · split <;> simp
    · simp
  exact Nat.le_trans countP_le_length hlength

/-- An interpolation behind an open escape loses a brace at least. -/
theorem braces_unescape_interrupted (h : state.keepsBraces = false)
    (more : List Char) :
    braces (unescape state (openBrace :: closeBrace :: more)) ≤
      braces (unescape .text more) + 1 := by
  cases state with
  | text | escape => cases h
  | hexFirst =>
    show braces (hexChar openBrace closeBrace :: unescape .text more) ≤ _
    rw [braces_cons]
    have hnull : braces [hexChar openBrace closeBrace] = 0 := by decide
    omega
  | hexSecond first =>
    have hnull : hexChar first openBrace = Char.ofNat 0 := by
      rw [hexChar, show [first, openBrace] = [first] ++ [openBrace] from rfl,
        fromStrRadix_openBrace]
      rfl
    show braces (hexChar first openBrace :: closeBrace :: unescape .text more) ≤ _
    have hzero : braces [Char.ofNat 0] = 0 := by decide
    rw [hnull, braces_cons, braces_closeBrace]
    omega
  | unicodeOpen =>
    show braces (unescape .text more) ≤ _
    exact Nat.le_succ _
  | unicode code =>
    show braces (codeChar (code ++ [openBrace]) ++ unescape .text more) ≤ _
    rw [braces_append]
    have hle := braces_codeChar_le (code ++ [openBrace])
    omega

/-! ### Reading a clean template -/

variable {segments : List FormatSegment} {literal rest : List Char}

theorem parse_push (h : isBrace c = false) :
    parseTemplateLoop segments literal none (c :: rest) =
      parseTemplateLoop segments (literal ++ [c]) none rest := by
  simp only [isBrace, Bool.or_eq_false_iff, decide_eq_false_iff_not] at h
  cases rest with
  | nil => exact if_neg (not_or.mpr h)
  | cons d rest => rw [parseTemplateLoop, if_neg h.1, if_neg h.2]

theorem parse_pushes {text : List Char} (h : braces text = 0) :
    parseTemplateLoop segments literal none (text ++ rest) =
      parseTemplateLoop segments (literal ++ text) none rest := by
  induction text generalizing literal with
  | nil => rw [append_nil, nil_append]
  | cons c text ih =>
    have hall := countP_eq_zero.mp h
    have hc : isBrace c = false := by simpa using hall c (mem_cons_self ..)
    have htext : braces text = 0 :=
      countP_eq_zero.mpr (forall_mem_cons.mp hall).2
    rw [cons_append, parse_push hc, ih htext, append_assoc]
    rfl

theorem parse_doubled (h : isBrace c = true) :
    parseTemplateLoop segments literal none (c :: c :: rest) =
      parseTemplateLoop segments (literal ++ [c]) none rest := by
  simp only [isBrace, Bool.or_eq_true, decide_eq_true_eq] at h
  rcases h with rfl | rfl
  · rfl
  · rfl

theorem parse_placeholder :
    parseTemplateLoop segments literal none (openBrace :: closeBrace :: rest) =
      parseTemplateLoop (flushLiteral literal segments ++ [.placeholder displayPlaceholder]) []
        none rest := rfl

theorem isBrace_of_doubled {c d : Char} (h : doubled state c d = true) : isBrace c = true := by
  simp only [doubled, Bool.and_eq_true] at h
  exact h.1.2

/-- A clean run is pushed with its doubled braces halved, whatever stands behind it. -/
theorem parse_clean_run {last : Bool} (behind : List Char)
    (finish : List Char → Except FormatTemplateError (List FormatSegment))
    (hend : ∀ state literal, clean last state [] →
      parseTemplateLoop segments literal none (unescape state behind) =
        finish (literal ++ escapeEnd state))
    (h : clean last state run) (literal : List Char) :
    parseTemplateLoop segments literal none (unescape state (run ++ behind)) =
      finish (literal ++ decode state run) := by
  fun_induction decode state run generalizing literal with
  | case1 state => exact hend state literal h
  | case2 state c =>
    rw [cons_append, nil_append, unescape, parse_pushes h.1, hend _ _ h.2,
      append_assoc]
  | case3 state c d rest hdoubled ih =>
    rw [clean, if_pos hdoubled] at h
    rw [cons_append, cons_append, unescape_doubled hdoubled,
      parse_doubled (isBrace_of_doubled hdoubled), ih h, append_assoc]
    rfl
  | case4 state c d rest hdoubled ih =>
    rw [clean, if_neg hdoubled] at h
    rw [cons_append, unescape, parse_pushes h.1, ih h.2, append_assoc]

/-- The last run ends up in the last segment. -/
theorem parse_clean_last (h : clean true state run) :
    parseTemplateLoop segments literal none (unescape state run) =
      .ok (flushLiteral (literal ++ decode state run) segments) := by
  have hparse := parse_clean_run [] (fun text => .ok (flushLiteral text segments)) (by
    intro state literal hstate
    rw [← append_nil (unescape state []), unescape, parse_pushes hstate]
    rfl) h literal
  rwa [append_nil] at hparse

/-- Any other run ends up before the placeholder of the interpolation. -/
theorem parse_clean_before (h : clean false state run) (more : List Char) :
    parseTemplateLoop segments literal none
        (unescape state (run ++ openBrace :: closeBrace :: more)) =
      parseTemplateLoop (flushLiteral (literal ++ decode state run) segments ++
        [.placeholder displayPlaceholder]) [] none (unescape .text more) := by
  refine parse_clean_run _ (fun text => parseTemplateLoop (flushLiteral text segments ++
    [.placeholder displayPlaceholder]) [] none (unescape .text more)) ?_ h literal
  intro state literal hkeeps
  cases state with
  | text =>
    show parseTemplateLoop _ _ none (openBrace :: closeBrace :: unescape .text more) = _
    rw [parse_placeholder]
    simp [escapeEnd]
  | escape =>
    show parseTemplateLoop _ _ none
      (backslash :: openBrace :: closeBrace :: unescape .text more) = _
    rw [parse_push (by decide), parse_placeholder]
    rfl
  | _ => cases hkeeps

theorem flushLiteral_eq :
    flushLiteral literal segments = segments ++ flushLiteral literal [] := by
  unfold flushLiteral
  split <;> simp

theorem parse_clean_runs (hne : runs ≠ []) (h : CleanRuns runs) :
    parseTemplateLoop segments [] none (unescape .text (joinRuns runs)) =
      .ok (segments ++ segmentsOf runs) := by
  fun_induction segmentsOf runs generalizing segments with
  | case1 => exact absurd rfl hne
  | case2 run =>
    rw [joinRuns, parse_clean_last h, nil_append, flushLiteral_eq]
  | case3 run runs hruns ih =>
    have hcons : CleanRuns (run :: runs) = (clean false .text run ∧ CleanRuns runs) := by
      cases runs with
      | nil => exact absurd rfl hruns
      | cons next runs => rfl
    rw [hcons] at h
    rw [joinRuns_cons hruns, parse_clean_before h.1, ih hruns h.2, flushLiteral_eq]
    simp

/-! ### Counting braces -/

def FormatSegment.weight : FormatSegment → Nat
  | .literal text => braces text
  | .placeholder _ => 1

def weight (segments : List FormatSegment) : Nat := (segments.map FormatSegment.weight).sum

@[simp] theorem weight_nil : weight [] = 0 := rfl

@[simp] theorem weight_cons (segment : FormatSegment) :
    weight (segment :: segments) = segment.weight + weight segments := sum_cons

@[simp] theorem weight_append (front back : List FormatSegment) :
    weight (front ++ back) = weight front + weight back := by
  simp [weight]

theorem weight_flushLiteral :
    weight (flushLiteral literal segments) = weight segments + braces literal := by
  unfold flushLiteral
  split
  · next hempty =>
      rw [isEmpty_iff.mp hempty]
      rfl
  · simp [FormatSegment.weight]

theorem digitInBase_brace {base : Nat} (h : isBrace c = true) : digitInBase base c = none := by
  simp only [isBrace, Bool.or_eq_true, decide_eq_true_eq] at h
  rcases h with rfl | rfl <;> rfl

theorem braces_of_foldlM {base value n : Nat} {digits : List Char}
    (h : digits.foldlM (fun value c => (digitInBase base c).map (value * base + ·)) value = some n) :
    braces digits = 0 := by
  induction digits generalizing value with
  | nil => rfl
  | cons c digits ih =>
    obtain ⟨next, hdigit, h⟩ := Option.bind_eq_some_iff.mp h
    cases hbrace : isBrace c with
    | true =>
      simp [digitInBase_brace hbrace] at hdigit
    | false =>
      rw [braces_cons, braces_singleton_of_not hbrace, ih h]

theorem braces_of_expectUsize {body text : List Char} {n : Nat}
    (h : expectUsize body text = .ok n) : braces text = 0 := by
  cases hparse : parseUsize text with
  | none =>
    rw [expectUsize, hparse] at h
    cases h
  | some value =>
    rw [parseUsize, fromStrRadix] at hparse
    split at hparse
    · cases hparse
    · have hzero := braces_of_foldlM (Option.filter_eq_some_iff.mp hparse).1
      cases text with
      | nil => rfl
      | cons c text =>
        by_cases hplus : c = '+'
        · subst hplus
          rw [stripPlus, if_pos rfl] at hzero
          rw [braces_cons, hzero]
          rfl
        · rw [stripPlus, if_neg hplus] at hzero
          exact hzero

theorem splitOnce_eq_some {separator : Char} {text front back : List Char}
    (h : splitOnce separator text = some (front, back)) : text = front ++ separator :: back := by
  induction text generalizing front with
  | nil => cases h
  | cons c text ih =>
    by_cases hc : c = separator
    · rw [splitOnce, if_pos hc] at h
      cases h
      rw [hc]
      rfl
    · rw [splitOnce, if_neg hc] at h
      obtain ⟨parts, hparts, h⟩ := Option.map_eq_some_iff.mp h
      cases h
      exact congrArg (c :: ·) (ih hparts)

theorem braces_of_parseWidth {body spec : List Char} {placeholder result : FormatPlaceholder}
    (h : parseWidth body placeholder spec = .ok result) : braces spec = 0 := by
  cases spec with
  | nil => rfl
  | cons c width =>
    by_cases hc : c = '>'
    · subst hc
      obtain ⟨n, hn, -⟩ := bind_eq_ok h
      rw [braces_cons, braces_of_expectUsize hn]
      rfl
    · rw [parseWidth, if_neg hc] at h
      cases h

theorem braces_of_parseSpec {body spec : List Char} {placeholder result : FormatPlaceholder}
    (h : parseSpec body placeholder spec = .ok result) : braces spec = 0 := by
  cases hsplit : splitOnce '.' spec with
  | none =>
    rw [parseSpec, hsplit] at h
    exact braces_of_parseWidth h
  | some parts =>
    rw [parseSpec, hsplit] at h
    obtain ⟨n, hn, h⟩ := bind_eq_ok h
    rw [splitOnce_eq_some hsplit, braces_append, braces_cons, braces_of_parseWidth h,
      braces_of_expectUsize hn]
    rfl

theorem braces_of_parsePosition {body position : List Char} {placeholder : FormatPlaceholder}
    (h : parsePosition body position = .ok placeholder) : braces position = 0 := by
  unfold parsePosition at h
  split at h
  · next hempty =>
      rw [isEmpty_iff.mp hempty]
      rfl
  · obtain ⟨n, hn, -⟩ := bind_eq_ok h
    exact braces_of_expectUsize hn

/-- A placeholder with a brace in it is refused. -/
theorem braces_of_parsePlaceholderBody {body : List Char} {placeholder : FormatPlaceholder}
    (h : parsePlaceholderBody body = .ok placeholder) : braces body = 0 := by
  obtain ⟨middle, hposition, h⟩ := bind_eq_ok h
  have hfront := braces_of_parsePosition hposition
  have hback : braces (placeholderParts body).2 = 0 := by
    split at h
    · next hempty =>
        rw [isEmpty_iff.mp hempty]
        rfl
    · split at h
      · next hdebug =>
          rw [hdebug]
          rfl
      · exact braces_of_parseSpec h
  cases hsplit : splitOnce ':' body with
  | none =>
    rw [placeholderParts, hsplit] at hfront
    exact hfront
  | some parts =>
    rw [placeholderParts, hsplit] at hfront hback
    simp only [Option.getD_some] at hfront hback
    rw [splitOnce_eq_some hsplit, braces_append, braces_cons, hfront, hback]
    rfl

/-- The braces read so far and not yet in a segment. -/
def openBraces : Option (List Char) → Nat
  | none => 0
  | some body => 1 + braces body

/-- A template that parses has two braces for every placeholder and for every
brace of its literal text. -/
theorem braces_of_parseTemplateLoop {result : List FormatSegment} {text : List Char} {body : Option (List Char)}
    (h : parseTemplateLoop segments literal body text = .ok result) :
    braces text + openBraces body + 2 * (weight segments + braces literal) = 2 * weight result := by
  fun_induction parseTemplateLoop segments literal body text with
  | case1 segments literal =>
    cases h
    rw [weight_flushLiteral]
    simp [openBraces]
  | case2 | case3 | case6 | case11 => cases h
  | case4 segments literal body rest placeholder hbody ih =>
    have hih := ih h
    rw [weight_append, weight_flushLiteral] at hih
    simp only [openBraces, braces_of_parsePlaceholderBody hbody, weight_cons, weight_nil,
      FormatSegment.weight, braces_nil, braces_closeBrace] at hih ⊢
    omega
  | case5 segments literal body c rest hclose ih =>
    have hih := ih h
    simp only [openBraces, braces_append] at hih ⊢
    rw [braces_cons]
    omega
  | case7 segments literal c hbrace ih =>
    have hih := ih h
    have hzero := braces_singleton_of_not (show isBrace c = false by simpa [isBrace] using hbrace)
    rw [braces_append] at hih
    simp only [braces_nil] at hih ⊢
    omega
  | case8 segments literal rest ih =>
    have hih := ih h
    simp only [braces_append, braces_openBrace, braces_nil] at hih ⊢
    omega
  | case9 segments literal d rest hpair ih =>
    have hih := ih h
    simp only [openBraces, braces_nil, braces_openBrace] at hih ⊢
    omega
  | case10 segments literal rest hne ih =>
    have hih := ih h
    simp only [braces_append, braces_closeBrace, braces_nil] at hih ⊢
    omega
  | case12 segments literal c d rest hopen hclose ih =>
    have hih := ih h
    have hzero := braces_singleton_of_not (show isBrace c = false by simp [isBrace, hopen, hclose])
    rw [braces_append] at hih
    rw [braces_cons c]
    omega

/-! ### A faithful literal is clean -/

/-- Braces of a run that do not come in pairs are missing in the template, whatever
stands behind the run. -/
theorem run_loss {last : Bool} {behind : List Char} {extra : Nat} (hend : ∀ state, ∃ loss,
      braces (unescape state behind) + loss = 2 * braces (escapeEnd state) + extra ∧
        (loss = 0 → clean last state []))
    (state : EscapeState) (run : List Char) :
    ∃ loss, braces (unescape state (run ++ behind)) + loss =
        2 * braces (decode state run) + extra ∧ (loss = 0 → clean last state run) := by
  fun_induction decode state run with
  | case1 state => exact hend state
  | case2 state c =>
    obtain ⟨loss, hbraces, hkeeps⟩ := hend (escapeStep state c).2
    refine ⟨braces (escapeStep state c).1 + loss, ?_, fun hloss => ?_⟩
    · rw [cons_append, nil_append, unescape, braces_append, braces_append]
      omega
    · obtain ⟨hstep, hloss⟩ := Nat.add_eq_zero_iff.mp hloss
      exact ⟨hstep, hkeeps hloss⟩
  | case3 state c d rest hdoubled ih =>
    obtain ⟨loss, hbraces, hclean⟩ := ih
    have hbrace := isBrace_of_doubled hdoubled
    refine ⟨loss, ?_, fun hloss => ?_⟩
    · rw [cons_append, cons_append, unescape_doubled hdoubled,
        braces_cons_of_brace hbrace, braces_cons_of_brace hbrace, braces_cons_of_brace hbrace]
      omega
    · rw [clean, if_pos hdoubled]
      exact hclean hloss
  | case4 state c d rest hdoubled ih =>
    obtain ⟨loss, hbraces, hclean⟩ := ih
    refine ⟨braces (escapeStep state c).1 + loss, ?_, fun hloss => ?_⟩
    · rw [cons_append, unescape, braces_append, braces_append]
      omega
    · obtain ⟨hstep, hloss⟩ := Nat.add_eq_zero_iff.mp hloss
      rw [clean, if_neg hdoubled]
      exact ⟨hstep, hclean hloss⟩

theorem last_loss (state : EscapeState) :
    ∃ loss, braces (unescape state []) + loss = 2 * braces (escapeEnd state) + 0 ∧
      (loss = 0 → clean true state []) := by
  refine ⟨braces (escapeEnd state), ?_, id⟩
  rw [unescape]
  omega

/-- Before an interpolation the braces that stand for it count too. -/
theorem interpolation_loss (more : List Char) (state : EscapeState) :
    ∃ loss, braces (unescape state (openBrace :: closeBrace :: more)) + loss =
        2 * braces (escapeEnd state) + (2 + braces (unescape .text more)) ∧
      (loss = 0 → clean false state []) := by
  cases hkeeps : state.keepsBraces with
  | true =>
    refine ⟨0, ?_, fun _ => hkeeps⟩
    cases state with
    | text =>
      show braces (openBrace :: closeBrace :: unescape .text more) + 0 = _
      simp only [braces_openBrace, braces_closeBrace, escapeEnd, braces_nil]
      omega
    | escape =>
      show braces (backslash :: openBrace :: closeBrace :: unescape .text more) + 0 = _
      rw [braces_cons, braces_openBrace, braces_closeBrace,
        braces_singleton_of_not (show isBrace backslash = false by decide), escapeEnd,
        braces_singleton_of_not (show isBrace backslash = false by decide)]
      omega
    | _ => cases hkeeps
  | false =>
    have hle := braces_unescape_interrupted hkeeps more
    refine ⟨2 * braces (escapeEnd state) + 2 + braces (unescape .text more) -
      braces (unescape state (openBrace :: closeBrace :: more)), by omega, ?_⟩
    omega

theorem runs_loss (hne : runs ≠ []) :
    ∃ loss, braces (unescape .text (joinRuns runs)) + loss = 2 * weight (segmentsOf runs) ∧
      (loss = 0 → CleanRuns runs) := by
  fun_induction segmentsOf runs with
  | case1 => exact absurd rfl hne
  | case2 run =>
    obtain ⟨loss, hbraces, hclean⟩ := run_loss last_loss .text run
    rw [append_nil, Nat.add_zero] at hbraces
    refine ⟨loss, ?_, hclean⟩
    rw [joinRuns, hbraces, weight_flushLiteral, weight_nil, Nat.zero_add]
  | case3 run runs hruns ih =>
    obtain ⟨loss, hbraces, hclean⟩ := ih hruns
    obtain ⟨loss', hbraces', hclean'⟩ := run_loss (interpolation_loss (joinRuns runs)) .text run
    refine ⟨loss + loss', ?_, fun hloss => ?_⟩
    · rw [joinRuns_cons hruns, weight_append, weight_flushLiteral, weight_cons,
        FormatSegment.weight, weight_nil]
      omega
    · obtain ⟨hloss, hloss'⟩ := Nat.add_eq_zero_iff.mp hloss
      cases runs with
      | nil => exact absurd rfl hruns
      | cons next runs => exact ⟨hclean' hloss', hclean hloss⟩

/-- The template divides as the source says exactly when the runs are clean. -/
theorem parseFormatTemplate_iff (items : List Item) :
    parseFormatTemplate (unescapeString (rawOf items)) =
        .ok (segmentsOf (literalRuns [] items)) ↔ CleanRuns (literalRuns [] items) := by
  have hne := literalRuns_ne_nil [] items
  have hraw : rawOf items = joinRuns (literalRuns [] items) := by
    rw [joinRuns_literalRuns, nil_append]
  rw [hraw, parseFormatTemplate, unescapeString]
  constructor
  · intro hparse
    have hbraces := braces_of_parseTemplateLoop hparse
    obtain ⟨loss, hloss, hclean⟩ := runs_loss hne
    simp only [openBraces, weight_nil, braces_nil] at hbraces
    exact hclean (by omega)
  · intro hclean
    rw [parse_clean_runs hne hclean, nil_append]

end Sengoo.Parser
