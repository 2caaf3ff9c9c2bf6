import Sengoo.Fuel
import Sengoo.Parser.FString

/-!
The grammar of interpolated strings, character by character, and the two byte
scanners held to it: what they accept is what the grammar divides into items,
and both end behind the same closing quote.
-/

namespace Sengoo.Parser

open List Utf8

/-! ### The grammar -/

/-- A quoted literal behind its opening quote, up to and with the closing one. -/
inductive Quoted (close : Char) : List Char → Prop where
  | done : Quoted close [close]
  | escape (c : Char) {text : List Char} : Quoted close text → Quoted close (backslash :: c :: text)
  | step {c : Char} {text : List Char} : c ≠ backslash → c ≠ newline → c ≠ close →
      Quoted close text → Quoted close (c :: text)

/-- A text on one line that closes as many braces more than it opens as the
number says. Braces in quoted literals do not count. -/
inductive Balanced : Nat → List Char → Prop where
  | done : Balanced 0 []
  | opened {depth : Nat} {text : List Char} : Balanced (depth + 1) text →
      Balanced depth (openBrace :: text)
  | closed {depth : Nat} {text : List Char} : Balanced depth text →
      Balanced (depth + 1) (closeBrace :: text)
  | quoted {depth : Nat} {close : Char} {literal text : List Char} :
      close = quote ∨ close = apostrophe → Quoted close literal → Balanced depth text →
      Balanced depth (close :: (literal ++ text))
  | step {depth : Nat} {c : Char} {text : List Char} : c ≠ openBrace → c ≠ closeBrace →
      c ≠ quote → c ≠ apostrophe → c ≠ newline → Balanced depth text →
      Balanced depth (c :: text)

/-- What the body of an interpolated string consists of. -/
inductive Item where
  | escape (c : Char)
  | doubledOpen
  | doubledClose
  | interpolation (expr : List Char)
  | plain (c : Char)
deriving DecidableEq

def Item.source : Item → List Char
  | escape c => [backslash, c]
  | doubledOpen => [openBrace, openBrace]
  | doubledClose => [closeBrace, closeBrace]
  | interpolation expr => openBrace :: (expr ++ [closeBrace])
  | plain c => [c]

def sourceOf (items : List Item) : List Char := items.flatMap Item.source

/-- The remainder behind the opening quote is the items, the closing quote and
what follows the literal. A doubled brace is read as one wherever it can be. -/
inductive Divided (behind : List Char) : List Char → List Item → Prop where
  | done : Divided behind (quote :: behind) []
  | escape (c : Char) {rest : List Char} {items : List Item} : Divided behind rest items →
      Divided behind (backslash :: c :: rest) (.escape c :: items)
  | doubledOpen {rest : List Char} {items : List Item} : Divided behind rest items →
      Divided behind (openBrace :: openBrace :: rest) (.doubledOpen :: items)
  | doubledClose {rest : List Char} {items : List Item} : Divided behind rest items →
      Divided behind (closeBrace :: closeBrace :: rest) (.doubledClose :: items)
  | interpolation {expr rest : List Char} {items : List Item} :
      expr.head? ≠ some openBrace → Balanced 0 expr → Divided behind rest items →
      Divided behind (openBrace :: (expr ++ closeBrace :: rest)) (.interpolation expr :: items)
  | plain {c : Char} {rest : List Char} {items : List Item} :
      c ≠ quote → c ≠ newline → c ≠ backslash → c ≠ openBrace →
      (c = closeBrace → rest.head? ≠ some closeBrace) → Divided behind rest items →
      Divided behind (c :: rest) (.plain c :: items)

variable {text expr : List Char} {front : List UInt8}

variable {behind rest : List Char} {items : List Item} {item : Item} {fuel : Nat}

/-- Whether an item can be read before this rest. -/
def Item.Fits (rest : List Char) : Item → Prop
  | escape _ | doubledOpen | doubledClose => True
  | interpolation expr => expr.head? ≠ some openBrace ∧ Balanced 0 expr
  | plain c => c ≠ quote ∧ c ≠ newline ∧ c ≠ backslash ∧ c ≠ openBrace ∧
      (c = closeBrace → rest.head? ≠ some closeBrace)

theorem Item.source_interpolation (expr rest : List Char) :
    (interpolation expr).source ++ rest = openBrace :: (expr ++ closeBrace :: rest) := by
  simp [source]

theorem Item.length_source_pos (item : Item) : 0 < item.source.length := by
  cases item <;> exact Nat.succ_pos _

theorem Divided.cons (hfits : item.Fits rest) (h : Divided behind rest items) :
    Divided behind (item.source ++ rest) (item :: items) := by
  cases item with
  | escape c => exact .escape c h
  | doubledOpen => exact .doubledOpen h
  | doubledClose => exact .doubledClose h
  | interpolation expr =>
    rw [Item.source_interpolation]
    exact .interpolation hfits.1 hfits.2 h
  | plain c =>
    obtain ⟨hquote, hline, hback, hopen, hclose⟩ := hfits
    exact .plain hquote hline hback hopen hclose h

/-- Induction along the items of a divided text. -/
theorem Divided.along {motive : List Char → List Item → Prop} (h : Divided behind rest items)
    (done : motive (quote :: behind) [])
    (item : ∀ item rest items, item.Fits rest → motive rest items →
      motive (item.source ++ rest) (item :: items)) : motive rest items := by
  induction h with
  | done => exact done
  | escape c _ ih => exact item (.escape c) _ _ trivial ih
  | doubledOpen _ ih => exact item .doubledOpen _ _ trivial ih
  | doubledClose _ ih => exact item .doubledClose _ _ trivial ih
  | @interpolation expr rest items hopen hexpr _ ih =>
    rw [← Item.source_interpolation]
    exact item (.interpolation expr) _ _ ⟨hopen, hexpr⟩ ih
  | plain hquote hline hback hopen hclose _ ih =>
    exact item (.plain _) _ _ ⟨hquote, hline, hback, hopen, hclose⟩ ih

theorem Divided.eq_source (h : Divided behind rest items) :
    rest = sourceOf items ++ quote :: behind := by
  refine h.along (motive := fun rest items => rest = sourceOf items ++ quote :: behind) rfl ?_
  simp [sourceOf]

/-! ### Bytes of characters -/

/-- The bytes a scanner compares with. -/
theorem bytes_special (text : List Char) : bytes (backslash :: text) = 92 :: bytes text ∧
      bytes (openBrace :: text) = 123 :: bytes text ∧
      bytes (newline :: text) = 10 :: bytes text := by
  refine ⟨?_, ?_, ?_⟩ <;> rfl

theorem size_special : quote.utf8Size = 1 ∧ backslash.utf8Size = 1 ∧ openBrace.utf8Size = 1 ∧
      closeBrace.utf8Size = 1 := by
  decide

/-- A character that is not this one has none of its bytes. -/
theorem byte_ne {c : Char} {b : UInt8} (hb : b ∈ String.utf8EncodeChar c) (special : Char)
    (hascii : special.toNat < 128) (h : c ≠ special) : b ≠ UInt8.ofNat special.toNat := by
  rintro rfl
  exact notMem_encode special hascii h hb

theorem tail_byte_ne {c : Char} {b : UInt8} (hb : b ∈ (String.utf8EncodeChar c).tail)
    (special : Char) (hascii : special.toNat < 128) : b ≠ UInt8.ofNat special.toNat := by
  rintro rfl
  have hhigh := tail_encode_high c _ hb
  rw [UInt8.toNat_ofNat'] at hhigh
  omega

/-! ### Quoted literals -/

theorem quotedRest_step {close b : UInt8} (rest : List UInt8) (hback : b ≠ 92) (hline : b ≠ 10)
    (hclose : b ≠ close) : quotedRest close (b :: rest) = quotedRest close rest := by
  cases rest with
  | nil | cons next rest => simp [quotedRest, hback, hline, hclose]

theorem quotedRest_steps {close : UInt8} (rest : List UInt8)
    (h : ∀ b ∈ front, b ≠ 92 ∧ b ≠ 10 ∧ b ≠ close) :
    quotedRest close (front ++ rest) = quotedRest close rest := by
  induction front with
  | nil => rfl
  | cons b front ih =>
    obtain ⟨hback, hline, hclose⟩ := h b (mem_cons_self ..)
    rw [cons_append, quotedRest_step _ hback hline hclose]
    exact ih (forall_mem_cons.mp h).2

/-- Behind a backslash a whole character is passed: the rest of its bytes are
ordinary ones. -/
theorem quotedRest_escape {close : Char} (hclose : close.toNat < 128) (c : Char)
    (rest : List Char) :
    quotedRest (UInt8.ofNat close.toNat) (bytes (backslash :: c :: rest)) =
      quotedRest (UInt8.ofNat close.toNat) (bytes rest) := by
  obtain ⟨b, more, hbytes⟩ := exists_cons_of_ne_nil String.utf8EncodeChar_ne_nil
  rw [(bytes_special _).1, bytes_cons, hbytes]
  apply quotedRest_steps
  intro b hb
  have hne := tail_byte_ne (c := c) (b := b) (by rw [hbytes]; exact hb)
  exact ⟨hne backslash (by decide), hne newline (by decide), hne close hclose⟩

section

variable {close : Char} (hclose : close.toNat < 128) (hback : close ≠ backslash)
  (hline : close ≠ newline)
include hclose

theorem quotedRest_char {c : Char} (rest : List Char) (h₁ : c ≠ backslash) (h₂ : c ≠ newline)
    (h₃ : c ≠ close) :
    quotedRest (UInt8.ofNat close.toNat) (bytes (c :: rest)) =
      quotedRest (UInt8.ofNat close.toNat) (bytes rest) :=
  quotedRest_steps _ fun _ hb => ⟨byte_ne hb backslash (by decide) h₁,
    byte_ne hb newline (by decide) h₂, byte_ne hb close hclose h₃⟩

include hback hline

theorem quotedRest_close (rest : List Char) :
    quotedRest (UInt8.ofNat close.toNat) (bytes (close :: rest)) = some (bytes rest) := by
  have hmem : UInt8.ofNat close.toNat ∈ String.utf8EncodeChar close := by
    rw [encode_ascii hclose]
    exact mem_singleton_self _
  have hback : UInt8.ofNat close.toNat ≠ 92 := byte_ne hmem backslash (by decide) hback
  have hline : UInt8.ofNat close.toNat ≠ 10 := byte_ne hmem newline (by decide) hline
  rw [bytes_cons, encode_ascii hclose]
  cases bytes rest with
  | nil | cons next rest => simp [quotedRest, hback, hline]

theorem quotedRest_of_quoted {literal : List Char} (h : Quoted close literal)
    (rest : List Char) :
    quotedRest (UInt8.ofNat close.toNat) (bytes (literal ++ rest)) = some (bytes rest) := by
  induction h with
  | done => exact quotedRest_close hclose hback hline rest
  | escape c _ ih =>
    rw [cons_append, cons_append, quotedRest_escape hclose]
    exact ih
  | step h₁ h₂ h₃ _ ih =>
    rw [cons_append, quotedRest_char hclose _ h₁ h₂ h₃]
    exact ih

theorem quoted_of_quotedRest {text : List Char} {behind : List UInt8}
    (h : quotedRest (UInt8.ofNat close.toNat) (bytes text) = some behind) :
    ∃ literal rest, text = literal ++ rest ∧ Quoted close literal ∧ behind = bytes rest := by
  cases text with
  | nil => cases h
  | cons c text =>
    by_cases hc : c = close
    · subst hc
      rw [quotedRest_close hclose hback hline] at h
      cases h
      exact ⟨[c], text, rfl, .done, rfl⟩
    by_cases hback' : c = backslash
    · subst hback'
      -- behind a backslash two characters are passed at once
      cases text with
      | nil => cases h
      | cons d text =>
        rw [quotedRest_escape hclose] at h
        obtain ⟨literal, rest, rfl, hliteral, hbehind⟩ := quoted_of_quotedRest h
        exact ⟨_, rest, rfl, .escape d hliteral, hbehind⟩
    by_cases hline' : c = newline
    · subst hline'
      rw [(bytes_special _).2.2] at h
      cases hrest : bytes text with
      | nil | cons next rest =>
        rw [hrest] at h
        cases h
    · rw [quotedRest_char hclose _ hback' hline' hc] at h
      obtain ⟨literal, rest, rfl, hliteral, hbehind⟩ := quoted_of_quotedRest h
      exact ⟨c :: literal, rest, rfl, .step hback' hline' hc hliteral, hbehind⟩
termination_by text.length

end

/-! ### Interpolations -/

theorem interpolationRest_other (depth fuel : Nat) (b : UInt8) (rest : List UInt8)
    (h : b ≠ 125 ∧ b ≠ 123 ∧ b ≠ 34 ∧ b ≠ 39 ∧ b ≠ 10) :
    interpolationRest (fuel + 1) depth (b :: rest) = interpolationRest fuel depth rest := by
  obtain ⟨hclose, hopen, hquote, hapostrophe, hline⟩ := h
  rw [interpolationRest.eq_def]
  simp only [hclose, hopen, hquote, hapostrophe, hline, or_self, if_false]

theorem interpolationRest_char {c : Char} (hopen : c ≠ openBrace) (hclose : c ≠ closeBrace)
    (hquote : c ≠ quote) (hapostrophe : c ≠ apostrophe) (hline : c ≠ newline)
    (fuel depth : Nat) (rest : List Char) :
    interpolationRest fuel depth (bytes (c :: rest)) =
      interpolationRest (fuel - c.utf8Size) depth (bytes rest) := by
  rw [← String.length_utf8EncodeChar c]
  exact Fuel.over_steps (f := (interpolationRest · depth)) (fun _ => rfl)
    (interpolationRest_other depth) _ (fun _ hb => ⟨byte_ne hb closeBrace (by decide) hclose,
      byte_ne hb openBrace (by decide) hopen, byte_ne hb quote (by decide) hquote,
      byte_ne hb apostrophe (by decide) hapostrophe, byte_ne hb newline (by decide) hline⟩) fuel

/-- A quote inside an interpolation, and what the literal behind it leaves. -/
theorem interpolationRest_quote {close : Char} (hclose : close = quote ∨ close = apostrophe)
    (fuel depth : Nat) (rest : List Char) :
    interpolationRest (fuel + 1) depth (bytes (close :: rest)) =
      (quotedRest (UInt8.ofNat close.toNat) (bytes rest)).bind (interpolationRest fuel depth) := by
  have hquote : ∀ b : UInt8, b = 34 ∨ b = 39 → interpolationRest (fuel + 1) depth (b :: bytes rest) =
      (quotedRest b (bytes rest)).bind (interpolationRest fuel depth) := by
    intro b hb
    have hbrace : b ≠ 125 ∧ b ≠ 123 := by rcases hb with rfl | rfl <;> decide
    rw [interpolationRest.eq_def]
    simp only [hbrace, hb, if_true, if_false]
    cases quotedRest b (bytes rest) <;> rfl
  rcases hclose with rfl | rfl <;> exact hquote _ (by decide)

theorem quotes_ascii {close : Char} (h : close = quote ∨ close = apostrophe) :
    close.toNat < 128 ∧ close ≠ backslash ∧ close ≠ newline ∧ close.utf8Size = 1 := by
  rcases h with rfl | rfl <;> decide

/-- Enough rounds step over a balanced text and its closing brace. -/
theorem interpolationRest_of_balanced {depth : Nat} (h : Balanced depth text)
    (rest : List Char) (hfuel : size text < fuel) :
    interpolationRest fuel depth (bytes (text ++ closeBrace :: rest)) = some (bytes rest) := by
  obtain ⟨-, -, hopenSize, hcloseSize⟩ := size_special
  induction h generalizing fuel with
  | done =>
    obtain ⟨fuel, rfl⟩ := Nat.exists_eq_add_of_le' hfuel
    rfl
  | opened _ ih | closed _ ih =>
    rw [size_cons] at hfuel
    obtain ⟨more, rfl⟩ := Nat.exists_eq_add_of_lt hfuel
    exact ih (by omega)
  | @quoted depth close literal text hclose hliteral _ ih =>
    obtain ⟨hascii, hback, hline, hsize⟩ := quotes_ascii hclose
    rw [size_cons, size_append] at hfuel
    obtain ⟨more, rfl⟩ := Nat.exists_eq_add_of_lt hfuel
    rw [cons_append, append_assoc, interpolationRest_quote hclose,
      quotedRest_of_quoted hascii hback hline hliteral, Option.bind_some]
    exact ih (by omega)
  | @step depth c text h₁ h₂ h₃ h₄ h₅ _ ih =>
    rw [size_cons] at hfuel
    rw [cons_append, interpolationRest_char h₁ h₂ h₃ h₄ h₅]
    exact ih (by omega)

theorem balanced_of_interpolationRest {text : List Char} {fuel depth : Nat}
    {behind : List UInt8} (h : interpolationRest fuel depth (bytes text) = some behind) :
    ∃ expr rest, text = expr ++ closeBrace :: rest ∧ Balanced depth expr ∧ behind = bytes rest := by
  cases fuel with
  | zero => cases h
  | succ fuel =>
    cases text with
    | nil => cases h
    | cons c text =>
      by_cases hclose : c = closeBrace
      · subst hclose
        cases depth with
        | zero =>
          cases h
          exact ⟨[], text, rfl, .done, rfl⟩
        | succ depth =>
          have hinner : interpolationRest fuel depth (bytes text) = some behind := h
          obtain ⟨expr, rest, rfl, hexpr, hbehind⟩ := balanced_of_interpolationRest hinner
          exact ⟨closeBrace :: expr, rest, rfl, .closed hexpr, hbehind⟩
      by_cases hopen : c = openBrace
      · subst hopen
        have hinner : interpolationRest fuel (depth + 1) (bytes text) = some behind := h
        obtain ⟨expr, rest, rfl, hexpr, hbehind⟩ := balanced_of_interpolationRest hinner
        exact ⟨openBrace :: expr, rest, rfl, .opened hexpr, hbehind⟩
      by_cases hquote : c = quote ∨ c = apostrophe
      · -- a quoted literal is passed at once
        obtain ⟨hascii, hback, hline, -⟩ := quotes_ascii hquote
        rw [interpolationRest_quote hquote] at h
        obtain ⟨middle, hmiddle, h⟩ := Option.bind_eq_some_iff.mp h
        obtain ⟨literal, more, rfl, hliteral, rfl⟩ :=
          quoted_of_quotedRest hascii hback hline hmiddle
        obtain ⟨expr, rest, rfl, hexpr, hbehind⟩ := balanced_of_interpolationRest h
        exact ⟨c :: (literal ++ expr), rest, by simp, .quoted hquote hliteral hexpr, hbehind⟩
      obtain ⟨hquote, hapostrophe⟩ := not_or.mp hquote
      by_cases hline : c = newline
      · subst hline
        cases h
      · rw [interpolationRest_char hopen hclose hquote hapostrophe hline] at h
        obtain ⟨expr, rest, rfl, hexpr, hbehind⟩ := balanced_of_interpolationRest h
        exact ⟨c :: expr, rest, rfl, .step hopen hclose hquote hapostrophe hline hexpr, hbehind⟩
termination_by text.length
decreasing_by all_goals grind

/-- What both scanners look for behind an opening brace. -/
theorem interpolationEnd_of_balanced (hexpr : Balanced 0 expr) (rest : List Char) :
    interpolationRest ((bytes (expr ++ closeBrace :: rest)).length + 1) 0
      (bytes (expr ++ closeBrace :: rest)) = some (bytes rest) := by
  refine interpolationRest_of_balanced hexpr rest ?_
  show size expr < size (expr ++ closeBrace :: rest) + 1
  rw [size_append]
  omega

theorem head_append_brace_ne (hopen : expr.head? ≠ some openBrace)
    (rest : List Char) : (expr ++ closeBrace :: rest).head? ≠ some openBrace := by
  cases expr with
  | nil => exact fun h => absurd (Option.some.inj h) (by decide)
  | cons c expr => exact hopen

/-- What the scanner appends to the raw template for an item. -/
def Item.raw : Item → List Char
  | interpolation _ => [openBrace, closeBrace]
  | item => item.source

def rawOf (items : List Item) : List Char := items.flatMap Item.raw

/-- The byte ranges of the interpolations, the first item standing at the
offset. -/
def positions : Nat → List Item → List (Nat × Nat)
  | _, [] => []
  | offset, .interpolation expr :: items =>
    (offset + 1, offset + 1 + size expr) :: positions (offset + 1 + size expr + 1) items
  | offset, item :: items => positions (offset + size item.source) items

/-- The byte range of an item at the offset, if it is an interpolation. -/
def Item.range? (offset : Nat) : Item → List (Nat × Nat)
  | interpolation expr => [(offset + 1, offset + 1 + size expr)]
  | escape _ | doubledOpen | doubledClose | plain _ => []

theorem positions_cons (offset : Nat) (item : Item) (items : List Item) :
    positions offset (item :: items) =
      item.range? offset ++ positions (offset + size item.source) items := by
  cases item with
  | interpolation expr =>
    have hsize : size (Item.interpolation expr).source = 1 + (size expr + 1) := by
      rw [Item.source, size_cons, size_append]
      rfl
    rw [positions, hsize, Item.range?, singleton_append,
      show offset + (1 + (size expr + 1)) = offset + 1 + size expr + 1 by omega]
  | _ => rfl

/-- A byte range as the scanner stores it. -/
def spanOf (range : Nat × Nat) : UInt32 × UInt32 := (UInt32.ofNat range.1, UInt32.ofNat range.2)

/-! ### The lexer callback -/

section

variable (total fuel : Nat) (raw : List Char) (spans : List (UInt32 × UInt32))

theorem scan_plain {c : Char} {rest : List Char} (hquote : c ≠ quote) (hline : c ≠ newline)
    (hback : c ≠ backslash) (hopen : c ≠ openBrace)
    (hclose : c = closeBrace → rest.head? ≠ some closeBrace) :
    scanFstringLoop total (fuel + 1) raw spans (c :: rest) =
      scanFstringLoop total fuel (raw ++ [c]) spans rest := by
  have hpair : ¬ (c = closeBrace ∧ rest.head? = some closeBrace) := fun h => hclose h.1 h.2
  simp only [scanFstringLoop, hquote, hline, hback, hopen, hpair, false_and, if_false]

theorem scan_brace {rest : List Char} (hopen : rest.head? ≠ some openBrace) :
    scanFstringLoop total (fuel + 1) raw spans (openBrace :: rest) =
      match scanInterpolationEnd (bytes rest) with
      | none => .ok none
      | some behind =>
        match afterBytes rest (total - behind.length - 1 + 1 -
            (total - size (openBrace :: rest) + 1)) with
        | none => .error .sliceOffBoundary
        | some rest' =>
          scanFstringLoop total fuel (raw ++ [openBrace, closeBrace])
            (spans ++ [(UInt32.ofNat (total - size (openBrace :: rest) + 1 + fstringPrefixLen),
              UInt32.ofNat (total - behind.length - 1 + fstringPrefixLen))]) rest' := by
  have hpair : ¬ (openBrace = openBrace ∧ rest.head? = some openBrace) := fun h => hopen h.2
  have hclose : ¬ (openBrace = closeBrace ∧ rest.head? = some closeBrace) :=
    fun h => absurd h.1 (by decide)
  rw [scanFstringLoop.eq_def]
  exact (if_neg (by decide)).trans ((if_neg (by decide)).trans ((if_neg (by decide)).trans
    ((if_neg hpair).trans ((if_neg hclose).trans (if_pos rfl)))))

theorem scan_interpolation (hopen : expr.head? ≠ some openBrace)
    (hexpr : Balanced 0 expr) (htotal : size (openBrace :: (expr ++ closeBrace :: rest)) ≤ total) :
    scanFstringLoop total (fuel + 1) raw spans (openBrace :: (expr ++ closeBrace :: rest)) =
      scanFstringLoop total fuel (raw ++ [openBrace, closeBrace])
        (spans ++ [spanOf (fstringPrefixLen + (total - size (openBrace :: (expr ++
            closeBrace :: rest))) + 1,
          fstringPrefixLen + (total - size (openBrace :: (expr ++ closeBrace :: rest))) + 1 +
            size expr)]) rest := by
  obtain ⟨-, -, hopenSize, hcloseSize⟩ := size_special
  have hlength : (bytes rest).length = size rest := rfl
  rw [size_cons, size_append, size_cons] at htotal
  have hslice : afterBytes (expr ++ closeBrace :: rest) (size expr + 1) = some rest := by
    have hafter := (splitBytes_size (expr ++ [closeBrace]) rest).1
    rw [size_append, append_assoc] at hafter
    exact hafter
  rw [scan_brace _ _ _ _ (head_append_brace_ne hopen rest), scanInterpolationEnd,
    interpolationEnd_of_balanced hexpr]
  simp only [size_cons, size_append, hopenSize, hcloseSize, hlength]
  rw [show total - size rest - 1 + 1 - (total - (1 + (size expr + (1 + size rest))) + 1) =
    size expr + 1 by omega, hslice]
  simp only [spanOf, fstringPrefixLen]
  rw [show total - (1 + (size expr + (1 + size rest))) + 1 + 2 =
      2 + (total - (1 + (size expr + (1 + size rest)))) + 1 by omega,
    show total - size rest - 1 + 2 =
      2 + (total - (1 + (size expr + (1 + size rest)))) + 1 + size expr by omega]

/-- One round reads an item. -/
theorem scan_item (hfits : item.Fits rest) (htotal : size (item.source ++ rest) ≤ total) :
    scanFstringLoop total (fuel + 1) raw spans (item.source ++ rest) =
      scanFstringLoop total fuel (raw ++ item.raw) (spans ++ (item.range? (fstringPrefixLen +
          (total - size (item.source ++ rest)))).map spanOf) rest := by
  cases item with
  | interpolation expr =>
    rw [Item.source_interpolation] at htotal ⊢
    exact scan_interpolation _ _ _ _ hfits.1 hfits.2 htotal
  | plain c =>
    obtain ⟨hquote, hline, hback, hopen, hclose⟩ := hfits
    rw [Item.range?, map_nil, append_nil]
    exact scan_plain _ _ _ _ hquote hline hback hopen hclose
  | _ =>
    rw [Item.range?, map_nil, append_nil]
    rfl

end

/-- The result of the scanner for items that begin at the offset. -/
def scanned (total : Nat) (behind raw : List Char) (spans : List (UInt32 × UInt32))
    (offset : Nat) (items : List Item) : Except ScanPanic (Option (FStringLiteral × Nat)) :=
  .ok (some (⟨unescapeString (raw ++ rawOf items),
    spans ++ (positions (fstringPrefixLen + offset) items).map spanOf⟩, total - size behind))

/-- What the scanner makes of a divided text. -/
theorem scanFstringLoop_of_divided
    (h : Divided behind rest items) {total fuel : Nat} (htotal : size rest ≤ total)
    (hfuel : rest.length < fuel) (raw : List Char) (spans : List (UInt32 × UInt32)) :
    scanFstringLoop total fuel raw spans rest =
      scanned total behind raw spans (total - size rest) items := by
  revert fuel raw spans
  refine h.along (motive := fun rest items => size rest ≤ total → ∀ {fuel : Nat},
    rest.length < fuel → ∀ raw spans, scanFstringLoop total fuel raw spans rest =
      scanned total behind raw spans (total - size rest) items) ?_ ?_ htotal
  · intro htotal fuel hfuel raw spans
    obtain ⟨more, rfl⟩ := Nat.exists_eq_add_of_lt hfuel
    rw [size_cons, size_special.1] at htotal
    show Except.ok (some (FStringLiteral.mk (unescapeString raw) spans,
      total - size (quote :: behind) + 1)) = _
    rw [size_cons, size_special.1, show total - (1 + size behind) + 1 = total - size behind by omega]
    simp [scanned, rawOf, positions]
  · intro item rest items hfits ih htotal fuel hfuel raw spans
    have hpos := item.length_source_pos
    rw [length_append] at hfuel
    obtain ⟨more, rfl⟩ := Nat.exists_eq_add_of_lt hfuel
    rw [scan_item _ _ _ _ hfits htotal]
    rw [size_append] at htotal ⊢
    rw [ih (by omega) (by omega), scanned, scanned, positions_cons, map_append, rawOf, rawOf,
      flatMap_cons, append_assoc, append_assoc,
      show fstringPrefixLen + (total - (size item.source + size rest)) + size item.source =
        fstringPrefixLen + (total - size rest) by omega]

/-! ### The scanner of the textual expanders -/

theorem skip_other (fuel : Nat) (b : UInt8) (rest : List UInt8)
    (h : b ≠ 34 ∧ b ≠ 10 ∧ b ≠ 92 ∧ b ≠ 123) :
    skipFstringLoop (fuel + 1) (b :: rest) = skipFstringLoop fuel rest := by
  obtain ⟨hquote, hline, hback, hopen⟩ := h
  simp only [skipFstringLoop, hquote, hline, hback, hopen, false_and, if_false]

theorem skip_steps (fuel : Nat) (rest : List UInt8)
    (h : ∀ b ∈ front, b ≠ 34 ∧ b ≠ 10 ∧ b ≠ 92 ∧ b ≠ 123) :
    skipFstringLoop fuel (front ++ rest) = skipFstringLoop (fuel - front.length) rest :=
  Fuel.over_steps (fun _ => rfl) skip_other rest h fuel

/-- The bytes behind the first of an escaped character are stepped over. -/
theorem escaped_bytes (c : Char) :
    ∀ b ∈ (String.utf8EncodeChar c).tail, b ≠ 34 ∧ b ≠ 10 ∧ b ≠ 92 ∧ b ≠ 123 := by
  intro b hb
  have hne := tail_byte_ne hb
  exact ⟨hne quote (by decide), hne newline (by decide), hne backslash (by decide),
    hne openBrace (by decide)⟩

theorem head_bytes_ne (h : rest.head? ≠ some openBrace) : (bytes rest).head? ≠ some 123 := by
  cases rest with
  | nil => simp
  | cons c rest =>
    obtain ⟨b, more, hbytes⟩ := exists_cons_of_ne_nil String.utf8EncodeChar_ne_nil
    rw [bytes_cons, hbytes]
    intro hhead
    have hb : b ∈ String.utf8EncodeChar c := by rw [hbytes]; exact mem_cons_self ..
    exact byte_ne hb openBrace (by decide) (fun hc => h (congrArg some hc)) (Option.some.inj hhead)

theorem skip_brace (fuel : Nat) (h : rest.head? ≠ some openBrace) :
    skipFstringLoop (fuel + 1) (bytes (openBrace :: rest)) =
      (skipInterpolation (bytes rest)).bind (skipFstringLoop fuel) := by
  have hpair : ¬ ((123 : UInt8) = 123 ∧ (bytes rest).head? = some 123) :=
    fun hand => head_bytes_ne h hand.2
  rw [(bytes_special _).2.1, skipFstringLoop, if_neg (by decide), if_neg (by decide),
    if_neg (by decide), if_neg hpair, if_pos rfl]
  cases skipInterpolation (bytes rest) <;> rfl

/-- Some rounds, no more than the item has bytes, read an item. -/
theorem skip_item (hfits : item.Fits rest) (fuel : Nat) : ∃ rounds ≤ size item.source,
      skipFstringLoop fuel (bytes (item.source ++ rest)) =
        skipFstringLoop (fuel - rounds) (bytes rest) := by
  obtain ⟨-, hbackSize, hopenSize, hcloseSize⟩ := size_special
  cases item with
  | plain c =>
    obtain ⟨hquote, hline, hback, hopen, -⟩ := hfits
    refine ⟨(String.utf8EncodeChar c).length, by simp [Item.source], ?_⟩
    exact skip_steps fuel _ fun b hb => ⟨byte_ne hb quote (by decide) hquote,
      byte_ne hb newline (by decide) hline, byte_ne hb backslash (by decide) hback,
      byte_ne hb openBrace (by decide) hopen⟩
  | escape c =>
    refine ⟨(String.utf8EncodeChar c).tail.length + 1, ?_, ?_⟩
    · simp [Item.source]
      omega
    · cases fuel with
      | zero => simp only [Nat.zero_sub]; rfl
      | succ fuel =>
        rw [Nat.add_sub_add_right, ← skip_steps _ _ (escaped_bytes c),
          ← tail_append_of_ne_nil String.utf8EncodeChar_ne_nil]
        rfl
  | doubledOpen =>
    refine ⟨1, by simp [Item.source, hopenSize], ?_⟩
    cases fuel <;> rfl
  | doubledClose =>
    refine ⟨2, by simp [Item.source, hcloseSize], ?_⟩
    rcases fuel with _ | _ | fuel <;> rfl
  | interpolation expr =>
    refine ⟨1, by simp [Item.source, hopenSize], ?_⟩
    rw [Item.source_interpolation]
    cases fuel with
    | zero => rfl
    | succ fuel =>
      rw [skip_brace _ (head_append_brace_ne hfits.1 rest), skipInterpolation,
        interpolationEnd_of_balanced hfits.2, Option.bind_some]
      rfl

/-- Enough rounds step over a divided text. -/
theorem skipFstringLoop_of_divided
    (h : Divided behind rest items) (hfuel : size rest < fuel) :
    skipFstringLoop fuel (bytes rest) = some (bytes behind) := by
  revert fuel
  refine h.along (motive := fun rest _ => ∀ {fuel : Nat}, size rest < fuel →
    skipFstringLoop fuel (bytes rest) = some (bytes behind)) ?_ ?_
  · intro fuel hfuel
    obtain ⟨more, rfl⟩ := Nat.exists_eq_add_of_lt hfuel
    rfl
  · intro item rest _ hfits ih fuel hfuel
    obtain ⟨rounds, hle, hskip⟩ := skip_item hfits fuel
    rw [size_append] at hfuel
    rw [hskip]
    exact ih (by omega)

/-! ### What is accepted -/

/-- How a text begins: with the closing quote, with an item, or in a way that
neither scanner accepts. -/
inductive Start : List Char → Prop where
  | done (behind : List Char) : Start (quote :: behind)
  | item (item : Item) {rest : List Char} (hfits : item.Fits rest) : Start (item.source ++ rest)
  | cut {rest : List Char} (hscan : ∀ total fuel raw spans, rest.length ≤ fuel →
        scanFstringLoop total (fuel + 1) raw spans rest = .ok none)
      (hskip : ∀ fuel, skipFstringLoop fuel (bytes rest) = none) : Start rest

theorem start_brace (hpair : rest.head? ≠ some openBrace) : Start (openBrace :: rest) := by
  cases hend : scanInterpolationEnd (bytes rest) with
  | none =>
    refine .cut (fun total fuel raw spans _ => ?_) fun fuel => ?_
    · rw [scan_brace _ _ _ _ hpair, hend]
    · cases fuel with
      | zero => rfl
      | succ fuel =>
        rw [skip_brace _ hpair, show skipInterpolation (bytes rest) = none from hend]
        rfl
  | some behind =>
    obtain ⟨expr, more, rfl, hexpr, -⟩ := balanced_of_interpolationRest hend
    have hhead : expr.head? ≠ some openBrace := by
      cases expr with
      | nil => simp
      | cons c expr => exact hpair
    rw [← Item.source_interpolation]
    exact .item (.interpolation expr) ⟨hhead, hexpr⟩

theorem start (text : List Char) : Start text := by
  cases text with
  | nil => exact .cut (fun _ _ _ _ _ => rfl) fun fuel => by cases fuel <;> rfl
  | cons c rest =>
    by_cases hquote : c = quote
    · subst hquote
      exact .done rest
    by_cases hline : c = newline
    · subst hline
      exact .cut (fun _ _ _ _ _ => rfl) fun fuel => by cases fuel <;> rfl
    by_cases hback : c = backslash
    · subst hback
      cases rest with
      | nil =>
        refine .cut (fun total fuel raw spans hfuel => ?_) fun fuel => ?_
        · obtain ⟨fuel, rfl⟩ := Nat.exists_eq_add_of_le' hfuel
          rfl
        · rcases fuel with _ | _ | fuel <;> rfl
      | cons d rest => exact .item (.escape d) trivial
    by_cases hopen : c = openBrace
    · subst hopen
      by_cases hpair : rest.head? = some openBrace
      · obtain ⟨rest, rfl⟩ := head?_eq_some_iff.mp hpair
        exact .item .doubledOpen trivial
      · exact start_brace hpair
    by_cases hpair : c = closeBrace ∧ rest.head? = some closeBrace
    · obtain ⟨rfl, hpair⟩ := hpair
      obtain ⟨rest, rfl⟩ := head?_eq_some_iff.mp hpair
      exact .item .doubledClose trivial
    · exact .item (.plain c) ⟨hquote, hline, hback, hopen, fun h₁ h₂ => hpair ⟨h₁, h₂⟩⟩

/-- A text that is not divided is rejected, and none makes the scanner slice
inside a character. -/
theorem divided_or_rejected {total fuel : Nat} (htotal : size rest ≤ total)
    (hfuel : rest.length < fuel) (raw : List Char) (spans : List (UInt32 × UInt32)) :
    (∃ behind items, Divided behind rest items) ∨
      scanFstringLoop total fuel raw spans rest = .ok none := by
  induction hlength : rest.length using Nat.strongRecOn generalizing rest fuel raw spans with
  | ind length ih =>
    obtain ⟨fuel, rfl⟩ : ∃ rounds, fuel = rounds + 1 := ⟨fuel - 1, by omega⟩
    cases start rest with
    | done behind => exact .inl ⟨behind, [], .done⟩
    | cut hscan _ => exact .inr (hscan _ _ _ _ (Nat.le_of_lt_succ hfuel))
    | @item item rest hfits =>
      rw [scan_item _ _ _ _ hfits htotal]
      have hpos := item.length_source_pos
      rw [length_append] at hlength hfuel
      rw [size_append] at htotal
      exact (ih rest.length (by omega) (by omega) (by omega) _ _ rfl).imp_left
        fun ⟨behind, items, h⟩ => ⟨behind, _, h.cons hfits⟩

/-- The expanders' scanner accepts divided texts only. -/
theorem divided_of_skipFstringLoop {rest : List Char} {fuel : Nat} {out : List UInt8}
    (h : skipFstringLoop fuel (bytes rest) = some out) :
    ∃ behind items, Divided behind rest items := by
  cases start rest with
  | done behind => exact ⟨behind, [], .done⟩
  | cut _ hskip =>
    rw [hskip] at h
    cases h
  | @item item rest hfits =>
    obtain ⟨rounds, -, hrounds⟩ := skip_item hfits fuel
    rw [hrounds] at h
    have hpos := item.length_source_pos
    obtain ⟨behind, items, hitems⟩ := divided_of_skipFstringLoop h
    exact ⟨behind, _, hitems.cons hfits⟩
termination_by rest.length
decreasing_by simp_all

end Sengoo.Parser
