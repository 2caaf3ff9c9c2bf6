import Sengoo.Parser.FStringTemplate

/-!
The two scanners of interpolated strings over every input: what the lexer
callback makes of a body, when that is what the source says, and where the
scanner of the textual expanders ends in comparison.
-/

namespace Sengoo.Parser

open List Utf8

/-! ### Spans -/

theorem spanOf_toNat_iff (range : Nat × Nat) (hrange : range.1 ≤ range.2) :
    ((spanOf range).1.toNat, (spanOf range).2.toNat) = range ↔ range.2 < 2 ^ 32 := by
  obtain ⟨lo, hi⟩ := range
  simp only [spanOf, UInt32.toNat_ofNat', Prod.mk.injEq]
  constructor
  · intro h
    omega
  · intro h
    omega

theorem positions_le {offset : Nat} {items : List Item} :
    ∀ range ∈ positions offset items, range.1 ≤ range.2 := by
  fun_induction positions offset items with
  | case1 => intro range hrange; cases hrange
  | case2 offset expr items ih =>
    exact forall_mem_cons.mpr ⟨Nat.le_add_right _ _, ih⟩
  | case3 offset item items hitem ih => exact ih

theorem spans_iff {ranges : List (Nat × Nat)} (hranges : ∀ range ∈ ranges, range.1 ≤ range.2) :
    (ranges.map spanOf).map (fun span => (span.1.toNat, span.2.toNat)) = ranges ↔
      ∀ range ∈ ranges, range.2 < 2 ^ 32 := by
  induction ranges with
  | nil => simp
  | cons range ranges ih =>
    have hhead := spanOf_toNat_iff range (hranges range (mem_cons_self ..))
    have htail := ih (forall_mem_cons.mp hranges).2
    simp only [map_cons, List.cons.injEq, hhead, htail, forall_mem_cons]

/-- Every range is that of the text of its interpolation. -/
theorem slices_of_positions (front : List Char) (items : List Item) (behind : List Char) :
    (positions (size front) items).map
        (fun range => slice (front ++ (sourceOf items ++ behind)) range.1 range.2) =
      (exprsOf items).map some := by
  induction items generalizing front with
  | nil => rfl
  | cons item items ih =>
    have hnext := ih (front ++ item.source)
    have hsource : front ++ item.source ++ (sourceOf items ++ behind) =
        front ++ (sourceOf (item :: items) ++ behind) := by
      simp [sourceOf]
    rw [size_append, hsource] at hnext
    cases item with
    | interpolation expr =>
      have hopen : size [openBrace] = 1 := rfl
      have hwhole : front ++ (sourceOf (.interpolation expr :: items) ++ behind) =
          (front ++ [openBrace]) ++ (expr ++ (closeBrace :: (sourceOf items ++ behind))) := by
        simp [sourceOf, Item.source]
      have hslice := slice_middle (front ++ [openBrace]) expr
        (closeBrace :: (sourceOf items ++ behind))
      rw [← hwhole, size_append, hopen] at hslice
      have hsize : size (Item.interpolation expr).source = 1 + size expr + 1 := by
        have hclose : size [closeBrace] = 1 := rfl
        rw [Item.source, ← singleton_append, size_append, size_append]
        omega
      rw [hsize, show size front + (1 + size expr + 1) = size front + 1 + size expr + 1 by
        omega] at hnext
      rw [positions, map_cons, hslice, hnext]
      rfl
    | _ => exact hnext

/-! ### Placeholders -/

theorem foldl_countArg_flushLiteral (literal : List Char) (counts : Nat × Nat) :
    (flushLiteral literal []).foldl countArg counts = counts := by
  unfold flushLiteral
  split <;> rfl

/-- The template of the runs has a placeholder between each two of them. -/
theorem countArg_segmentsOf {runs : List (List Char)} (hne : runs ≠ []) (counts : Nat × Nat) :
    (segmentsOf runs).foldl countArg counts = (counts.1 + (runs.length - 1), counts.2) := by
  fun_induction segmentsOf runs generalizing counts with
  | case1 => exact absurd rfl hne
  | case2 run => exact foldl_countArg_flushLiteral _ counts
  | case3 run runs hruns ih =>
    have hpos := length_pos_of_ne_nil hruns
    rw [foldl_append, foldl_countArg_flushLiteral, foldl_cons, ih hruns]
    simp only [countArg, displayPlaceholder, length_cons, Prod.mk.injEq, and_true]
    omega

theorem length_literalRuns (front : List Char) (offset : Nat) (items : List Item) :
    (literalRuns front items).length = (positions offset items).length + 1 := by
  induction items generalizing front offset with
  | nil => rfl
  | cons item items ih =>
    cases item with
    | interpolation expr => exact congrArg (· + 1) (ih [] _)
    | _ => exact ih _ _

/-! ### The literals of the lexer -/

/-- What the callback hands on for a divided body. -/
theorem scanFstringBody_of_divided {behind remainder : List Char} {items : List Item}
    (h : Divided behind remainder items) :
    scanFstringBody remainder = .ok (some (⟨unescapeString (rawOf items),
      (positions fstringPrefixLen items).map spanOf⟩, size (sourceOf items) + 1)) := by
  have hsize : size remainder = size (sourceOf items) + (1 + size behind) := by
    rw [h.eq_source, size_append, size_cons, size_special.1]
  have hend : size remainder - size behind = size (sourceOf items) + 1 := by omega
  rw [scanFstringBody, scanFstringLoop_of_divided h (Nat.le_refl _) (Nat.lt_succ_self _),
    scanned, Nat.sub_self, hend]
  rfl

theorem faithful_iff (items : List Item) :
    Faithful items ⟨unescapeString (rawOf items), (positions fstringPrefixLen items).map spanOf⟩ ↔
      CleanRuns (literalRuns [] items) ∧
        ∀ range ∈ positions fstringPrefixLen items, range.2 < 2 ^ 32 := by
  have hcount : ((segmentsOf (literalRuns [] items)).foldl countArg (0, 0)).1 =
      ((positions fstringPrefixLen items).map spanOf).length := by
    rw [countArg_segmentsOf (literalRuns_ne_nil [] items),
      length_literalRuns [] fstringPrefixLen items, length_map]
    simp
  constructor
  · intro h
    exact ⟨(parseFormatTemplate_iff items).mp h.segments, (spans_iff positions_le).mp h.spans⟩
  · rintro ⟨hclean, hranges⟩
    exact ⟨(parseFormatTemplate_iff items).mpr hclean, hcount, (spans_iff positions_le).mpr hranges⟩

/-! ### The scanner of the expanders -/

/-- The byte before the literal belongs to an identifier. -/
def behindIdent (front : List Char) : Bool := (bytes front).getLast?.any isIdentByte

variable (front remainder : List Char)

theorem skipFstringLiteral_at :
    skipFstringLiteral (bytes (front ++ 'f' :: quote :: remainder)) (size front) =
      if behindIdent front then none
      else (skipFstringLoop (size remainder + 1) (bytes remainder)).map
        fun behind => size front + 2 + size remainder - behind.length := by
  have hsource : bytes (front ++ 'f' :: quote :: remainder) =
      bytes front ++ 102 :: 34 :: bytes remainder := by
    rw [bytes_append]
    rfl
  have hfirst : (bytes front ++ 102 :: 34 :: bytes remainder)[size front]? = some 102 := by
    simp [size]
  have hsecond : (bytes front ++ 102 :: 34 :: bytes remainder)[size front + 1]? = some 34 := by
    simp [size]
  have hdrop : (bytes front ++ 102 :: 34 :: bytes remainder).drop (size front + 2) =
      bytes remainder := by
    simp [size]
  have hlength : (bytes front ++ 102 :: 34 :: bytes remainder).length =
      size front + 2 + size remainder := by
    simp only [size, length_append, length_cons]
    omega
  have hbefore : (0 < size front ∧
      ((bytes front ++ 102 :: 34 :: bytes remainder)[size front - 1]?).any isIdentByte = true) ↔
        behindIdent front = true := by
    rw [behindIdent, getLast?_eq_getElem?]
    cases hfront : bytes front with
    | nil => simp [size, hfront]
    | cons b more =>
      have hlast : more.length < (b :: more).length := Nat.lt_succ_self _
      have hindex : size front - 1 = more.length := by simp [size, hfront]
      rw [hindex, getElem?_append_left hlast]
      simp [size, hfront]
  rw [skipFstringLiteral, hsource, if_pos ⟨hfirst, hsecond⟩, hdrop, hlength]
  simp only [hbefore]
  rfl

/-- Where the two scanners end, from the same opening quote on. -/
theorem skip_iff {result : Option (FStringLiteral × Nat)}
    (h : scanFstringBody remainder = .ok result) :
    skipFstringLiteral (bytes (front ++ 'f' :: quote :: remainder)) (size front) =
        result.map (fun scan => size front + fstringPrefixLen + scan.2) ↔
      behindIdent front = false ∨ result = none := by
  rw [skipFstringLiteral_at]
  rcases divided_or_rejected (Nat.le_refl (size remainder))
    (Nat.lt_succ_self remainder.length) [] [] with hdivided | hrejected
  · obtain ⟨behind, items, hitems⟩ := hdivided
    rw [scanFstringBody_of_divided hitems] at h
    cases h
    rw [skipFstringLoop_of_divided hitems (Nat.lt_succ_self _)]
    have hsize : size remainder = size (sourceOf items) + (1 + size behind) := by
      rw [hitems.eq_source, size_append, size_cons, size_special.1]
    have hend : size front + 2 + size remainder - (bytes behind).length =
        size front + fstringPrefixLen + (size (sourceOf items) + 1) := by
      show _ - size behind = size front + 2 + _
      omega
    cases hident : behindIdent front with
    | true => simp
    | false => simp [hend]
  · rw [scanFstringBody, hrejected] at h
    cases h
    cases hloop : skipFstringLoop (size remainder + 1) (bytes remainder) with
    | none => simp
    | some out =>
      obtain ⟨behind, items, hitems⟩ := divided_of_skipFstringLoop hloop
      have hscan := scanFstringBody_of_divided hitems
      rw [scanFstringBody, hrejected] at hscan
      cases hscan

/-! ### Both scanners over every input -/

/-- From any opening quote on: the callback accepts exactly the bodies that
divide into items, and never fails to answer. What it hands on is faithful
exactly when the literal texts are clean and the ranges fit their type; every
range cuts out its interpolation. The expanders' scanner ends at the same byte
unless the `f` stands right behind an identifier character. -/
theorem fstring_scanners_agree_iff :
    ∃ result, scanFstringBody remainder = .ok result ∧
      (result.isSome = true ↔ ∃ behind items, Divided behind remainder items) ∧
      (∀ behind items, Divided behind remainder items →
        ∃ literal, result = some (literal, size (sourceOf items) + 1) ∧
          (Faithful items literal ↔ CleanRuns (literalRuns [] items) ∧
            ∀ range ∈ positions fstringPrefixLen items, range.2 < 2 ^ 32) ∧
          (positions fstringPrefixLen items).map
              (fun range => slice ('f' :: quote :: remainder) range.1 range.2) =
            (exprsOf items).map some) ∧
      (skipFstringLiteral (bytes (front ++ 'f' :: quote :: remainder)) (size front) =
          result.map (fun scan => size front + fstringPrefixLen + scan.2) ↔
        behindIdent front = false ∨ result = none) := by
  have hdivided : ∀ behind items, Divided behind remainder items →
      ∃ literal, scanFstringBody remainder = .ok (some (literal, size (sourceOf items) + 1)) ∧
        (Faithful items literal ↔ CleanRuns (literalRuns [] items) ∧
          ∀ range ∈ positions fstringPrefixLen items, range.2 < 2 ^ 32) ∧
        (positions fstringPrefixLen items).map
            (fun range => slice ('f' :: quote :: remainder) range.1 range.2) =
          (exprsOf items).map some := by
    intro behind items hitems
    refine ⟨_, scanFstringBody_of_divided hitems, faithful_iff items, ?_⟩
    have hslices := slices_of_positions ['f', quote] items (quote :: behind)
    rw [← hitems.eq_source] at hslices
    exact hslices
  rcases divided_or_rejected (Nat.le_refl (size remainder))
    (Nat.lt_succ_self remainder.length) [] [] with ⟨behind, items, hitems⟩ | hrejected
  · obtain ⟨literal, hscan, -, -⟩ := hdivided behind items hitems
    refine ⟨_, hscan, ⟨fun _ => ⟨behind, items, hitems⟩, fun _ => rfl⟩, ?_,
      skip_iff front remainder hscan⟩
    intro behind' items' hitems'
    obtain ⟨literal', hscan', hrest⟩ := hdivided behind' items' hitems'
    rw [hscan] at hscan'
    exact ⟨literal', Except.ok.inj hscan', hrest⟩
  · have hnone (behind : List Char) (items : List Item) : ¬ Divided behind remainder items := by
      intro hitems
      obtain ⟨literal, hscan, -, -⟩ := hdivided behind items hitems
      rw [scanFstringBody, hrejected] at hscan
      cases hscan
    refine ⟨none, hrejected, ⟨fun h => (nomatch h), fun ⟨behind, items, hitems⟩ =>
      absurd hitems (hnone behind items)⟩, fun behind items hitems =>
        absurd hitems (hnone behind items), skip_iff front remainder hrejected⟩

/-- The literal `f"a{x}"` behind a blank: one interpolation, at bytes 4 and 5. -/
theorem fstring_scanners_agree_interpolation :
    ∃ literal, scanFstringBody ['a', openBrace, 'x', closeBrace, quote] = .ok (some (literal, 5)) ∧
      Faithful [.plain 'a', .interpolation ['x']] literal ∧
      skipFstringLiteral (bytes [' ', 'f', quote, 'a', openBrace, 'x', closeBrace, quote]) 1 =
        some 8 := by
  have hitems : Divided [] ['a', openBrace, 'x', closeBrace, quote]
      [.plain 'a', .interpolation ['x']] := by
    have hx : Balanced 0 ['x'] := by
      apply Balanced.step
      all_goals first | decide | exact .done
    apply Divided.plain
    all_goals first | decide | exact .interpolation (by decide) hx .done
  obtain ⟨result, hscan, -, hdivided, hskip⟩ :=
    fstring_scanners_agree_iff [' '] ['a', openBrace, 'x', closeBrace, quote]
  obtain ⟨literal, rfl, hfaithful, -⟩ := hdivided _ _ hitems
  exact ⟨literal, hscan, hfaithful.mpr ⟨⟨⟨rfl, rfl⟩, rfl⟩, by decide⟩, hskip.mpr (.inl rfl)⟩

/-- A code point escape is read as an interpolation and then swallows its
placeholder; braces written in hexadecimal become a placeholder nobody fills;
and behind a number the lexer finds a literal where the expanders see none. -/
theorem fstring_scanners_disagree :
    scanFstringBody [backslash, 'u', openBrace, '4', '1', closeBrace, quote] =
        .ok (some (⟨[], [(5, 7)]⟩, 7)) ∧
      parseFormatTemplate [] = .ok [] ∧
      scanFstringBody [backslash, 'x', '7', 'b', backslash, 'x', '7', 'd', quote] =
        .ok (some (⟨[openBrace, closeBrace], []⟩, 9)) ∧
      parseFormatTemplate [openBrace, closeBrace] = .ok [.placeholder displayPlaceholder] ∧
      scanFstringBody ['a', quote] = .ok (some (⟨['a'], []⟩, 2)) ∧
      skipFstringLiteral (bytes ['1', '.', '5', 'f', quote, 'a', quote]) 3 = none := by
  refine ⟨?_, ?_, ?_, ?_, ?_, ?_⟩ <;> rfl

end Sengoo.Parser
