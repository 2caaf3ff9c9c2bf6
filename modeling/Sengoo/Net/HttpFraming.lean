import Sengoo.Net.HttpRequest
import Sengoo.Utf8

/-!
Requests as clients write them, and how the server reads their heads and their
chunks. A request has its fields with the blanks around their values, and a chunked
body has its sizes in any spelling, with extensions and trailer fields, so that
every byte of it is in the model.
-/

namespace Sengoo.Net.Http

open List

section Requests

def toUtf8 (text : List Char) : List UInt8 := text.flatMap String.utf8EncodeChar

def isTokenChar (c : Char) : Bool :=
  c.isAlphanum || "!#$%&'*+-.^_`|~".toList.contains c

def isBlank (c : Char) : Bool := c == ' ' || c == '\t'

/-- What a field value may have in it: no control characters but the tab. -/
def isTextChar (c : Char) : Bool := c == '\t' || (32 ≤ c.toNat && c.toNat != 127)

def isVisibleChar (c : Char) : Bool := 32 < c.toNat && c.toNat < 127

/-- A text of digits that stands for a number. -/
def Numeral (radix : Nat) (text : List Char) (value : Nat) : Prop :=
  text ≠ [] ∧ ∃ digits, text.mapM (digitValue radix) = some digits ∧
    digits.foldl (fun n digit => n * radix + digit) 0 = value

structure Field where
  name : List Char
  before : List Char
  value : List Char
  after : List Char
  deriving DecidableEq

structure Field.WellFormed (field : Field) : Prop where
  name_ne : field.name ≠ []
  name : ∀ c ∈ field.name, isTokenChar c = true
  before : ∀ c ∈ field.before, isBlank c = true
  value : ∀ c ∈ field.value, isTextChar c = true
  after : ∀ c ∈ field.after, isBlank c = true
  first : ∀ c, field.value.head? = some c → isWhitespace c = false
  last : ∀ c, field.value.getLast? = some c → isWhitespace c = false

def Field.line (field : Field) : List Char :=
  field.name ++ ':' :: (field.before ++ field.value ++ field.after)

/-- The size of a chunk as it is written, with its extensions. -/
structure SizeLine where
  digits : List Char
  extension : List Char
  deriving DecidableEq

structure SizeLine.WellFormed (line : SizeLine) (size : Nat) : Prop where
  digits : Numeral 16 line.digits size
  extension : line.extension = [] ∨ ∃ blanks text, line.extension = blanks ++ ';' :: text ∧
    (∀ c ∈ blanks, isBlank c = true) ∧ ∀ c ∈ text, isTextChar c = true

def SizeLine.text (line : SizeLine) : List Char := line.digits ++ line.extension

structure Chunk where
  size : SizeLine
  data : List UInt8
  deriving DecidableEq

structure Chunk.WellFormed (chunk : Chunk) : Prop where
  size : chunk.size.WellFormed chunk.data.length
  data : chunk.data ≠ []

def Chunk.encode (chunk : Chunk) : List UInt8 :=
  toUtf8 chunk.size.text ++ crlf ++ chunk.data ++ crlf

inductive Body where
  | plain (bytes : List UInt8)
  | chunked (chunks : List Chunk) (last : SizeLine) (trailers : List Field)
  deriving DecidableEq

def Body.bytes : Body → List UInt8
  | .plain bytes => bytes
  | .chunked chunks _ _ => chunks.flatMap Chunk.data

def Body.encode : Body → List UInt8
  | .plain bytes => bytes
  | .chunked chunks last trailers =>
    chunks.flatMap Chunk.encode ++ (toUtf8 last.text ++ crlf ++
      (trailers.flatMap (fun field => toUtf8 field.line ++ crlf) ++ crlf))

structure Request where
  method : List Char
  path : List Char
  fields : List Field
  body : Body
  deriving DecidableEq

def httpVersion : List Char := "HTTP/1.1".toList

def Request.line (request : Request) : List Char :=
  request.method ++ ' ' :: (request.path ++ ' ' :: httpVersion)

def Request.headText (request : Request) : List Char :=
  request.line ++ request.fields.flatMap fun field => '\r' :: '\n' :: field.line

def Request.head (request : Request) : List UInt8 := toUtf8 request.headText

def Request.encode (request : Request) : List UInt8 :=
  request.head ++ (headEnd ++ request.body.encode)

/-- The fields as the server keeps them: the last one of a name counts. -/
def Request.headers (request : Request) : Table (List Char) (List Char) :=
  request.fields.foldl (fun headers field =>
    headers.insert (toAsciiLowercase field.name) field.value) ∅

/-- The request as the server returns it. -/
def Request.received (request : Request) : HttpServerRequest :=
  ⟨toAsciiUppercase request.method, request.path, httpVersion, request.headers, request.body.bytes⟩

/-- The fields announce the body as it is sent. -/
def Request.Announces (request : Request) : Prop :=
  let length := request.headers.lookup "content-length".toList
  let coding := request.headers.lookup "transfer-encoding".toList
  match request.body with
  | .plain bytes => coding = none ∧
      (length = none ∧ bytes = [] ∨ ∃ text, length = some text ∧ Numeral 10 text bytes.length)
  | .chunked chunks last trailers => length = none ∧
      (∃ text, coding = some text ∧ "chunked".toList <:+ toAsciiLowercase text) ∧
      (∀ chunk ∈ chunks, chunk.WellFormed) ∧ last.WellFormed 0 ∧
      ∀ field ∈ trailers, field.WellFormed

structure Request.WellFormed (request : Request) : Prop where
  method_ne : request.method ≠ []
  method : ∀ c ∈ request.method, isTokenChar c = true
  path_slash : request.path.head? = some '/'
  path : ∀ c ∈ request.path, isVisibleChar c = true
  fields : ∀ field ∈ request.fields, field.WellFormed
  announces : request.Announces

/-- The limits the server puts on the head, on the body and on its encoding. -/
structure Request.Within (request : Request) (limits : Limits) : Prop where
  head : request.head.length ≤ limits.maxHeaderBytes
  body : request.body.bytes.length ≤ limits.maxBodyBytes
  encoded : request.body.encode.length ≤ limits.maxBodyBytes + 4096

end Requests

section Characters

variable {c : Char}

/-- The kinds of characters exclude the one that begins a line end. -/
theorem ne_cr {kind : Char → Bool} (hcr : kind '\r' = false) (h : kind c = true) : c ≠ '\r' := by
  rintro rfl
  cases hcr.symm.trans h

theorem isBlank_whitespace (h : isBlank c = true) : isWhitespace c = true := by
  obtain rfl | rfl : c = ' ' ∨ c = '\t' := by simpa [isBlank] using h
  · rfl
  · rfl

theorem isVisibleChar_not_whitespace (h : isVisibleChar c = true) : isWhitespace c = false := by
  simp only [isVisibleChar, Bool.and_eq_true, decide_eq_true_eq] at h
  simp only [isWhitespace, Bool.or_eq_false_iff, Bool.and_eq_false_iff, decide_eq_false_iff_not,
    beq_eq_false_iff_ne, ne_eq]
  omega

theorem isAlphanum_iff : c.isAlphanum = true ↔
    (('A' ≤ c ∧ c ≤ 'Z') ∨ 'a' ≤ c ∧ c ≤ 'z') ∨ c.isDigit = true := by
  change (decide ('A' ≤ c ∧ c ≤ 'Z') || decide ('a' ≤ c) && decide (c ≤ 'z') || c.isDigit) = true ↔ _
  simp only [Bool.or_eq_true, Bool.and_eq_true, decide_eq_true_eq]

theorem isAlphanum_visible (h : c.isAlphanum = true) : isVisibleChar c = true ∧ c ≠ ':' := by
  rw [isAlphanum_iff, Char.isDigit_iff_toNat] at h
  change ((65 ≤ c.toNat ∧ c.toNat ≤ 90) ∨ 97 ≤ c.toNat ∧ c.toNat ≤ 122) ∨
    48 ≤ c.toNat ∧ c.toNat ≤ 57 at h
  have hcolon : c = ':' → c.toNat = 58 := by
    rintro rfl
    rfl
  simp only [isVisibleChar, Bool.and_eq_true, decide_eq_true_eq]
  refine ⟨by omega, fun heq => ?_⟩
  have := hcolon heq
  omega

theorem isTokenChar_visible (h : isTokenChar c = true) : isVisibleChar c = true ∧ c ≠ ':' := by
  rw [isTokenChar, Bool.or_eq_true] at h
  rcases h with halphanum | hmem
  · exact isAlphanum_visible halphanum
  · have hall : "!#$%&'*+-.^_`|~".toList.all (fun d => isVisibleChar d && d != ':') = true := by
      decide
    simpa using all_eq_true.mp hall c (contains_iff_mem.mp hmem)

theorem notMem_toUtf8 {text : List Char} (h : ∀ c ∈ text, c ≠ '\r') :
    (13 : UInt8) ∉ toUtf8 text := by
  intro hmem
  obtain ⟨c, hc, hbyte⟩ := mem_flatMap.mp hmem
  exact Utf8.notMem_encode '\r' (by decide) (h c hc) hbyte

theorem fromUtf8_toUtf8 (text : List Char) : fromUtf8 (toUtf8 text) = some text := by
  have h := utf8Decode?_utf8Encode (l := text)
  unfold List.utf8Encode at h
  unfold fromUtf8 toUtf8
  rw [h]
  rfl

theorem toUtf8_append (first second : List Char) :
    toUtf8 (first ++ second) = toUtf8 first ++ toUtf8 second :=
  flatMap_append

theorem toUtf8_ne_nil {text : List Char} (h : text ≠ []) : toUtf8 text ≠ [] := by
  cases text with
  | nil => exact absurd rfl h
  | cons c text =>
    intro heq
    exact String.utf8EncodeChar_ne_nil (append_eq_nil_iff.mp heq).1

end Characters

section Texts

theorem dropWhile_of_head {p : Char → Bool} {text : List Char}
    (h : ∀ c, text.head? = some c → p c = false) : text.dropWhile p = text := by
  cases text with
  | nil => rfl
  | cons c text => exact dropWhile_cons_of_neg (by rw [h c rfl]; nofun)

/-- White space around a text that neither begins nor ends with it is cut off. -/
theorem trim_padded {before text after : List Char} (hbefore : ∀ c ∈ before, isWhitespace c = true)
    (hafter : ∀ c ∈ after, isWhitespace c = true)
    (hfirst : ∀ c, text.head? = some c → isWhitespace c = false)
    (hlast : ∀ c, text.getLast? = some c → isWhitespace c = false) :
    trim (before ++ text ++ after) = text := by
  unfold trim
  rw [append_assoc, dropWhile_append_of_pos hbefore]
  cases text with
  | nil =>
    rw [nil_append, ← append_nil after, dropWhile_append_of_pos hafter]
    rfl
  | cons c text =>
    rw [cons_append, dropWhile_cons_of_neg (by rw [hfirst c rfl]; nofun),
      ← cons_append, reverse_append,
      dropWhile_append_of_pos (fun d hd => hafter d (mem_reverse.mp hd)),
      dropWhile_of_head, reverse_reverse]
    intro d hd
    exact hlast d (by rwa [head?_reverse] at hd)

theorem trim_of_not_whitespace {text : List Char} (h : ∀ c ∈ text, isWhitespace c = false) :
    trim text = text := by
  have hpadded : trim ([] ++ text ++ []) = text := trim_padded nofun nofun
    (fun c hc => h c (mem_of_mem_head? hc)) (fun c hc => h c (mem_of_getLast? hc))
  simpa using hpadded

theorem splitOnce_append {separator : Char} {first second : List Char} (h : separator ∉ first) :
    splitOnce separator (first ++ separator :: second) = some (first, second) := by
  induction first with
  | nil => exact if_pos rfl
  | cons c first ih =>
    rw [mem_cons, not_or] at h
    rw [cons_append, splitOnce, if_neg (Ne.symm h.1), ih h.2]
    rfl

theorem splitLines_append {line rest : List Char} (h : ∀ c ∈ line, c ≠ '\r') :
    ∀ part, splitLines (line ++ rest) part = splitLines rest (line.reverse ++ part) := by
  induction line with
  | nil => exact fun _ => rfl
  | cons c line ih =>
    intro part
    have hc := h c mem_cons_self
    have hstep : ∀ text, splitLines (c :: text) part = splitLines text (c :: part) := by
      intro text
      cases text with
      | nil => rfl
      | cons d text =>
        rw [splitLines, if_neg fun hcr => hc hcr.1]
    rw [cons_append, hstep, ih (forall_mem_cons.mp h).2,
      reverse_cons, append_assoc]
    rfl

/-- Lines without line ends, put behind each other with line ends between. -/
theorem splitLines_lines {line : List Char} (hline : ∀ c ∈ line, c ≠ '\r')
    (lines : List (List Char))
    (hlines : ∀ line ∈ lines, ∀ c ∈ line, c ≠ '\r') :
    splitLines (line ++ lines.flatMap fun line => '\r' :: '\n' :: line) [] = line :: lines := by
  induction lines generalizing line with
  | nil =>
    rw [splitLines_append hline, flatMap_nil, splitLines, append_nil,
      reverse_reverse]
  | cons next lines ih =>
    rw [splitLines_append hline, flatMap_cons, cons_append, cons_append,
      splitLines, if_pos ⟨rfl, rfl⟩, append_nil, reverse_reverse,
      ih (hlines next mem_cons_self) fun other hother =>
        hlines other (mem_cons_of_mem _ hother)]

end Texts

section Numbers

variable {radix value : Nat} {text : List Char}

theorem foldl_digits_ge (hradix : 0 < radix) (digits : List Nat) (value : Nat) :
    value ≤ digits.foldl (fun n digit => n * radix + digit) value := by
  induction digits generalizing value with
  | nil => exact Nat.le_refl _
  | cons digit digits ih =>
    have hstep : value ≤ value * radix + digit :=
      Nat.le_add_right_of_le (Nat.le_mul_of_pos_right value hradix)
    exact Nat.le_trans hstep (ih _)

theorem parseDigits_eq (hradix : 0 < radix) {digits : List Nat}
    (hdigits : text.mapM (digitValue radix) = some digits) :
    ∀ value, digits.foldl (fun n digit => n * radix + digit) value < 2 ^ 64 →
      parseDigits radix value text =
        some (digits.foldl (fun n digit => n * radix + digit) value) := by
  induction text generalizing digits with
  | nil =>
    intro value _
    cases hdigits
    rfl
  | cons c text ih =>
    intro value hlt
    rw [mapM_cons] at hdigits
    obtain ⟨digit, hdigit, hrest⟩ := Option.bind_eq_some_iff.mp hdigits
    obtain ⟨rest, hmap, hpure⟩ := Option.bind_eq_some_iff.mp hrest
    cases hpure
    have hstep : value * radix + digit < 2 ^ 64 :=
      Nat.lt_of_le_of_lt (foldl_digits_ge hradix rest _) hlt
    simp only [parseDigits, hdigit, Option.bind_eq_bind, Option.bind_some, if_pos hstep]
    exact ih hmap _ hlt

theorem digitValue_visible {c : Char} {digit : Nat} (h : digitValue radix c = some digit) :
    isVisibleChar c = true ∧ c ≠ '+' ∧ c ≠ ';' := by
  have halphanum : c.isAlphanum = true := by
    unfold digitValue at h
    rw [isAlphanum_iff]
    by_cases hdigit : c.isDigit = true
    · exact .inr hdigit
    · rw [if_neg hdigit] at h
      by_cases hlower : 'a' ≤ c ∧ c ≤ 'z'
      · exact .inl (.inr hlower)
      · rw [if_neg hlower] at h
        by_cases hupper : 'A' ≤ c ∧ c ≤ 'Z'
        · exact .inl (.inl hupper)
        · rw [if_neg hupper] at h
          cases h
  refine ⟨(isAlphanum_visible halphanum).1, ?_, ?_⟩
  · rintro rfl
    exact absurd halphanum (by decide)
  · rintro rfl
    exact absurd halphanum (by decide)

/-- A numeral has digits only, and is read as its value when that fits. -/
theorem Numeral.visible (h : Numeral radix text value) {c : Char} (hc : c ∈ text) :
    isVisibleChar c = true ∧ c ≠ '+' ∧ c ≠ ';' := by
  obtain ⟨-, digits, hdigits, -⟩ := h
  induction text generalizing digits with
  | nil => cases hc
  | cons d text ih =>
    rw [mapM_cons] at hdigits
    obtain ⟨digit, hdigit, hrest⟩ := Option.bind_eq_some_iff.mp hdigits
    obtain ⟨rest, hmap, -⟩ := Option.bind_eq_some_iff.mp hrest
    rcases mem_cons.mp hc with rfl | hmem
    · exact digitValue_visible hdigit
    · exact ih hmem rest hmap

theorem Numeral.fromStrRadix (h : Numeral radix text value) (hradix : 0 < radix)
    (hlt : value < 2 ^ 64) : fromStrRadix radix text = some value := by
  have hsign : ∀ c ∈ text, c ≠ '+' := fun c hc => (h.visible hc).2.1
  obtain ⟨hne, digits, hdigits, rfl⟩ := h
  have hparse := parseDigits_eq hradix hdigits 0 hlt
  unfold Http.fromStrRadix
  split
  · exact absurd rfl hne
  · exact absurd rfl (hsign '+' mem_cons_self)
  · exact absurd rfl (hsign '+' mem_cons_self)
  · exact hparse

theorem Numeral.trim (h : Numeral radix text value) : trim text = text :=
  trim_of_not_whitespace fun _ hc => isVisibleChar_not_whitespace (h.visible hc).1

end Numbers

section Heads

theorem Field.WellFormed.line_ne {field : Field} (h : field.WellFormed) :
    ∀ c ∈ field.line, c ≠ '\r' := by
  intro c hc
  simp only [Field.line, mem_append, mem_cons] at hc
  rcases hc with hname | rfl | (hbefore | hvalue) | hafter
  · exact ne_cr rfl (isTokenChar_visible (h.name c hname)).1
  · decide
  · exact ne_cr rfl (h.before c hbefore)
  · exact ne_cr rfl (h.value c hvalue)
  · exact ne_cr rfl (h.after c hafter)

theorem Field.line_ne_nil (field : Field) : field.line ≠ [] := by
  unfold Field.line
  simp

theorem parseHeaderLines_fields (fields : List Field) (h : ∀ field ∈ fields, field.WellFormed) :
    ∀ headers, parseHeaderLines (fields.map Field.line) headers =
      .ok (fields.foldl (fun headers field =>
        headers.insert (toAsciiLowercase field.name) field.value) headers) := by
  induction fields with
  | nil => exact fun _ => rfl
  | cons field fields ih =>
    intro headers
    have hfield := h field mem_cons_self
    have hcolon : ':' ∉ field.name := fun hmem => (isTokenChar_visible (hfield.name _ hmem)).2 rfl
    have hname : trim field.name = field.name := trim_of_not_whitespace fun c hc =>
      isVisibleChar_not_whitespace (isTokenChar_visible (hfield.name c hc)).1
    have hvalue : trim (field.before ++ field.value ++ field.after) = field.value :=
      trim_padded (fun c hc => isBlank_whitespace (hfield.before c hc))
        (fun c hc => isBlank_whitespace (hfield.after c hc)) hfield.first hfield.last
    rw [map_cons, parseHeaderLines, if_neg field.line_ne_nil, Field.line,
      splitOnce_append hcolon]
    dsimp only
    rw [hname, hvalue]
    exact ih (forall_mem_cons.mp h).2 _

theorem splitLines_fields {line : List Char} {fields : List Field} (hline : ∀ c ∈ line, c ≠ '\r')
    (hfields : ∀ field ∈ fields, field.WellFormed) :
    splitLines (line ++ fields.flatMap fun field => '\r' :: '\n' :: field.line) [] =
      line :: fields.map Field.line := by
  have hsplit := splitLines_lines hline (fields.map Field.line) (by
    intro line hline
    obtain ⟨field, hfield, rfl⟩ := mem_map.mp hline
    exact (hfields field hfield).line_ne)
  rw [flatMap_map] at hsplit
  exact hsplit

/-- Three words with a blank between them. -/
theorem splitWhitespace_words {first second third : List Char} (hfirst : first ≠ [])
    (hsecond : second ≠ []) (hthird : third ≠ []) (h₁ : ∀ c ∈ first, isWhitespace c = false)
    (h₂ : ∀ c ∈ second, isWhitespace c = false) (h₃ : ∀ c ∈ third, isWhitespace c = false) :
    splitWhitespace (first ++ ' ' :: (second ++ ' ' :: third)) = [first, second, third] := by
  unfold splitWhitespace
  rw [splitOnP_append_cons_of_forall_mem h₁ ' ' rfl,
    splitOnP_append_cons_of_forall_mem h₂ ' ' rfl, splitOnP_eq_singleton h₃]
  simp [hfirst, hsecond, hthird]

variable {request : Request}

theorem Request.WellFormed.line_ne (h : request.WellFormed) : ∀ c ∈ request.line, c ≠ '\r' := by
  intro c hc
  simp only [Request.line, mem_append, mem_cons] at hc
  rcases hc with hmethod | rfl | hpath | rfl | hversion
  · exact ne_cr rfl (isTokenChar_visible (h.method c hmethod)).1
  · decide
  · exact ne_cr rfl (h.path c hpath)
  · decide
  · have hall : httpVersion.all (· != '\r') = true := by decide
    simpa using all_eq_true.mp hall c hversion

theorem Request.WellFormed.parse_head (h : request.WellFormed) : parseHttpRequestHead request.head =
      .ok (toAsciiUppercase request.method, request.path, httpVersion, request.headers) := by
  have hpath : request.path ≠ [] := by
    intro heq
    have := h.path_slash
    rw [heq] at this
    cases this
  have hlines : splitLines request.headText [] = request.line :: request.fields.map Field.line :=
    splitLines_fields h.line_ne h.fields
  have hplain : httpVersion.all (!isWhitespace ·) = true := by decide
  have hwords : splitWhitespace request.line = [request.method, request.path, httpVersion] :=
    splitWhitespace_words h.method_ne hpath (by decide)
      (fun c hc => isVisibleChar_not_whitespace (isTokenChar_visible (h.method c hc)).1)
      (fun c hc => isVisibleChar_not_whitespace (h.path c hc))
      (fun c hc => by simpa using all_eq_true.mp hplain c hc)
  have hversion : ¬ (request.path.head? ≠ some '/' ∨ ¬ "HTTP/1.".toList <+: httpVersion) := by
    rw [h.path_slash]
    decide
  unfold parseHttpRequestHead Request.head
  rw [fromUtf8_toUtf8]
  dsimp only
  rw [hlines]
  dsimp only
  rw [hwords]
  dsimp only
  rw [if_neg hversion, parseHeaderLines_fields request.fields h.fields]
  rfl

/-- The head ends at the first empty line: every line of it has something in it. -/
theorem position_headEnd_lines (lines : List (List UInt8)) :
    ∀ {line : List UInt8} (rest : List UInt8), (13 : UInt8) ∉ line →
      (∀ other ∈ lines, (13 : UInt8) ∉ other ∧ other ≠ []) →
      Pattern.position headEnd
          ((line ++ lines.flatMap fun other => crlf ++ other) ++ (headEnd ++ rest)) =
        some (line ++ lines.flatMap fun other => crlf ++ other).length := by
  induction lines with
  | nil =>
    intro line rest hline _
    rw [flatMap_nil, append_nil, headEnd, Pattern.position_skip hline, ← headEnd,
      Pattern.position_of_isPrefix (by decide) (prefix_append _ _)]
    simp
  | cons next lines ih =>
    intro line rest hline hlines
    obtain ⟨hnext, hne⟩ := hlines next mem_cons_self
    obtain ⟨x, next', rfl⟩ := exists_cons_of_ne_nil hne
    have hx : x ≠ 13 := fun heq => hnext (heq ▸ mem_cons_self)
    have hrest := ih rest hnext (forall_mem_cons.mp hlines).2
    rw [flatMap_cons, append_assoc line, headEnd, Pattern.position_skip hline, ← headEnd]
    -- neither byte of the line end begins the pattern, since the next line is not empty
    generalize htext : (x :: next') ++ lines.flatMap (fun other => crlf ++ other) = text at hrest
    have hshape : ((crlf ++ (x :: next')) ++ lines.flatMap fun other => crlf ++ other) =
        13 :: 10 :: text := by
      rw [← htext]
      simp [crlf]
    rw [hshape]
    have hcr : ¬ headEnd <+: (13 : UInt8) :: 10 :: (text ++ (headEnd ++ rest)) := by
      rintro ⟨tail, htail⟩
      rw [← htext] at htail
      simp only [headEnd, cons_append, List.cons.injEq] at htail
      exact hx htail.2.2.1.symm
    have hlf : ¬ headEnd <+: (10 : UInt8) :: (text ++ (headEnd ++ rest)) := by
      rintro ⟨tail, htail⟩
      exact absurd (List.cons.inj htail).1 (by decide)
    rw [cons_append, cons_append, Pattern.position_cons_of_not hcr,
      Pattern.position_cons_of_not hlf, hrest]
    simp only [Option.map_some, length_append, length_cons, Option.some.injEq]
    omega

theorem position_headEnd_fields {line : List Char} {fields : List Field}
    (hline : ∀ c ∈ line, c ≠ '\r') (hfields : ∀ field ∈ fields, field.WellFormed)
    (rest : List UInt8) :
    let head := toUtf8 (line ++ fields.flatMap fun field => '\r' :: '\n' :: field.line)
    Pattern.position headEnd (head ++ (headEnd ++ rest)) = some head.length := by
  have hhead : toUtf8 (line ++ fields.flatMap fun field => '\r' :: '\n' :: field.line) =
      toUtf8 line ++ (fields.map fun field => toUtf8 field.line).flatMap fun line =>
        crlf ++ line := by
    rw [toUtf8_append, flatMap_map]
    congr 1
    exact flatMap_assoc
  rw [hhead]
  refine position_headEnd_lines _ rest (notMem_toUtf8 hline) ?_
  intro line hline
  obtain ⟨field, hfield, rfl⟩ := mem_map.mp hline
  exact ⟨notMem_toUtf8 (hfields field hfield).line_ne, toUtf8_ne_nil field.line_ne_nil⟩

end Heads

section Chunks

variable {line : SizeLine} {size fuel : Nat} {rest decoded : List UInt8}

theorem SizeLine.WellFormed.text_ne (h : line.WellFormed size) : ∀ c ∈ line.text, c ≠ '\r' := by
  intro c hc
  rw [SizeLine.text, mem_append] at hc
  rcases hc with hdigits | hextension
  · exact ne_cr rfl (h.digits.visible hdigits).1
  · rcases h.extension with hnil | ⟨blanks, text, heq, hblanks, htext⟩
    · rw [hnil] at hextension
      cases hextension
    · rw [heq, mem_append, mem_cons] at hextension
      rcases hextension with hblank | rfl | hmem
      · exact ne_cr rfl (hblanks c hblank)
      · decide
      · exact ne_cr rfl (htext c hmem)

/-- The digits are what is left of a size line without its extension. -/
theorem SizeLine.WellFormed.digits_eq (h : line.WellFormed size) :
    trim (line.text.takeWhile (· ≠ ';')) = line.digits := by
  have htake : ∀ c ∈ line.digits, decide (c ≠ ';') = true :=
    fun c hc => decide_eq_true (h.digits.visible hc).2.2
  rcases h.extension with hnil | ⟨blanks, text, heq, hblanks, -⟩
  · rw [SizeLine.text, hnil, takeWhile_append_of_pos htake, takeWhile_nil,
      append_nil]
    exact h.digits.trim
  · have hblank : ∀ c ∈ blanks, decide (c ≠ ';') = true := by
      intro c hc
      refine decide_eq_true ?_
      rintro rfl
      exact absurd (hblanks _ hc) (by decide)
    have hall : ∀ c ∈ line.digits ++ blanks, decide (c ≠ ';') = true := by
      intro c hc
      exact (mem_append.mp hc).elim (htake c) (hblank c)
    rw [SizeLine.text, heq, ← append_assoc, takeWhile_append_of_pos hall,
      takeWhile_cons_of_neg (by decide), append_nil]
    have hnot : ∀ c ∈ line.digits, isWhitespace c = false :=
      fun c hc => isVisibleChar_not_whitespace (h.digits.visible hc).1
    exact @trim_padded [] _ _ nofun (fun c hc => isBlank_whitespace (hblanks c hc))
      (fun c hc => hnot c (mem_of_mem_head? hc)) fun c hc => hnot c (mem_of_getLast? hc)

/-- One round of the decoder, on a body that begins with a size line. -/
theorem decodeChunks_sizeLine (h : line.WellFormed size) (hlt : size < 2 ^ 64) :
    decodeChunks (fuel + 1) (toUtf8 line.text ++ (crlf ++ rest)) decoded =
      if size = 0 then
        if crlf <+: rest ∨ rest = [] then .ok decoded else .error .httpChunkDecodeError
      else if rest.length < size then .error .httpChunkDecodeError
      else if (rest.drop size).take 2 ≠ crlf then .error .httpChunkDecodeError
      else decodeChunks fuel (rest.drop (size + 2)) (decoded ++ rest.take size) := by
  have hposition : Pattern.position crlf (toUtf8 line.text ++ (crlf ++ rest)) =
      some (toUtf8 line.text).length := by
    rw [crlf, Pattern.position_skip (notMem_toUtf8 h.text_ne), ← crlf,
      Pattern.position_of_isPrefix (by decide) (prefix_append _ _)]
    simp
  have hdrop : (toUtf8 line.text ++ (crlf ++ rest)).drop ((toUtf8 line.text).length + 2) = rest := by
    rw [drop_append, drop_of_length_le (Nat.le_add_right _ _), Nat.add_sub_cancel_left]
    rfl
  rw [decodeChunks, hposition]
  dsimp only
  rw [take_left, fromUtf8_toUtf8]
  dsimp only
  rw [h.digits_eq, h.digits.fromStrRadix (by decide) hlt, hdrop]

theorem Chunk.WellFormed.decode {chunk : Chunk} (h : chunk.WellFormed)
    (hlt : chunk.data.length < 2 ^ 64) :
    decodeChunks (fuel + 1) (chunk.encode ++ rest) decoded =
      decodeChunks fuel rest (decoded ++ chunk.data) := by
  have hne : chunk.data.length ≠ 0 := fun heq => h.data (eq_nil_of_length_eq_zero heq)
  have hshape : chunk.encode ++ rest =
      toUtf8 chunk.size.text ++ (crlf ++ (chunk.data ++ (crlf ++ rest))) := by
    simp only [Chunk.encode, append_assoc]
  have hlong : ¬ (chunk.data ++ (crlf ++ rest)).length < chunk.data.length := by
    rw [length_append]
    omega
  have hdrop : (chunk.data ++ (crlf ++ rest)).drop (chunk.data.length + 2) = rest := by
    rw [drop_append, drop_of_length_le (Nat.le_add_right _ _), Nat.add_sub_cancel_left]
    rfl
  rw [hshape, decodeChunks_sizeLine h.size hlt, if_neg hne, if_neg hlong, drop_left,
    if_neg (by simp [crlf]), hdrop, take_left]

section

variable {last : SizeLine} (hlast : last.WellFormed 0) (trailers : List Field)
  (htrailers : ∀ field ∈ trailers, field.WellFormed) (chunks : List Chunk)
include hlast trailers htrailers chunks

/-- A chunked body decodes to its data when it has no trailer fields, and does not
decode when it has. -/
theorem decodeChunks_encode :
    ∀ fuel decoded, (∀ chunk ∈ chunks, chunk.WellFormed ∧ chunk.data.length < 2 ^ 64) →
      chunks.length < fuel →
      decodeChunks fuel (Body.chunked chunks last trailers).encode decoded =
        if trailers = [] then .ok (decoded ++ chunks.flatMap Chunk.data)
        else .error .httpChunkDecodeError := by
  induction chunks with
  | nil =>
    intro fuel decoded _ hfuel
    obtain ⟨fuel, rfl⟩ := Nat.exists_eq_succ_of_ne_zero (Nat.ne_of_gt hfuel)
    rw [Body.encode, flatMap_nil, nil_append, append_assoc,
      decodeChunks_sizeLine hlast (by decide), if_pos rfl]
    cases trailers with
    | nil =>
      simp
    | cons field trailers =>
      have hfield := htrailers field mem_cons_self
      -- the line of a trailer field does not begin with a line end
      obtain ⟨x, tail, heq⟩ := exists_cons_of_ne_nil (toUtf8_ne_nil field.line_ne_nil)
      have hx : x ≠ 13 := fun h => notMem_toUtf8 hfield.line_ne (by rw [heq, h]; simp)
      rw [if_neg, if_neg (cons_ne_nil _ _)]
      rw [flatMap_cons, heq]
      rintro (⟨rest, hrest⟩ | hnil)
      · simp only [crlf, cons_append, nil_append, append_assoc,
          List.cons.injEq] at hrest
        exact hx hrest.1.symm
      · cases hnil
  | cons chunk chunks ih =>
    intro fuel decoded hchunks hfuel
    obtain ⟨fuel, rfl⟩ := Nat.exists_eq_succ_of_ne_zero (Nat.ne_of_gt (Nat.zero_lt_of_lt hfuel))
    obtain ⟨hchunk, hlt⟩ := hchunks chunk mem_cons_self
    have hshape : (Body.chunked (chunk :: chunks) last trailers).encode =
        chunk.encode ++ (Body.chunked chunks last trailers).encode := by
      simp only [Body.encode, flatMap_cons, append_assoc]
    rw [hshape, hchunk.decode hlt, ih fuel _
      (forall_mem_cons.mp hchunks).2
      (Nat.lt_of_succ_lt_succ hfuel), flatMap_cons, append_assoc]

theorem decodeChunkedBody_encode
    (hchunks : ∀ chunk ∈ chunks, chunk.WellFormed ∧ chunk.data.length < 2 ^ 64) :
    decodeChunkedBody (Body.chunked chunks last trailers).encode =
      if trailers = [] then .ok (chunks.flatMap Chunk.data) else .error .httpChunkDecodeError := by
  refine decodeChunks_encode hlast trailers htrailers chunks _ [] hchunks ?_
  have hle : chunks.length ≤ (chunks.flatMap Chunk.encode).length := by
    clear hchunks
    induction chunks with
    | nil => exact Nat.le_refl _
    | cons chunk chunks ih =>
      have : 2 ≤ chunk.encode.length := by
        simp only [Chunk.encode, crlf, length_append, length_cons]
        omega
      rw [flatMap_cons, length_append, length_cons]
      omega
  rw [Body.encode, length_append]
  omega

end

end Chunks

end Sengoo.Net.Http
