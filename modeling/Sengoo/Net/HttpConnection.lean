import Sengoo.Net.HttpFraming

/-!
Requests sent behind each other on one connection. A call of `read_http_request`
takes whole reads off the connection, so it takes exactly its request only when the
request ends where a read ends; and it takes the first `0 CR LF CR LF` it sees in a
chunked body for the end of the body. These two are all: the calls return the
requests one by one, each with exactly its bytes taken, if and only if the reads are
cut that way.
-/

namespace Sengoo.Net.Http

open List

section Prefixes

theorem bytesOf_append (first later : List Segment) :
    bytesOf (first ++ later) = bytesOf first ++ bytesOf later :=
  flatMap_append

variable {raw : List UInt8} {segment : Segment} {first : List Segment}

theorem append_bytesOf_nil : raw ++ bytesOf [] = raw := append_nil _

theorem append_bytesOf_cons : raw ++ bytesOf (segment :: first) = raw ++ segment.1 ++ bytesOf first :=
  (append_assoc ..).symm

/-- What is read before the last of the reads has the property. -/
def Before (P : List UInt8 → Prop) (raw : List UInt8) (first : List Segment) : Prop :=
  ∀ p q, first = p ++ q → q ≠ [] → P (raw ++ bytesOf p)

variable {P : List UInt8 → Prop}

theorem before_nil : Before P raw [] := by
  intro p q hpq hq
  exact absurd (append_eq_nil_iff.mp hpq.symm).2 hq

theorem before_cons :
    Before P raw (segment :: first) ↔ P raw ∧ Before P (raw ++ segment.1) first := by
  constructor
  · intro h
    refine ⟨by simpa [bytesOf] using h [] _ rfl (cons_ne_nil _ _), fun p q hpq hq => ?_⟩
    exact append_bytesOf_cons ▸ h (segment :: p) q (by rw [hpq]; rfl) hq
  · rintro ⟨hraw, hfirst⟩ p q hpq hq
    cases p with
    | nil => rwa [append_bytesOf_nil]
    | cons x p =>
      obtain ⟨rfl, hrest⟩ := List.cons.inj hpq
      rw [append_bytesOf_cons]
      exact hfirst p q hrest hq

/-- Of two ways to cut a list, one begins the other. -/
theorem append_eq_append_cases {α : Type} {first later first' later' : List α}
    (h : first ++ later = first' ++ later') :
    (∃ between, first' = first ++ between ∧ later = between ++ later') ∨
      ∃ between, between ≠ [] ∧ first = first' ++ between ∧ later' = between ++ later := by
  rcases append_eq_append_iff.mp h with ⟨between, hfirst, hlater⟩ | ⟨between, hfirst, hlater⟩
  · exact .inl ⟨between, hfirst, hlater⟩
  · by_cases hnil : between = []
    · subst hnil
      exact .inl ⟨[], by simpa using hfirst.symm, by simpa using hlater.symm⟩
    · exact .inr ⟨between, hnil, hfirst, hlater⟩

end Prefixes

section Loops

variable {limits : Limits} {ending : Ending}

/-- The limit on what is read before the head is complete is out of reach when the
head keeps to its own limit. -/
theorem head_limit {head raw : Nat} (hhead : head ≤ limits.maxHeaderBytes)
    (hraw : raw < head + 4 + bufferSize) :
    ¬ saturatingAdd (saturatingAdd limits.maxHeaderBytes limits.maxBodyBytes) 8192 < raw := by
  have := limits.header_lt
  simp only [saturatingAdd, bufferSize] at *
  omega

/-- The head is complete with the first reads that hold it. -/
theorem readHead_spec (ending : Ending) {head rest : List UInt8}
    (hhead : head.length ≤ limits.maxHeaderBytes)
    (segments : List Segment) :
    ∀ raw, raw ++ bytesOf segments = head ++ (headEnd ++ rest) →
      Pattern.position headEnd (head ++ (headEnd ++ rest)) = some head.length →
      Pattern.position headEnd raw = none →
      ∃ first later, segments = first ++ later ∧
        readHead limits ending raw segments = (.ok (head.length, raw ++ bytesOf first), later) ∧
        head.length + 4 ≤ (raw ++ bytesOf first).length ∧
        Before (·.length < head.length + 4) raw first := by
  induction segments with
  | nil =>
    intro raw hbytes hposition hnone
    rw [← hbytes, append_bytesOf_nil, hnone] at hposition
    cases hposition
  | cons segment segments ih =>
    intro raw hbytes hposition hnone
    have hraw : raw.length < head.length + 4 := by
      rw [← hbytes] at hposition
      exact Pattern.length_lt_of_none (by decide) hnone hposition
    rw [append_bytesOf_cons] at hbytes
    have hgrown : (raw ++ segment.1).length < head.length + 4 + bufferSize := by
      rw [length_append]
      omega
    have hlimit := head_limit hhead hgrown
    rw [readHead, if_neg hlimit]
    cases hfound : Pattern.position headEnd (raw ++ segment.1) with
    | some position =>
      have hlong := Pattern.position_le (by decide) hfound
      have hsame : position = head.length := by
        have hgrown := (Pattern.position_append_iff (by decide) (bytesOf segments) hlong).mpr hfound
        rw [hbytes, hposition] at hgrown
        exact (Option.some.inj hgrown).symm
      subst hsame
      refine ⟨[segment], segments, rfl, ?_, ?_, before_cons.mpr ⟨hraw, before_nil⟩⟩
      · simp [bytesOf]
      · simpa [bytesOf, headEnd] using hlong
    | none =>
      obtain ⟨first, later, rfl, hread, hlong, hshort⟩ := ih _ hbytes hposition hfound
      rw [← append_bytesOf_cons] at hread hlong
      exact ⟨segment :: first, later, rfl, hread, hlong, before_cons.mpr ⟨hraw, hshort⟩⟩

/-- A body of known length is read off the front of the connection. -/
theorem readLength_suffix {length : Nat} {out : List UInt8} {later : List Segment}
    (segments : List Segment) :
    ∀ body, readLength ending length body segments = (.ok out, later) → later <:+ segments := by
  induction segments with
  | nil =>
    intro body h
    unfold readLength at h
    split_ifs at h
    · cases h
      exact suffix_rfl
    · cases ending <;> cases h
  | cons segment segments ih =>
    intro body h
    unfold readLength at h
    split_ifs at h
    · cases h
      exact suffix_rfl
    · exact (ih _ h).trans (suffix_cons segment segments)

/-- Reads that hold just the body are all taken: before the last of them some is missing. -/
theorem readLength_exact {bytes : List UInt8} (first later : List Segment) :
    ∀ body, body ++ bytesOf first = bytes →
      readLength ending bytes.length body (first ++ later) = (.ok bytes, later) := by
  induction first with
  | nil =>
    intro body hbytes
    rw [append_bytesOf_nil] at hbytes
    subst hbytes
    cases later <;> simp [readLength]
  | cons segment first ih =>
    intro body hbytes
    rw [append_bytesOf_cons] at hbytes
    have hshort : ¬ bytes.length ≤ body.length := by
      have := length_pos_of_ne_nil segment.2.1
      rw [← hbytes, length_append, length_append]
      omega
    exact (if_neg hshort).trans (ih _ hbytes)

/-- What the loop of a chunked body has read when it ends well: reads up to the
first ones that show the last chunk, or all of a connection that is closed then. -/
structure ChunkedStop (limits : Limits) (ending : Ending) (body : List UInt8)
    (first later : List Segment) : Prop where
  unseen : ∀ p q, first = p ++ q → q ≠ [] → Pattern.occurs lastChunk (body ++ bytesOf p) = false
  within : first ≠ [] → (body ++ bytesOf first).length ≤ limits.maxBodyBytes + 4096
  done : Pattern.occurs lastChunk (body ++ bytesOf first) = true ∨ later = [] ∧ ending = .closed

theorem saturatingAdd_body (limits : Limits) :
    saturatingAdd limits.maxBodyBytes 4096 = limits.maxBodyBytes + 4096 := by
  have := limits.body_lt
  unfold saturatingAdd
  omega

variable {body : List UInt8} {segment : Segment} {first later : List Segment}

theorem chunkedStop_nil : ChunkedStop limits ending body [] later ↔
    Pattern.occurs lastChunk body = true ∨ later = [] ∧ ending = .closed := by
  constructor
  · intro h
    simpa [append_bytesOf_nil] using h.done
  · intro h
    exact ⟨before_nil (P := (Pattern.occurs lastChunk · = false)), nofun, by rwa [append_bytesOf_nil]⟩

theorem chunkedStop_cons : ChunkedStop limits ending body (segment :: first) later ↔
    Pattern.occurs lastChunk body = false ∧
      (body ++ segment.1).length ≤ limits.maxBodyBytes + 4096 ∧
      ChunkedStop limits ending (body ++ segment.1) first later := by
  have hbefore := @before_cons body segment first (Pattern.occurs lastChunk · = false)
  constructor
  · rintro ⟨hunseen, hwithin, hdone⟩
    rw [append_bytesOf_cons] at hwithin hdone
    have hwithin := hwithin (cons_ne_nil _ _)
    obtain ⟨hbody, hunseen⟩ := hbefore.mp hunseen
    refine ⟨hbody, ?_, hunseen, fun _ => hwithin, hdone⟩
    exact Nat.le_trans (prefix_append ..).length_le hwithin
  · rintro ⟨hbody, hlength, hunseen, hwithin, hdone⟩
    rw [← append_bytesOf_cons] at hwithin hdone
    refine ⟨hbefore.mpr ⟨hbody, hunseen⟩, fun _ => ?_, hdone⟩
    cases first with
    | nil => rwa [append_bytesOf_cons, append_bytesOf_nil]
    | cons => exact hwithin (cons_ne_nil _ _)

theorem readChunked_iff (segments : List Segment) :
    ∀ body out later, readChunked limits ending body segments = (.ok out, later) ↔
      ∃ first, segments = first ++ later ∧ out = body ++ bytesOf first ∧
        ChunkedStop limits ending body first later := by
  induction segments with
  | nil =>
    intro body out later
    unfold readChunked
    constructor
    · intro h
      refine ⟨[], ?_⟩
      rw [chunkedStop_nil, append_bytesOf_nil]
      split_ifs at h with hseen
      · cases h
        exact ⟨rfl, rfl, .inl hseen⟩
      · cases ending <;> cases h
        exact ⟨rfl, rfl, .inr ⟨rfl, rfl⟩⟩
    · rintro ⟨first, hsegments, rfl, hstop⟩
      obtain ⟨rfl, rfl⟩ := append_eq_nil_iff.mp hsegments.symm
      rw [append_bytesOf_nil]
      rcases chunkedStop_nil.mp hstop with hseen | ⟨-, rfl⟩
      · exact if_pos hseen
      · exact ite_self _
  | cons segment segments ih =>
    intro body out later
    rw [readChunked]
    by_cases hseen : Pattern.occurs lastChunk body = true
    · rw [if_pos hseen]
      constructor
      · intro h
        cases h
        exact ⟨[], rfl, append_bytesOf_nil.symm, chunkedStop_nil.mpr (.inl hseen)⟩
      · rintro ⟨first, hsegments, rfl, hstop⟩
        cases first with
        | nil => rw [append_bytesOf_nil, hsegments, nil_append]
        | cons => cases (chunkedStop_cons.mp hstop).1.symm.trans hseen
    · rw [if_neg hseen]
      dsimp only
      rw [saturatingAdd_body]
      constructor
      · intro h
        split at h
        · cases h
        · next hlimit =>
          obtain ⟨first, rfl, rfl, hstop⟩ := (ih _ _ _).mp h
          exact ⟨segment :: first, rfl, append_bytesOf_cons.symm, chunkedStop_cons.mpr
            ⟨Bool.eq_false_iff.mpr hseen, Nat.not_lt.mp hlimit, hstop⟩⟩
      · rintro ⟨first, hsegments, rfl, hstop⟩
        cases first with
        | nil =>
          -- without a further read the loop does not end here
          rcases chunkedStop_nil.mp hstop with hdone | ⟨rfl, -⟩
          · exact absurd hdone hseen
          · cases hsegments
        | cons x first =>
          obtain ⟨rfl, rfl⟩ := List.cons.inj hsegments
          obtain ⟨-, hlength, hstop⟩ := chunkedStop_cons.mp hstop
          rw [if_neg (Nat.not_lt.mpr hlength), append_bytesOf_cons]
          exact (ih _ _ _).mpr ⟨first, rfl, rfl, hstop⟩

end Loops

section Calls

variable {limits : Limits} {ending : Ending} {request : Request}

/-- How the reads of a request have to be cut. It ends where a read ends; a chunked
body has no trailer fields, shows `0 CR LF CR LF` after no earlier read, and shows
it at its end unless the connection is closed there. -/
structure Cut (ending : Ending) (request : Request) (first later : List Segment) : Prop where
  whole : bytesOf first = request.encode
  chunked : ∀ chunks last trailers, request.body = .chunked chunks last trailers → trailers = [] ∧
    (∀ p q, first = p ++ q → q ≠ [] →
      Pattern.occurs lastChunk ((bytesOf p).drop (request.head.length + 4)) = false) ∧
    (Pattern.occurs lastChunk request.body.encode = true ∨ later = [] ∧ ending = .closed)

theorem isChunked_eq (h : request.WellFormed) :
    isChunked request.headers = true ↔ ∃ chunks last trailers,
      request.body = .chunked chunks last trailers := by
  have hannounces := h.announces
  unfold Request.Announces at hannounces
  unfold isChunked
  cases hbody : request.body with
  | plain bytes =>
    rw [hbody] at hannounces
    rw [hannounces.1]
    simp
  | chunked chunks last trailers =>
    rw [hbody] at hannounces
    obtain ⟨-, ⟨text, htext, hsuffix⟩, -⟩ := hannounces
    rw [htext]
    refine ⟨fun _ => ⟨_, _, _, rfl⟩, fun _ => ?_⟩
    -- a text that ends with the name of the coding has the name in it
    obtain ⟨before, hbefore⟩ := hsuffix
    dsimp only
    rw [← hbefore]
    clear hbefore htext
    induction before with
    | nil => decide
    | cons c before ih =>
      obtain ⟨i, hi⟩ := Option.isSome_iff_exists.mp ih
      refine Option.isSome_iff_exists.mpr ?_
      rw [cons_append, Pattern.position]
      split
      · exact ⟨_, rfl⟩
      · rw [hi]
        exact ⟨_, rfl⟩

theorem contentLength_eq (h : request.WellFormed) (hwithin : request.Within limits)
    {bytes : List UInt8} (hbody : request.body = .plain bytes) :
    contentLength request.headers = some bytes.length := by
  have hannounces := h.announces
  have hlength := hwithin.body
  have := limits.body_lt
  unfold Request.Announces at hannounces
  rw [hbody] at hannounces hlength
  unfold contentLength
  rcases hannounces.2 with ⟨hnone, rfl⟩ | ⟨text, hsome, hnumeral⟩
  · rw [hnone]
    rfl
  · rw [hsome]
    dsimp only
    rw [hnumeral.trim]
    refine hnumeral.fromStrRadix (by decide) ?_
    change bytes.length ≤ _ at hlength
    omega

theorem decode_body (h : request.WellFormed) (hwithin : request.Within limits)
    {chunks : List Chunk} {last : SizeLine} {trailers : List Field}
    (hbody : request.body = .chunked chunks last trailers) :
    decodeChunkedBody request.body.encode =
      if trailers = [] then .ok request.body.bytes else .error .httpChunkDecodeError := by
  have hannounces := h.announces
  have hlength := hwithin.body
  have hlimit := limits.body_lt
  unfold Request.Announces at hannounces
  rw [hbody] at hannounces hlength ⊢
  obtain ⟨-, -, hchunks, hlast, htrailers⟩ := hannounces
  have hsmall : ∀ chunk ∈ chunks, chunk.WellFormed ∧ chunk.data.length < 2 ^ 64 := by
    intro chunk hchunk
    refine ⟨hchunks chunk hchunk, ?_⟩
    have hle : chunk.data.length ≤ (chunks.flatMap Chunk.data).length := by
      obtain ⟨before, behind, rfl⟩ := append_of_mem hchunk
      rw [flatMap_append, flatMap_cons, length_append, length_append]
      omega
    change (chunks.flatMap Chunk.data).length ≤ _ at hlength
    omega
  exact decodeChunkedBody_encode hlast trailers htrailers chunks hsmall

theorem readBody_chunked (hchunked : isChunked request.headers = true)
    {start bytes : List UInt8} {rest later : List Segment}
    (hbytes : bytes.length ≤ limits.maxBodyBytes) :
    readBody limits ending request.headers start rest = (.ok bytes, later) ↔
      ∃ out, readChunked limits ending start rest = (.ok out, later) ∧
        decodeChunkedBody out = .ok bytes := by
  unfold readBody
  rw [if_pos hchunked]
  constructor
  · intro h
    split at h
    · cases h
    · next out left hread =>
      split at h
      · cases h
      · next decoded hdecoded =>
        split at h
        · cases h
        · cases h
          exact ⟨out, hread, hdecoded⟩
  · rintro ⟨out, hread, hdecoded⟩
    rw [hread]
    dsimp only
    rw [hdecoded]
    exact if_neg (Nat.not_lt.mpr hbytes)

theorem readBody_plain (h : request.WellFormed) (hwithin : request.Within limits)
    {bytes : List UInt8} (hbody : request.body = .plain bytes) (start : List UInt8)
    (rest : List Segment) :
    readBody limits ending request.headers start rest =
      readLength ending bytes.length start rest := by
  have hplain : ¬ isChunked request.headers = true := by
    rw [isChunked_eq h, hbody]
    rintro ⟨_, _, _, heq⟩
    cases heq
  have hle : bytes.length ≤ limits.maxBodyBytes := by
    have := hwithin.body
    rwa [hbody] at this
  unfold readBody
  rw [if_neg hplain, contentLength_eq h hwithin hbody]
  exact if_neg (Nat.not_lt.mpr hle)

/-- One call of `read_http_request` on a connection that goes on with a request
returns it and takes exactly its bytes if and only if the reads are cut for it. -/
theorem readHttpRequest_iff (ending : Ending) (h : request.WellFormed)
    (hwithin : request.Within limits)
    {segments : List Segment} {after : List UInt8}
    (hbytes : bytesOf segments = request.encode ++ after) (later : List Segment) :
    readHttpRequest limits ending segments = (.ok request.received, later) ∧ bytesOf later = after ↔
      ∃ first, segments = first ++ later ∧ Cut ending request first later := by
  have hstream := hbytes
  rw [Request.encode, append_assoc] at hbytes
  obtain ⟨head, rest, rfl, hread, hlong, hshort⟩ := readHead_spec ending
    hwithin.head segments [] hbytes (position_headEnd_fields h.line_ne h.fields _) rfl
  rw [nil_append] at hread hlong
  replace hshort : ∀ p q, head = p ++ q → q ≠ [] → (bytesOf p).length < request.head.length + 4 :=
    hshort
  have htake : (bytesOf head).take request.head.length = request.head := by
    have hrequest : request.head <+: bytesOf (head ++ rest) := by
      rw [hbytes]
      exact prefix_append _ _
    have hreads : bytesOf head <+: bytesOf (head ++ rest) := by
      rw [bytesOf_append]
      exact prefix_append _ _
    have hbegins := prefix_of_prefix_length_le hrequest hreads (by omega)
    exact (prefix_iff_eq_take.mp hbegins).symm
  have hcall : readHttpRequest limits ending (head ++ rest) = (.ok request.received, later) ↔
      readBody limits ending request.headers ((bytesOf head).drop (request.head.length + 4)) rest =
        (.ok request.body.bytes, later) := by
    unfold readHttpRequest
    rw [hread]
    dsimp only
    rw [if_neg (Nat.not_lt.mpr hwithin.head), htake, h.parse_head]
    dsimp only
    cases readBody limits ending request.headers ((bytesOf head).drop (request.head.length + 4))
        rest with
    | mk result left =>
      cases result with
      | error code => simp
      | ok body => simp [Request.received]
  -- what the body loop starts with and reads is the stream behind the head
  have hdrop : ∀ more : List Segment,
      (bytesOf head).drop (request.head.length + 4) ++ bytesOf more =
        (bytesOf (head ++ more)).drop (request.head.length + 4) := by
    intro more
    rw [bytesOf_append, drop_append_of_le_length hlong]
  have hencode : request.encode.drop (request.head.length + 4) = request.body.encode := by
    rw [Request.encode]
    simp [headEnd]
  have hlength : request.encode.length = request.head.length + 4 + request.body.encode.length := by
    simp only [Request.encode, headEnd, length_append, length_cons, length_nil]
    omega
  -- reads that hold the whole request begin with those that hold its head
  have hsplit : ∀ first, head ++ rest = first ++ later → bytesOf first = request.encode →
      ∃ more, first = head ++ more ∧ rest = more ++ later := by
    intro first heq hfirst
    rcases append_eq_append_cases heq with ⟨more, hmore, hrest⟩ | ⟨more, hne, hhead, -⟩
    · exact ⟨more, hmore, hrest⟩
    · have := hshort first more hhead hne
      rw [hfirst] at this
      omega
  have hwhole : ∀ more, rest = more ++ later →
      (bytesOf later = after ↔ bytesOf (head ++ more) = request.encode) := by
    intro more hmore
    rw [hmore, ← append_assoc, bytesOf_append _ later] at hstream
    constructor
    · rintro rfl
      exact append_cancel_right hstream
    · exact fun hfirst => append_inj_right hstream (congrArg length hfirst)
  rw [hcall]
  cases hbody : request.body with
  | plain bytes =>
    rw [readBody_plain h hwithin hbody]
    constructor
    · rintro ⟨hloop, hlater⟩
      obtain ⟨more, rfl⟩ := readLength_suffix rest _ hloop
      refine ⟨head ++ more, (append_assoc _ _ _).symm, (hwhole more rfl).mp hlater, ?_⟩
      rintro _ _ _ hchunked
      rw [hbody] at hchunked
      cases hchunked
    · rintro ⟨first, hfirst, hcut⟩
      obtain ⟨more, rfl, rfl⟩ := hsplit first hfirst hcut.whole
      refine ⟨readLength_exact more later _ ?_, (hwhole more rfl).mpr hcut.whole⟩
      rw [hdrop, hcut.whole, hencode, hbody]
      rfl
  | chunked chunks last trailers =>
    have hchunked := (isChunked_eq h).mpr ⟨chunks, last, trailers, hbody⟩
    have hdecode := decode_body h hwithin hbody
    have hmaximum := hwithin.encoded
    rw [← hbody, readBody_chunked hchunked hwithin.body]
    constructor
    · rintro ⟨⟨out, hloop, hout⟩, hlater⟩
      obtain ⟨more, rfl, rfl, hstop⟩ := (readChunked_iff rest _ _ _).mp hloop
      have hfirst := (hwhole more rfl).mp hlater
      rw [hdrop, hfirst, hencode, hdecode] at hout
      refine ⟨head ++ more, (append_assoc _ _ _).symm, hfirst, ?_⟩
      rintro chunks' last' trailers' hbody'
      rw [hbody] at hbody'
      cases hbody'
      refine ⟨?_, ?_, ?_⟩
      · by_contra htrailers
        rw [if_neg htrailers] at hout
        cases hout
      · intro p q hpq hq
        rcases append_eq_append_cases hpq with ⟨between, rfl, hmore⟩ | ⟨between, hne, hhead, -⟩
        · rw [← hdrop]
          exact hstop.unseen between q hmore hq
        · -- before the head is complete there is no body to look at
          have := hshort p between hhead hne
          rw [drop_of_length_le (by omega)]
          rfl
      · have hdone := hstop.done
        rw [hdrop, hfirst, hencode] at hdone
        exact hdone
    · rintro ⟨first, hfirst, hcut⟩
      obtain ⟨more, rfl, rfl⟩ := hsplit first hfirst hcut.whole
      obtain ⟨htrailers, hunseen, hdone⟩ := hcut.chunked chunks last trailers hbody
      have hout : (bytesOf head).drop (request.head.length + 4) ++ bytesOf more =
          request.body.encode := by
        rw [hdrop, hcut.whole, hencode]
      refine ⟨⟨request.body.encode, (readChunked_iff _ _ _ _).mpr
        ⟨more, rfl, hout.symm, ?_, ?_, ?_⟩, ?_⟩, (hwhole more rfl).mpr hcut.whole⟩
      · intro p q hpq hq
        rw [hdrop]
        refine hunseen (head ++ p) q ?_ hq
        rw [hpq, append_assoc]
      · intro _
        rw [hout]
        exact hmaximum
      · rw [hout]
        exact hdone
      · rw [hdecode, if_pos htrailers]

end Calls

section Connections

variable {limits : Limits} {ending : Ending}

def encodeAll (requests : List Request) : List UInt8 := requests.flatMap Request.encode

/-- Successive calls return the requests, each with exactly its bytes taken off the
connection. -/
def Framed (limits : Limits) (ending : Ending) : List Segment → List Request → Prop
  | _, [] => True
  | segments, request :: requests =>
    ∃ later, readHttpRequest limits ending segments = (.ok request.received, later) ∧
      bytesOf later = encodeAll requests ∧ Framed limits ending later requests

/-- The reads of a connection are cut for every request on it. -/
def WellCut (ending : Ending) : List Segment → List Request → Prop
  | _, [] => True
  | segments, request :: requests =>
    ∃ first later, segments = first ++ later ∧ Cut ending request first later ∧
      WellCut ending later requests

/-- For requests within the limits, sent back to back and cut into reads in any way:
the calls return exactly them if and only if the reads are cut for them. -/
theorem requests_framed_iff (limits : Limits) (ending : Ending) (requests : List Request)
    (hrequests : ∀ request ∈ requests, request.WellFormed ∧ request.Within limits)
    (segments : List Segment) (hbytes : bytesOf segments = encodeAll requests) :
    Framed limits ending segments requests ↔ WellCut ending segments requests := by
  induction requests generalizing segments with
  | nil => exact Iff.rfl
  | cons request requests ih =>
    obtain ⟨hwellFormed, hwithin⟩ := hrequests request mem_cons_self
    have hothers := (forall_mem_cons.mp hrequests).2
    have hcall := readHttpRequest_iff ending hwellFormed hwithin hbytes
    constructor
    · rintro ⟨later, hread, hlater, hframed⟩
      obtain ⟨first, hfirst, hcut⟩ := (hcall later).mp ⟨hread, hlater⟩
      exact ⟨first, later, hfirst, hcut, (ih hothers later hlater).mp hframed⟩
    · rintro ⟨first, later, hfirst, hcut, hrest⟩
      obtain ⟨hread, hlater⟩ := (hcall later).mpr ⟨first, hfirst, hcut⟩
      exact ⟨later, hread, hlater, (ih hothers later hlater).mpr hrest⟩

end Connections

section Examples

/-- The limits of a new server. -/
def defaultLimits : Limits := ⟨16 * 1024, 1024 * 1024, by decide, by decide⟩

def getRequest : Request := ⟨"GET".toList, "/".toList, [], .plain []⟩

/-- A chunked request with one chunk, the bytes `0 CR LF CR LF`. -/
def chunkedRequest : Request :=
  ⟨"POST".toList, "/".toList, [⟨"Transfer-Encoding".toList, [' '], "chunked".toList, []⟩],
    .chunked [⟨⟨['5'], []⟩, lastChunk⟩] ⟨['0'], []⟩ []⟩

theorem getRequest_wellFormed : getRequest.WellFormed ∧ getRequest.Within defaultLimits := by
  refine ⟨⟨by decide, all_eq_true.mp (by decide), rfl, all_eq_true.mp (by decide), nofun, rfl, .inl ⟨rfl, rfl⟩⟩, ?_, ?_, ?_⟩
  · decide
  · decide
  · decide

theorem chunkedRequest_wellFormed :
    chunkedRequest.WellFormed ∧ chunkedRequest.Within defaultLimits := by
  refine ⟨⟨by decide, all_eq_true.mp (by decide), rfl, all_eq_true.mp (by decide), ?_, rfl, ?_, ?_, ?_, nofun⟩, ?_, ?_, ?_⟩
  · intro field hfield
    obtain rfl := mem_singleton.mp hfield
    refine ⟨by decide, all_eq_true.mp (by decide), all_eq_true.mp (by decide),
      all_eq_true.mp (by decide), nofun, ?_, ?_⟩
    · rintro c ⟨⟩
      rfl
    · rintro c ⟨⟩
      rfl
  · exact ⟨"chunked".toList, by decide, suffix_refl _⟩
  · intro chunk hchunk
    obtain rfl := mem_singleton.mp hchunk
    exact ⟨⟨⟨by decide, [5], by decide, rfl⟩, .inl rfl⟩, by decide⟩
  · exact ⟨⟨by decide, [0], by decide, rfl⟩, .inl rfl⟩
  · decide
  · decide
  · decide

/-- What successive calls return. -/
def readRequests (limits : Limits) (ending : Ending) :
    Nat → List Segment → List (Except NetErrorCode HttpServerRequest)
  | 0, _ => []
  | count + 1, segments =>
    let (result, later) := readHttpRequest limits ending segments
    result :: readRequests limits ending count later

/-- Well-formed requests within the limits that are not returned: the second of two in
one read, and a chunked request whose data looks like its end, cut behind that. -/
theorem requests_lost :
    ((getRequest.WellFormed ∧ getRequest.Within defaultLimits) ∧
      chunkedRequest.WellFormed ∧ chunkedRequest.Within defaultLimits) ∧
    (∃ segment : Segment, segment.1 = encodeAll [getRequest, getRequest] ∧
      readRequests defaultLimits (.failed .timeout) 2 [segment] =
        [.ok getRequest.received, .error .timeout]) ∧
    ∃ first second : Segment, first.1 ++ second.1 = encodeAll [chunkedRequest] ∧
      readRequests defaultLimits (.failed .timeout) 1 [first, second] =
        [.error .httpChunkDecodeError] := by
  refine ⟨⟨getRequest_wellFormed, chunkedRequest_wellFormed⟩,
    ⟨⟨encodeAll [getRequest, getRequest], by decide, by decide⟩, rfl, by decide +kernel⟩, ?_⟩
  refine ⟨⟨chunkedRequest.encode.take 55, by decide, by decide⟩,
    ⟨chunkedRequest.encode.drop 55, by decide, by decide⟩, by decide, by decide +kernel⟩

/-- Two requests in two reads are returned. -/
theorem requests_framed_two_reads :
    ∃ segments, bytesOf segments = encodeAll [getRequest, chunkedRequest] ∧
      Framed defaultLimits (.failed .timeout) segments [getRequest, chunkedRequest] := by
  let first : Segment := ⟨getRequest.encode, by decide, by decide⟩
  let second : Segment := ⟨chunkedRequest.encode, by decide, by decide⟩
  have hrequests : ∀ request ∈ [getRequest, chunkedRequest],
      request.WellFormed ∧ request.Within defaultLimits := by
    intro request hrequest
    simp only [mem_cons, not_mem_nil, or_false] at hrequest
    rcases hrequest with rfl | rfl
    · exact getRequest_wellFormed
    · exact chunkedRequest_wellFormed
  refine ⟨[first, second], rfl, (requests_framed_iff _ _ _ hrequests [first, second] rfl).mpr ?_⟩
  refine ⟨[first], [second], rfl, ⟨append_nil _, nofun⟩,
    [second], [], rfl, ⟨append_nil _, ?_⟩, trivial⟩
  rintro chunks last trailers ⟨⟩
  refine ⟨rfl, (@before_cons [] second [] fun bytes =>
    Pattern.occurs lastChunk (bytes.drop _) = false).mpr ⟨?_, before_nil⟩, .inl (by decide)⟩
  rfl

end Examples

end Sengoo.Net.Http
