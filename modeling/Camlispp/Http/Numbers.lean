import Mathlib.Data.List.Induction
import Camlispp.Http.RequestGrammar

/-!
# Numbers in the head of a request

The parser keeps the two version numbers in `int`s, adding a digit at a time, and converts the first
`content-length` with `atoi` before it compares it with the limit. Both lose what does not fit: a
version number wraps around, and a length beyond `2 ^ 31` may turn out small, negative or zero,
which decides where the body ends.

`readsNumbers_iff` says for which streams every number is read at its value. The version numbers are
looked at **as soon as their digits are consumed**, whatever comes behind them: the sum has
overflowed then, even if the request is refused a byte later or never comes to its end.

## What the result rests on

* `foldl_addDigit`: a version number is the remainder of its value in an `int`, so it is right as
  long as the value is below `2 ^ 31`; `noOverflow_iff` is the stronger demand that none of the
  three intermediate values of a step leaves the range, which costs another `48`.
* `atoi_gt_iff`: what a length is to the test. Between `2 ^ 31` and `2 ^ 63` only its remainder
  counts, beyond that `strtol` saturates, and the `int` made of it is `-1`.
* `feed_head` and `reads_start_iff`, the grammar of requests: which streams have a head at all, and
  what is accepted. For a stream that breaks off inside its version the loops' own rule is enough
  (`feed_major`, `feed_minor`).

`Request.received` is what is left of a request on its way to the handler when its `content-length`
is the truth: the same two places, seen from the other end of a connection.
-/

open Bytes Machine

namespace Camlispp.Http

/-- A text of digits. -/
def IsNumeral (s : Bytes) : Prop := s ≠ [] ∧ ∀ b ∈ s, isDigit b = true

/-- An `int` can hold it. -/
def FitsInt (n : ℤ) : Prop := -2 ^ 31 ≤ n ∧ n < 2 ^ 31

/-- No value that comes up while the digits are added leaves the range of `int`. -/
def NoOverflow (digits : Bytes) : Prop :=
  ∀ u b v, digits = u ++ b :: v → FitsInt (u.foldl addDigit 0 * 10) ∧
    FitsInt (u.foldl addDigit 0 * 10 + signedChar b) ∧
    FitsInt (u.foldl addDigit 0 * 10 + signedChar b - 48)

/-- The first `content-length` of a head. -/
def RequestText.lengthText (t : RequestText) : Bytes := t.request.getHeader (lit "content-length")

/-- The stream begins with this head. -/
def RequestText.Heads (t : RequestText) (w : Bytes) : Prop :=
  t.HeadWellFormed ∧ t.head ++ [10] <+: w

/-- A request line up to its version. -/
def requestLine (method uri : Bytes) : Bytes := method ++ 32 :: (uri ++ 32 :: lit "HTTP/")

/-- The form of a request line up to its version. -/
structure LineWellFormed (method uri : Bytes) : Prop where
  method_ne : method ≠ []
  method : ∀ b ∈ method, isTokenByte b = true
  uri : ∀ b ∈ uri, b ≠ 32 ∧ isControl b = false

/-- The stream begins with a request line up to these digits of its first version number. -/
structure ReachesMajor (w method uri digits : Bytes) : Prop where
  line : LineWellFormed method uri
  numeral : IsNumeral digits
  starts : requestLine method uri ++ digits <+: w

/-- The stream begins with a request line up to these digits of its second version number. -/
structure ReachesMinor (w method uri major digits : Bytes) : Prop where
  line : LineWellFormed method uri
  majorNumeral : IsNumeral major
  numeral : IsNumeral digits
  starts : requestLine method uri ++ (major ++ 46 :: digits) <+: w

/-- **Numbers are read at their value** in a stream. -/
structure ReadsNumbers (w : Bytes) : Prop where
  /-- An accepted request has as much content as its length says, and that is at most 16 MiB. -/
  accepted : ∀ s rest, Accepts parserStep start w s rest →
    IsNumeral (s.2.getHeader (lit "content-length")) →
      decimalValue (s.2.getHeader (lit "content-length")) ≤ 16 * 1024 * 1024 ∧
        s.2.content.length = decimalValue (s.2.getHeader (lit "content-length"))
  /-- A greater length is rejected. -/
  rejected : ∀ t : RequestText, t.Heads w → IsNumeral t.lengthText →
    16 * 1024 * 1024 < decimalValue t.lengthText → (feed parserStep start w).1 = .ff
  /-- Behind the digits of the first version number that came, the field is their value, and
  nothing overflowed on the way. -/
  major : ∀ method uri digits, ReachesMajor w method uri digits →
    (feed parserStep start (requestLine method uri ++ digits)).2.1.2.httpVersionMajor =
      decimalValue digits ∧ NoOverflow digits
  /-- Likewise behind those of the second. -/
  minor : ∀ method uri major digits, ReachesMinor w method uri major digits →
    (feed parserStep start (requestLine method uri ++
      (major ++ 46 :: digits))).2.1.2.httpVersionMinor = decimalValue digits ∧ NoOverflow digits
  /-- Behind the head, the version is the one that was sent. -/
  version : ∀ t : RequestText, t.Heads w →
    (feed parserStep start t.head).2.1.2.httpVersionMajor = decimalValue t.major ∧
      (feed parserStep start t.head).2.1.2.httpVersionMinor = decimalValue t.minor

/-- The numbers of a stream fit the types they are kept in. A length beyond the limit may pass
through the conversion if what is left of it in an `int` is beyond the limit, too. -/
structure NumbersFit (w : Bytes) : Prop where
  major : ∀ method uri digits, ReachesMajor w method uri digits →
    decimalValue digits + 48 < 2 ^ 31
  minor : ∀ method uri major digits, ReachesMinor w method uri major digits →
    decimalValue digits + 48 < 2 ^ 31
  length : ∀ t : RequestText, t.Heads w → IsNumeral t.lengthText →
    decimalValue t.lengthText ≤ 16 * 1024 * 1024 ∨
      decimalValue t.lengthText < 2 ^ 63 ∧
        16 * 1024 * 1024 < decimalValue t.lengthText % 2 ^ 32 ∧
        decimalValue t.lengthText % 2 ^ 32 < 2 ^ 31

/-! ### Version numbers -/

theorem decimalValue_concat (u : Bytes) (b : UInt8) :
    decimalValue (u ++ [b]) = 10 * decimalValue u + (b.toNat - 48) := by
  rw [decimalValue, List.foldl_append]
  rfl

theorem decimalValue_le_append (u v : Bytes) : decimalValue u ≤ decimalValue (u ++ v) := by
  induction v using List.reverseRecOn with
  | nil => rw [List.append_nil]
  | append_singleton v b ih =>
    rw [← List.append_assoc, decimalValue_concat]
    omega

theorem signedChar_of_isDigit {b : UInt8} (hb : isDigit b = true) :
    signedChar b = b.toNat ∧ 48 ≤ b.toNat ∧ b.toNat ≤ 57 := by
  simp only [isDigit, Bool.and_eq_true, decide_eq_true_eq, UInt8.le_iff_toNat_le,
    UInt8.reduceToNat] at hb
  have hlt : b < 128 := UInt8.lt_iff_toNat_lt.2 (show b.toNat < 128 by omega)
  exact ⟨if_pos hlt, hb⟩

/-- The field holds what is left of the value in an `int`. -/
theorem foldl_addDigit {digits : Bytes} (h : ∀ b ∈ digits, isDigit b = true) :
    digits.foldl addDigit 0 = int32 (decimalValue digits) := by
  induction digits using List.reverseRecOn with
  | nil => rfl
  | append_singleton u b ih =>
    obtain ⟨hchar, hlo, -⟩ := signedChar_of_isDigit (h b (by simp))
    have hu := ih fun c hc ↦ h c (List.mem_append_left _ hc)
    have hvalue : (decimalValue u : ℤ) * 10 + b.toNat - 48 = (decimalValue (u ++ [b]) : ℕ) := by
      rw [decimalValue_concat]
      omega
    rw [List.foldl_append, List.foldl_cons, List.foldl_nil, hu, ← hvalue, addDigit, hchar]
    simp only [int32, add_sub_assoc]
    rw [← Int.bmod_add_bmod, Int.bmod_mul_bmod, Int.bmod_add_bmod]

theorem foldl_addDigit_of_lt {digits : Bytes} (h : ∀ b ∈ digits, isDigit b = true)
    (hlt : decimalValue digits < 2 ^ 31) : digits.foldl addDigit 0 = decimalValue digits := by
  rw [foldl_addDigit h, int32_of_lt hlt]

theorem noOverflow_iff {digits : Bytes} (hne : digits ≠ []) (h : ∀ b ∈ digits, isDigit b = true) :
    NoOverflow digits ↔ decimalValue digits + 48 < 2 ^ 31 := by
  constructor
  · intro hno
    have hlt : digits = [] ∨ decimalValue digits + 48 < 2 ^ 31 := by
      clear hne
      induction digits using List.reverseRecOn with
      | nil => exact Or.inl rfl
      | append_singleton u b ih =>
        have hu : ∀ c ∈ u, isDigit c = true := fun c hc ↦ h c (List.mem_append_left _ hc)
        -- no sum overflowed before the last digit, so the value of the others is known
        have hbefore : decimalValue u < 2 ^ 31 := by
          rcases ih hu fun u' b' v' hu' ↦ hno u' b' (v' ++ [b]) (by simp [hu']) with rfl | hlt
          · decide
          · omega
        obtain ⟨hchar, hlo, -⟩ := signedChar_of_isDigit (h b (by simp))
        obtain ⟨-, hfits, -⟩ := hno u b [] rfl
        rw [foldl_addDigit_of_lt hu hbefore, hchar, FitsInt] at hfits
        rw [decimalValue_concat]
        omega
    exact hlt.resolve_left hne
  · rintro hlt u b v rfl
    obtain ⟨hchar, hlo, -⟩ := signedChar_of_isDigit (h b (by simp))
    have hvalue := decimalValue_le_append (u ++ [b]) v
    rw [List.append_assoc, List.singleton_append, decimalValue_concat] at hvalue
    have hu := foldl_addDigit_of_lt (fun c hc ↦ h c (List.mem_append_left _ hc))
      (show decimalValue u < 2 ^ 31 by omega)
    rw [hu, hchar]
    simp only [FitsInt]
    omega

/-! ### The length -/

theorem strtol_of_isNumeral {s : Bytes} (h : IsNumeral s) :
    strtol s = min (2 ^ 63 - 1) (decimalValue s : ℤ) := by
  obtain ⟨b, r, rfl⟩ := List.exists_cons_of_ne_nil h.1
  have hb := h.2 b List.mem_cons_self
  have hspace : isSpace b = false ∧ b ≠ 45 ∧ b ≠ 43 := by
    simp only [isDigit, isSpace, Bool.and_eq_true, decide_eq_true_eq, Bool.or_eq_false_iff,
      Bool.and_eq_false_iff, decide_eq_false_iff_not, UInt8.le_iff_toNat_le, ← UInt8.toNat_inj,
      UInt8.reduceToNat, ne_eq] at hb ⊢
    omega
  have htake : (b :: r).takeWhile isDigit = b :: r := List.takeWhile_eq_self_iff.2 h.2
  simp only [strtol, List.dropWhile_cons, hspace.1, Bool.false_eq_true, if_false, List.head?_cons,
    Option.some.injEq, hspace.2.1, hspace.2.2, or_self, htake]
  omega

/-- What a length is to the parser. -/
theorem atoi_gt_iff {s : Bytes} (h : IsNumeral s) :
    16 * 1024 * 1024 < atoi s ↔ decimalValue s < 2 ^ 63 ∧
      16 * 1024 * 1024 < decimalValue s % 2 ^ 32 ∧ decimalValue s % 2 ^ 32 < 2 ^ 31 := by
  rw [atoi, strtol_of_isNumeral h, int32, Int.bmod_def]
  omega

theorem atoi_of_le {s : Bytes} (h : IsNumeral s) (hle : decimalValue s ≤ 16 * 1024 * 1024) :
    atoi s = decimalValue s := by
  rw [atoi, strtol_of_isNumeral h, min_eq_right (by omega), int32_of_lt (by omega)]

/-- A body is never rejected. -/
theorem feed_body_ne_ff (k : ℕ) (q : Request) (w : Bytes) :
    (feed parserStep (⟨.body, k⟩, q) w).1 ≠ .ff := by
  induction w generalizing k q with
  | nil => exact fun h ↦ by cases h
  | cons b w ih =>
    by_cases hlast : (k + (2 ^ 32 - 1)) % 2 ^ 32 = 0
    · have hstep : parserStep (⟨.body, k⟩, q) b =
          (.tt, ⟨.body, 0⟩, { q with content := q.content ++ [b] }) := by
        simp only [parserStep, consume, hlast, if_true]
      rw [feed, hstep]
      exact fun h ↦ by cases h
    · have hstep : parserStep (⟨.body, k⟩, q) b =
          (.indeterminate, ⟨.body, (k + (2 ^ 32 - 1)) % 2 ^ 32⟩,
            { q with content := q.content ++ [b] }) := by
        simp only [parserStep, consume, hlast, if_false]
      rw [feed_cons_of_more hstep]
      exact ih _ _

/-- Behind a head, the only thing that is rejected is a length above the limit. -/
theorem feed_end_eq_ff_iff {n : ℕ} {q : Request} {w : Bytes} :
    (feed parserStep (⟨.expectingNewline3, n⟩, q) (10 :: w)).1 = .ff ↔
      16 * 1024 * 1024 < atoi (q.getHeader (lit "content-length")) := by
  -- the three branches at the end of the empty line
  by_cases hlarge : 16 * 1024 * 1024 < atoi (q.getHeader (lit "content-length"))
  · refine iff_of_true ?_ hlarge
    have hstep : parserStep (⟨.expectingNewline3, n⟩, q) 10 =
        (.ff, ⟨.expectingNewline3, n⟩, q) := by
      simp only [parserStep, consume, if_true]
      rw [if_pos (by omega), if_pos hlarge]
    rw [feed_cons_of_ff hstep]
  · refine iff_of_false ?_ hlarge
    by_cases hpos : 0 < atoi (q.getHeader (lit "content-length"))
    · have hstep : parserStep (⟨.expectingNewline3, n⟩, q) 10 = (.indeterminate,
          ⟨.body, (atoi (q.getHeader (lit "content-length"))).toNat⟩, q) := by
        simp only [parserStep, consume, if_true]
        rw [if_pos hpos, if_neg hlarge]
      rw [feed_cons_of_more hstep]
      exact feed_body_ne_ff _ _ _
    · have hstep : parserStep (⟨.expectingNewline3, n⟩, q) 10 =
          (.tt, ⟨.expectingNewline3, n⟩, q) := by
        simp only [parserStep, consume, if_true]
        rw [if_neg hpos]
      rw [feed, hstep]
      exact fun h ↦ by cases h

/-! ### Streams -/

theorem RequestText.Heads.feed_eq_ff_iff {t : RequestText} {w : Bytes} (ht : t.Heads w) :
    (feed parserStep start w).1 = .ff ↔ 16 * 1024 * 1024 < atoi t.lengthText := by
  obtain ⟨hwf, u, rfl⟩ := ht
  rw [List.append_assoc, feed_head hwf]
  exact feed_end_eq_ff_iff

theorem feed_requestLine {method uri : Bytes} (h : LineWellFormed method uri) (v : Bytes) :
    feed parserStep start (requestLine method uri ++ v) =
      feed parserStep (⟨.httpVersionMajorStart, 0⟩, ⟨method, uri, 0, 0, [], []⟩) v := by
  have htext : requestLine method uri ++ v =
      method ++ 32 :: (uri ++ 32 :: (lit "HTTP/" ++ v)) := by
    simp [requestLine]
  have hmethod := (collects_method (n := 0) (q := .blank)).feed h.method_ne h.method
  have huri := (collects_uri (n := 0) (q := ⟨method, [], 0, 0, [], []⟩)).feed h.uri []
  rw [htext]
  calc feed parserStep start _
      = feed parserStep (⟨.uri, 0⟩, ⟨method, [], 0, 0, [], []⟩) _ := hmethod _
    _ = feed parserStep (⟨.httpVersionH, 0⟩, ⟨method, uri, 0, 0, [], []⟩) _ := huri _
    _ = feed parserStep (⟨.httpVersionMajorStart, 0⟩, ⟨method, uri, 0, 0, [], []⟩) v := feed_http v

/-- Behind digits of the first version number. -/
theorem feed_major {w method uri digits : Bytes} (h : ReachesMajor w method uri digits) :
    feed parserStep start (requestLine method uri ++ digits) = (.indeterminate,
      (⟨.httpVersionMajor, 0⟩, ⟨method, uri, digits.foldl addDigit 0, 0, [], []⟩), []) := by
  have hdigits := (collects_major (n := 0) (q := ⟨method, uri, 0, 0, [], []⟩)).feed_append
    h.numeral.1 h.numeral.2 []
  rw [List.append_nil] at hdigits
  rw [feed_requestLine h.line]
  exact hdigits

/-- Behind digits of the second version number. -/
theorem feed_minor {w method uri major digits : Bytes}
    (h : ReachesMinor w method uri major digits) :
    feed parserStep start (requestLine method uri ++ (major ++ 46 :: digits)) = (.indeterminate,
      (⟨.httpVersionMinor, 0⟩,
        ⟨method, uri, major.foldl addDigit 0, digits.foldl addDigit 0, [], []⟩), []) := by
  have hmajor := (collects_major (n := 0) (q := ⟨method, uri, 0, 0, [], []⟩)).feed
    h.majorNumeral.1 h.majorNumeral.2 digits
  have hdigits := (collects_minor (n := 0)
    (q := ⟨method, uri, major.foldl addDigit 0, 0, [], []⟩)).feed_append h.numeral.1 h.numeral.2 []
  rw [List.append_nil] at hdigits
  rw [feed_requestLine h.line]
  exact hmajor.trans hdigits

theorem RequestText.HeadWellFormed.line {t : RequestText} (ht : t.HeadWellFormed) :
    LineWellFormed t.method t.uri := ⟨ht.method_ne, ht.method, ht.uri⟩

/-- The head of a stream has both version numbers. -/
theorem RequestText.Heads.reaches {t : RequestText} {w : Bytes} (ht : t.Heads w) :
    ReachesMajor w t.method t.uri t.major ∧ ReachesMinor w t.method t.uri t.major t.minor := by
  obtain ⟨hwf, hhead⟩ := ht
  have htext : t.head ++ [10] = requestLine t.method t.uri ++ (t.major ++ 46 :: (t.minor ++
      (13 :: 10 :: ((t.lines.map HeaderLine.text).flatten ++ [13, 10])))) := by
    simp [RequestText.head, requestLine]
  rw [htext] at hhead
  refine ⟨⟨hwf.line, ⟨hwf.major_ne, hwf.major⟩, .trans ?_ hhead⟩,
    ⟨hwf.line, ⟨hwf.major_ne, hwf.major⟩, ⟨hwf.minor_ne, hwf.minor⟩, .trans ?_ hhead⟩⟩
  · exact (List.prefix_append_right_inj _).2 (List.prefix_append _ _)
  · refine (List.prefix_append_right_inj _).2 ((List.prefix_append_right_inj _).2 ?_)
    exact (List.cons_prefix_cons).2 ⟨rfl, List.prefix_append _ _⟩

/-- **When numbers are read at their value**: the digits of a version number, as far as they come,
are below `2 ^ 31 - 48`, and a length is at most 16 MiB or remains above it in an `int`. -/
theorem readsNumbers_iff (w : Bytes) : ReadsNumbers w ↔ NumbersFit w := by
  constructor
  · intro h
    refine ⟨fun method uri digits hd ↦ ?_, fun method uri major digits hd ↦ ?_, fun t ht hnum ↦ ?_⟩
    · exact (noOverflow_iff hd.numeral.1 hd.numeral.2).1 (h.major _ _ _ hd).2
    · exact (noOverflow_iff hd.numeral.1 hd.numeral.2).1 (h.minor _ _ _ _ hd).2
    · rcases le_or_gt (decimalValue t.lengthText) (16 * 1024 * 1024) with hle | hlarge
      · exact Or.inl hle
      · exact Or.inr ((atoi_gt_iff hnum).1 (ht.feed_eq_ff_iff.1 (h.rejected t ht hnum hlarge)))
  · intro h
    refine ⟨?_, ?_, ?_, ?_, ?_⟩
    -- an accepted request: a length beyond the limit would have been refused
    · rintro ⟨p, req⟩ rest hacc hnum
      obtain ⟨t, ht, rfl, rfl⟩ := reads_start_iff.1 ⟨p, hacc⟩
      replace hnum : IsNumeral t.lengthText := hnum
      have hheads : t.Heads (t.text ++ rest) :=
        ⟨ht.head, t.body ++ rest, by rw [t.text_append]; simp⟩
      have hlimit : atoi t.lengthText ≤ 16 * 1024 * 1024 := ht.contentLength_le
      have hbody : (t.body.length : ℤ) = max 0 (atoi t.lengthText) := ht.body
      have hle : decimalValue t.lengthText ≤ 16 * 1024 * 1024 := by
        refine (h.length t hheads hnum).resolve_right fun hlarge ↦ ?_
        exact absurd ((atoi_gt_iff hnum).2 hlarge) (not_lt.2 hlimit)
      rw [atoi_of_le hnum hle] at hbody
      refine ⟨hle, ?_⟩
      show t.body.length = decimalValue t.lengthText
      omega
    · intro t ht hnum hlarge
      have hint := (h.length t ht hnum).resolve_left (not_le.2 hlarge)
      exact ht.feed_eq_ff_iff.2 ((atoi_gt_iff hnum).2 hint)
    · intro method uri digits hd
      have hlt := h.major _ _ _ hd
      rw [feed_major hd]
      exact ⟨foldl_addDigit_of_lt hd.numeral.2 (by omega),
        (noOverflow_iff hd.numeral.1 hd.numeral.2).2 hlt⟩
    · intro method uri major digits hd
      have hlt := h.minor _ _ _ _ hd
      rw [feed_minor hd]
      exact ⟨foldl_addDigit_of_lt hd.numeral.2 (by omega),
        (noOverflow_iff hd.numeral.1 hd.numeral.2).2 hlt⟩
    · intro t ht
      have hhead := feed_head ht.1 []
      rw [List.append_nil] at hhead
      rw [hhead]
      have hmajor := h.major _ _ _ ht.reaches.1
      have hminor := h.minor _ _ _ _ ht.reaches.2
      exact ⟨foldl_addDigit_of_lt ht.1.major (by omega),
        foldl_addDigit_of_lt ht.1.minor (by omega)⟩

/-- A request that announces `2 ^ 32 + 5` bytes. -/
def longRequest : Bytes := lit "PUT / HTTP/1.1\r\nContent-Length: 4294967301\r\n\r\nhello"

/-- It is accepted with the five that are there. -/
theorem not_readsNumbers_longRequest : ¬ReadsNumbers longRequest := by
  intro h
  have hanswer : (feed parserStep start longRequest).1 = .tt := by decide +kernel
  have hlength : (feed parserStep start longRequest).2.1.2.getHeader (lit "content-length") =
      lit "4294967301" := by decide +kernel
  have hnum : IsNumeral (lit "4294967301") := ⟨by decide, by decide +kernel⟩
  have hle := (h.accepted _ _ (accepts_of_feed hanswer) (by rw [hlength]; exact hnum)).1
  rw [hlength] at hle
  exact absurd hle (by decide +kernel)

/-- A stream that breaks off inside its version has overflowed the `int` already. -/
theorem not_readsNumbers_longVersion : ¬ReadsNumbers (lit "GET / HTTP/4294967296.1\r\n") := by
  intro h
  have hline : LineWellFormed (lit "GET") (lit "/") :=
    ⟨by decide, by decide +kernel, by decide +kernel⟩
  have hnum : IsNumeral (lit "4294967296") := ⟨by decide, by decide +kernel⟩
  have hmajor := h.major (lit "GET") (lit "/") (lit "4294967296")
    ⟨hline, hnum, ⟨lit ".1\r\n", by decide +kernel⟩⟩
  have hfits := (noOverflow_iff hnum.1 hnum.2).1 hmajor.2
  exact absurd hfits (by decide +kernel)

/-! ### What arrives of a request -/

/-- What a connection makes of a request that announces the length of its content: it is refused,
or handled with as much of the content as is left of the length in an `int`. -/
def Request.received (req : Request) : Option Request :=
  let clen := atoi (decimal req.content.length)
  if clen > 16 * 1024 * 1024 then none
  else some { req with content := req.content.take clen.toNat }

theorem isNumeral_decimal (n : ℕ) : IsNumeral (decimal n) :=
  ⟨decimal_ne_nil n, fun _ hb ↦ isDigit_of_mem_decimal hb⟩

theorem atoi_decimal_le (n : ℕ) : atoi (decimal n) ≤ n := by
  rw [atoi, strtol_of_isNumeral (isNumeral_decimal n), decimalValue_decimal, int32, Int.bmod_def]
  omega

/-- **The parser's part in it**: of a text whose `content-length` is the length of its body, the
parser makes what is received. -/
theorem received_eq_some_iff {t : RequestText} (ht : t.HeadWellFormed)
    (hlen : t.lengthText = decimal t.body.length) {req : Request} :
    t.request.received = some req ↔
      ∃ p rest, Accepts parserStep start t.text (p, req) rest := by
  have hclen : atoi (t.request.getHeader (lit "content-length")) =
      atoi (decimal t.body.length) := congrArg atoi hlen
  have hle := atoi_decimal_le t.body.length
  have hhead : ∀ p rest, Accepts parserStep start t.text (p, req) rest ↔
      Accepts parserStep (⟨.expectingNewline3, 0⟩, { t.request with content := [] })
        (10 :: t.body) (p, req) rest := by
    intro p rest
    have hfeed := feed_head ht (10 :: t.body)
    have htext := t.text_append []
    rw [List.append_nil, List.append_nil] at htext
    rw [Accepts, htext, hfeed]
    rfl
  simp only [hhead]
  rw [exists_comm]
  simp only [accepts_end, hclen, Request.received]
  show (if atoi (decimal t.body.length) > 16 * 1024 * 1024 then none else some
    { t.request with content := t.body.take (atoi (decimal t.body.length)).toNat }) = some req ↔ _
  constructor
  · intro h
    split_ifs at h with hlarge
    refine ⟨t.body.drop (atoi (decimal t.body.length)).toNat, _, ?_, not_lt.1 hlarge, ?_,
      (Option.some.inj h).symm⟩
    · rw [List.take_append_drop]
    · rw [List.length_take]
      omega
  · rintro ⟨rest, body, htext, hlimit, hbody, rfl⟩
    have hsplit : t.body = body ++ rest := List.tail_eq_of_cons_eq htext
    rw [if_neg (not_lt.2 hlimit)]
    have htake : t.body.take (atoi (decimal t.body.length)).toNat = body := by
      rw [hsplit] at hbody ⊢
      exact List.take_left' (by omega)
    rw [htake]

/-- Up to 16 MiB a request arrives as it was sent. -/
theorem received_of_le {req : Request} (h : req.content.length ≤ 16 * 1024 * 1024) :
    req.received = some req := by
  have hclen : atoi (decimal req.content.length) = req.content.length := by
    rw [atoi_of_le (isNumeral_decimal _) (by rwa [decimalValue_decimal]), decimalValue_decimal]
  rw [Request.received, hclen]
  simp only [Int.toNat_natCast, List.take_length]
  rw [if_neg (by omega)]

/-- Of a longer one nothing arrives, or much less than was sent. -/
theorem received_of_gt {req : Request} (h : 16 * 1024 * 1024 < req.content.length) :
    req.received = none ∨ ∃ n, n + 16 * 1024 * 1024 < req.content.length ∧
      req.received = some { req with content := req.content.take n } := by
  rw [Request.received]
  by_cases hlarge : atoi (decimal req.content.length) > 16 * 1024 * 1024
  · exact Or.inl (if_pos hlarge)
  · refine Or.inr ⟨_, ?_, if_neg hlarge⟩
    rw [atoi, strtol_of_isNumeral (isNumeral_decimal _), decimalValue_decimal, int32,
      Int.bmod_def] at hlarge ⊢
    omega

end Camlispp.Http
