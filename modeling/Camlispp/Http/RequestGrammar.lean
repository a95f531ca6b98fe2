import Mathlib.Data.List.ModifyLast
import Camlispp.Http.RequestParser

/-!
# The grammar of requests

What the parser accepts, said without the parser: a `RequestText` is a request in its parts, with
the text they make and the request that is read from them. A header may be folded over several
lines; the continuation is appended to its value without the blanks in front of it.

The parser is then matched with the grammar piece by piece. One lemma says how the run goes on
behind the piece (`feed_line`, and the fields `feed` of the loops), another that an accepted input
begins with one (`exists_line_of_accepts`, and the fields `accepts_iff`); `feed_head` and
`reads_start_iff` put them together, and `calls_spec` says what a connection does with a stream that
arrives in any pieces.

## What each result rests on

* `reads_start_iff` is an equivalence, so the grammar is no bigger and no smaller than what the
  parser takes. Its two directions are the `feed` lemmas and the `exists_..._of_accepts` lemmas.
* That a stream has at most one reading (`RequestText.text_unique`) rests on the parser being a
  machine: it gives one answer (`Accepts.unique`), so the grammar needs no argument of its own.
* `calls_spec` adds the reads: `calls_eq_readAll` says that a connection reads as `readAll` does,
  and `readAll_eq_some_iff` that the cuts between the reads do not matter.

The length of the content is what `atoi` makes of the first `content-length`, as in the source. What
goes wrong in it is the matter of `Numbers`.
-/

open Bytes Machine

namespace Camlispp.Http

/-! ### The grammar -/

/-- A control byte. -/
def isControl (b : UInt8) : Bool := b ≤ 31 || b = 127

/-- A byte of a method or of a header name: 7-bit, no control byte, no tspecial. -/
def isTokenByte (b : UInt8) : Bool := b < 128 && !isControl b && !tspecials.contains b

/-- A line between the request line and the empty line. -/
inductive HeaderLine
  /-- A header begins. -/
  | field (name value : Bytes)
  /-- The header before goes on. -/
  | folded (blanks value : Bytes)

namespace HeaderLine

/-- The line as it is sent. -/
def text : HeaderLine → Bytes
  | field name value => name ++ 58 :: 32 :: (value ++ crlf)
  | folded blanks value => blanks ++ (value ++ crlf)

/-- The bytes a line may have. What is folded does not begin with a blank. -/
def WellFormed : HeaderLine → Prop
  | field name value =>
    name ≠ [] ∧ (∀ b ∈ name, isTokenByte b = true) ∧ ∀ b ∈ value, isControl b = false
  | folded blanks value =>
    blanks ≠ [] ∧ (∀ b ∈ blanks, b = 32 ∨ b = 9) ∧ (∀ b ∈ value, isControl b = false) ∧
      value.head? ≠ some 32

instance : DecidablePred WellFormed
  | field name value => inferInstanceAs
      (Decidable (name ≠ [] ∧ (∀ b ∈ name, isTokenByte b = true) ∧
        ∀ b ∈ value, isControl b = false))
  | folded blanks value => inferInstanceAs
      (Decidable (blanks ≠ [] ∧ (∀ b ∈ blanks, b = 32 ∨ b = 9) ∧
        (∀ b ∈ value, isControl b = false) ∧ value.head? ≠ some 32))

/-- A header begins. -/
def IsField : HeaderLine → Prop
  | field _ _ => True
  | folded _ _ => False

/-- The headers with another line. -/
def addTo (headers : List Header) : HeaderLine → List Header
  | field name value => headers ++ [⟨lower name, value⟩]
  | folded _ value => headers.modifyLast fun h ↦ { h with value := h.value ++ value }

end HeaderLine

/-- A request in its parts. -/
structure RequestText where
  method : Bytes
  uri : Bytes
  major : Bytes
  minor : Bytes
  lines : List HeaderLine
  body : Bytes

namespace RequestText

variable (t : RequestText)

/-- The request as it is sent. -/
def text : Bytes :=
  t.method ++ 32 :: (t.uri ++ 32 :: (lit "HTTP/" ++ (t.major ++ 46 :: (t.minor ++ crlf ++
    ((t.lines.map HeaderLine.text).flatten ++ crlf ++ t.body)))))

/-- The headers of the request, with lower-case names. -/
def headers : List Header := t.lines.foldl HeaderLine.addTo []

/-- The request that is read. A version number is kept in an `int`. -/
def request : Request where
  method := t.method
  uri := t.uri
  httpVersionMajor := t.major.foldl addDigit 0
  httpVersionMinor := t.minor.foldl addDigit 0
  headers := t.headers
  content := t.body

/-- The length of the body, as the first header `content-length` has it. -/
def contentLength : ℤ := atoi (t.request.getHeader (lit "content-length"))

/-- A request of the grammar. -/
structure WellFormed : Prop where
  method_ne : t.method ≠ []
  method : ∀ b ∈ t.method, isTokenByte b = true
  uri : ∀ b ∈ t.uri, b ≠ 32 ∧ isControl b = false
  major_ne : t.major ≠ []
  major : ∀ b ∈ t.major, isDigit b = true
  minor_ne : t.minor ≠ []
  minor : ∀ b ∈ t.minor, isDigit b = true
  lines : ∀ l ∈ t.lines, l.WellFormed
  /-- Only a header that has begun can go on. -/
  first : ∀ l, t.lines.head? = some l → l.IsField
  contentLength_le : t.contentLength ≤ 16 * 1024 * 1024
  body : (t.body.length : ℤ) = max 0 t.contentLength

end RequestText

/-! ### Bytes and characters -/

theorem isChar_signedChar (b : UInt8) : isChar (signedChar b) = decide (b < 128) := by
  have hb := b.toNat_lt
  by_cases h : b < 128
  · have h' : b.toNat < 128 := UInt8.lt_iff_toNat_lt.1 h
    simp only [isChar, signedChar, h, if_true, decide_true, Bool.and_eq_true, decide_eq_true_eq]
    omega
  · simp only [isChar, signedChar, h, if_false, decide_false, Bool.and_eq_false_iff,
      decide_eq_false_iff_not]
    omega

theorem isCtl_signedChar (b : UInt8) : isCtl (signedChar b) = isControl b := by
  have hb := b.toNat_lt
  rw [Bool.eq_iff_iff]
  simp only [isCtl, isControl, signedChar, Bool.or_eq_true, Bool.and_eq_true, decide_eq_true_eq,
    UInt8.le_iff_toNat_le, ← UInt8.toNat_inj, UInt8.lt_iff_toNat_lt]
  split_ifs with h
  · have : (128 : UInt8).toNat = 128 := rfl
    have : (31 : UInt8).toNat = 31 := rfl
    have : (127 : UInt8).toNat = 127 := rfl
    omega
  · have : (128 : UInt8).toNat = 128 := rfl
    have : (31 : UInt8).toNat = 31 := rfl
    have : (127 : UInt8).toNat = 127 := rfl
    omega

theorem isDigitChar_signedChar (b : UInt8) : isDigitChar (signedChar b) = isDigit b := by
  have hb := b.toNat_lt
  rw [Bool.eq_iff_iff]
  simp only [isDigitChar, isDigit, signedChar, Bool.and_eq_true, decide_eq_true_eq,
    UInt8.le_iff_toNat_le, UInt8.lt_iff_toNat_lt]
  have : (128 : UInt8).toNat = 128 := rfl
  have : (48 : UInt8).toNat = 48 := rfl
  have : (57 : UInt8).toNat = 57 := rfl
  split_ifs with h
  · omega
  · omega

/-- The three tests on a token byte. -/
theorem token_test (b : UInt8) :
    (!isChar (signedChar b) || isCtl (signedChar b) || isTspecial (signedChar b)) =
      !isTokenByte b := by
  rw [isChar_signedChar, isCtl_signedChar, isTokenByte]
  by_cases h : b < 128
  · have hspecial : isTspecial (signedChar b) = tspecials.contains b := by
      rw [Bool.eq_iff_iff, isTspecial, List.any_eq_true, List.contains_iff_mem]
      simp only [signedChar, h, if_true, decide_eq_true_eq, Nat.cast_inj, UInt8.toNat_inj]
      exact ⟨fun ⟨t, ht, hb⟩ ↦ hb ▸ ht, fun hb ↦ ⟨b, hb, rfl⟩⟩
    rw [hspecial]
    simp [h, Bool.not_and]
  · simp [h]

/-! ### The request line -/

section Pieces

variable {n : ℕ} {q : Request} {w rest : Bytes} {s' : RequestParser × Request}

theorem collects_method :
    CollectsSome parserStep (⟨.methodStart, n⟩, { q with method := [] })
      (fun t ↦ (⟨.method, n⟩, { q with method := t }))
      (fun t ↦ (⟨.uri, n⟩, { q with method := t })) (fun b ↦ isTokenByte b = true) 32 where
  delimiter := by decide
  first b hb := by simp [parserStep, consume, token_test, hb]
  none b hb := by simp [parserStep, consume, token_test, hb]
  exit t := rfl
  push t b hne hb := by simp [parserStep, consume, token_test, hb, hne]
  fail t b hne hb := by simp [parserStep, consume, token_test, hb, hne]

theorem collects_uri :
    Collects parserStep (fun t ↦ (⟨.uri, n⟩, { q with uri := t }))
      (fun t ↦ (⟨.httpVersionH, n⟩, { q with uri := t })) (fun b ↦ isControl b = false) 32 where
  exit t := rfl
  push t b hne hb := by simp [parserStep, consume, isCtl_signedChar, hb, hne]
  fail t b hne hb := by simp [parserStep, consume, isCtl_signedChar, hb, hne]

theorem feed_http (v : Bytes) :
    feed parserStep (⟨.httpVersionH, n⟩, q) (lit "HTTP/" ++ v) =
      feed parserStep (⟨.httpVersionMajorStart, n⟩,
        { q with httpVersionMajor := 0, httpVersionMinor := 0 }) v := rfl

theorem accepts_http :
    Accepts parserStep (⟨.httpVersionH, n⟩, q) w s' rest ↔
      ∃ v, w = lit "HTTP/" ++ v ∧ Accepts parserStep (⟨.httpVersionMajorStart, n⟩,
        { q with httpVersionMajor := 0, httpVersionMinor := 0 }) v s' rest := by
  -- one state for each letter
  have hH := fun w ↦ (accepts_expect 72 rfl fun b hb ↦ by simp [parserStep, consume, hb] :
    Accepts parserStep (⟨.httpVersionH, n⟩, q) w s' rest ↔ _)
  have hT := fun w ↦ (accepts_expect 84 rfl fun b hb ↦ by simp [parserStep, consume, hb] :
    Accepts parserStep (⟨.httpVersionT1, n⟩, q) w s' rest ↔ _)
  have hT' := fun w ↦ (accepts_expect 84 rfl fun b hb ↦ by simp [parserStep, consume, hb] :
    Accepts parserStep (⟨.httpVersionT2, n⟩, q) w s' rest ↔ _)
  have hP := fun w ↦ (accepts_expect 80 rfl fun b hb ↦ by simp [parserStep, consume, hb] :
    Accepts parserStep (⟨.httpVersionP, n⟩, q) w s' rest ↔ _)
  have hslash := fun w ↦ (accepts_expect 47 rfl fun b hb ↦ by simp [parserStep, consume, hb] :
    Accepts parserStep (⟨.httpVersionSlash, n⟩, q) w s' rest ↔ _)
  constructor
  · intro h
    obtain ⟨w₁, rfl, h⟩ := (hH w).1 h
    obtain ⟨w₂, rfl, h⟩ := (hT w₁).1 h
    obtain ⟨w₃, rfl, h⟩ := (hT' w₂).1 h
    obtain ⟨w₄, rfl, h⟩ := (hP w₃).1 h
    obtain ⟨v, rfl, h⟩ := (hslash w₄).1 h
    exact ⟨v, rfl, h⟩
  · rintro ⟨v, rfl, h⟩
    rw [Accepts, feed_http]
    exact h

theorem collects_major :
    CollectsSome parserStep (⟨.httpVersionMajorStart, n⟩, { q with httpVersionMajor := 0 })
      (fun t ↦ (⟨.httpVersionMajor, n⟩, { q with httpVersionMajor := t.foldl addDigit 0 }))
      (fun t ↦ (⟨.httpVersionMinorStart, n⟩, { q with httpVersionMajor := t.foldl addDigit 0 }))
      (fun b ↦ isDigit b = true) 46 where
  delimiter := by decide
  first b hb := by simp [parserStep, consume, isDigitChar_signedChar, hb]
  none b hb := by simp [parserStep, consume, isDigitChar_signedChar, hb]
  exit t := rfl
  push t b hne hb := by simp [parserStep, consume, isDigitChar_signedChar, hb, hne]
  fail t b hne hb := by simp [parserStep, consume, isDigitChar_signedChar, hb, hne]

theorem collects_minor :
    CollectsSome parserStep (⟨.httpVersionMinorStart, n⟩, { q with httpVersionMinor := 0 })
      (fun t ↦ (⟨.httpVersionMinor, n⟩, { q with httpVersionMinor := t.foldl addDigit 0 }))
      (fun t ↦ (⟨.expectingNewline1, n⟩, { q with httpVersionMinor := t.foldl addDigit 0 }))
      (fun b ↦ isDigit b = true) 13 where
  delimiter := by decide
  first b hb := by simp [parserStep, consume, isDigitChar_signedChar, hb]
  none b hb := by simp [parserStep, consume, isDigitChar_signedChar, hb]
  exit t := rfl
  push t b hne hb := by simp [parserStep, consume, isDigitChar_signedChar, hb, hne]
  fail t b hne hb := by simp [parserStep, consume, isDigitChar_signedChar, hb, hne]

theorem accepts_newline1 :
    Accepts parserStep (⟨.expectingNewline1, n⟩, q) w s' rest ↔
      ∃ v, w = 10 :: v ∧ Accepts parserStep (⟨.headerLineStart, n⟩, q) v s' rest :=
  accepts_expect 10 rfl fun b hb ↦ by simp [parserStep, consume, hb]

/-! ### Header lines -/

variable {hs : List Header}

theorem collects_value {name : Bytes} :
    Collects parserStep (fun t ↦ (⟨.headerValue, n⟩, { q with headers := hs ++ [⟨name, t⟩] }))
      (fun t ↦ (⟨.expectingNewline2, n⟩, { q with headers := hs ++ [⟨name, t⟩] }))
      (fun b ↦ isControl b = false) 13 where
  exit t := rfl
  push t b hne hb := by
    simp [parserStep, consume, isCtl_signedChar, hb, hne, Request.valueBack,
      List.modifyLast_concat]
  fail t b hne hb := by simp [parserStep, consume, isCtl_signedChar, hb, hne]

/-- The value of the last header, to the end of its line. -/
theorem feed_value {name t u : Bytes} (hu : ∀ b ∈ u, isControl b = false) (v : Bytes) :
    feed parserStep (⟨.headerValue, n⟩, { q with headers := hs ++ [⟨name, t⟩] }) (u ++ crlf ++ v) =
      feed parserStep (⟨.headerLineStart, n⟩, { q with headers := hs ++ [⟨name, t ++ u⟩] }) v := by
  have hu' : ∀ b ∈ u, b ≠ 13 ∧ isControl b = false := by
    refine fun b hb ↦ ⟨?_, hu b hb⟩
    rintro rfl
    exact absurd (hu _ hb) (by decide)
  rw [List.append_assoc]
  exact (collects_value.feed hu' t (10 :: v)).trans (feed_cons_of_more rfl)

theorem exists_value_of_accepts {name t : Bytes}
    (h : Accepts parserStep (⟨.headerValue, n⟩, { q with headers := hs ++ [⟨name, t⟩] }) w s'
      rest) :
    ∃ u v, w = u ++ crlf ++ v ∧ (∀ b ∈ u, isControl b = false) ∧
      Accepts parserStep (⟨.headerLineStart, n⟩,
        { q with headers := hs ++ [⟨name, t ++ u⟩] }) v s' rest := by
  obtain ⟨u, v, rfl, hu, hv⟩ := (collects_value.accepts_iff t).1 h
  obtain ⟨v, rfl, hv⟩ := (accepts_expect 10 rfl fun b hb ↦ by simp [parserStep, consume, hb] :
    Accepts parserStep (⟨.expectingNewline2, n⟩, { q with headers := hs ++ [⟨name, t ++ u⟩] }) v s'
      rest ↔ _).1 hv
  exact ⟨u, v, by simp [crlf], fun b hb ↦ (hu b hb).2, hv⟩

/-- Behind the blanks of a folded line, the parser does what it does in a value. -/
theorem feed_lws_eq_feed_value {b : UInt8} (hspace : b ≠ 32) (htab : b ≠ 9)
    (hb : b = 13 ∨ isControl b = false) :
    feed parserStep (⟨.headerLws, n⟩, q) (b :: w) =
      feed parserStep (⟨.headerValue, n⟩, q) (b :: w) := by
  by_cases hcr : b = 13
  · subst hcr
    rfl
  · have hctl := hb.resolve_left hcr
    have hlws : parserStep (⟨.headerLws, n⟩, q) b =
        (.indeterminate, ⟨.headerValue, n⟩, q.valueBack b) := by
      simp [parserStep, consume, isCtl_signedChar, hctl, hcr, hspace, htab]
    have hvalue : parserStep (⟨.headerValue, n⟩, q) b =
        (.indeterminate, ⟨.headerValue, n⟩, q.valueBack b) := by
      simp [parserStep, consume, isCtl_signedChar, hctl, hcr]
    rw [feed_cons_of_more hlws, feed_cons_of_more hvalue]

theorem parserStep_blank {b : UInt8} (hb : b = 32 ∨ b = 9) (q : Request) :
    parserStep (⟨.headerLws, n⟩, q) b = (.indeterminate, ⟨.headerLws, n⟩, q) := by
  rcases hb with rfl | rfl
  · rfl
  · rfl

/-- The rest of a folded line. -/
theorem feed_lws {name t blanks u : Bytes} (hblanks : ∀ b ∈ blanks, b = 32 ∨ b = 9)
    (hu : ∀ b ∈ u, isControl b = false) (hhead : u.head? ≠ some 32) (v : Bytes) :
    feed parserStep (⟨.headerLws, n⟩, { q with headers := hs ++ [⟨name, t⟩] })
        (blanks ++ (u ++ crlf) ++ v) =
      feed parserStep (⟨.headerLineStart, n⟩, { q with headers := hs ++ [⟨name, t ++ u⟩] }) v := by
  induction blanks with
  | nil =>
    rw [List.nil_append, ← feed_value hu v]
    rcases u with - | ⟨b, u⟩
    · exact feed_lws_eq_feed_value (by decide) (by decide) (Or.inl rfl)
    · have htab : b ≠ 9 := by
        rintro rfl
        exact absurd (hu 9 (by simp)) (by decide)
      exact feed_lws_eq_feed_value (by simpa using hhead) htab (Or.inr (hu b (by simp)))
  | cons b blanks ih =>
    obtain ⟨hb, hblanks⟩ := List.forall_mem_cons.1 hblanks
    rw [List.cons_append, List.cons_append, feed_cons_of_more (parserStep_blank hb _), ih hblanks]

theorem exists_lws_of_accepts {name t : Bytes}
    (h : Accepts parserStep (⟨.headerLws, n⟩, { q with headers := hs ++ [⟨name, t⟩] }) w s' rest) :
    ∃ blanks u v, w = blanks ++ (u ++ crlf) ++ v ∧ (∀ b ∈ blanks, b = 32 ∨ b = 9) ∧
      (∀ b ∈ u, isControl b = false) ∧ u.head? ≠ some 32 ∧
      Accepts parserStep (⟨.headerLineStart, n⟩,
        { q with headers := hs ++ [⟨name, t ++ u⟩] }) v s' rest := by
  induction w with
  | nil => exact absurd h not_accepts_nil
  | cons b w ih =>
    by_cases hb : b = 32 ∨ b = 9
    · obtain ⟨blanks, u, v, rfl, hblanks, hrest⟩ :=
        ih ((accepts_cons_of_more (parserStep_blank hb _)).1 h)
      exact ⟨b :: blanks, u, v, rfl, List.forall_mem_cons.2 ⟨hb, hblanks⟩, hrest⟩
    obtain ⟨hspace, htab⟩ := not_or.1 hb
    by_cases hctl : b = 13 ∨ isControl b = false
    · rw [Accepts, feed_lws_eq_feed_value hspace htab hctl] at h
      obtain ⟨u, v, hw, hu, hv⟩ := exists_value_of_accepts h
      refine ⟨[], u, v, hw, by simp, hu, ?_, hv⟩
      -- the first byte of the value is the byte that ended the blanks
      rcases u with - | ⟨b', u⟩
      · simp
      · obtain ⟨rfl, -⟩ := List.cons_eq_cons.1 hw
        simpa using hspace
    · obtain ⟨hcr, hctl⟩ := not_or.1 hctl
      refine absurd h (not_accepts_cons_of_ff ?_)
      simp [parserStep, consume, isCtl_signedChar, hctl, hcr, hspace, htab]

theorem collects_name :
    Collects parserStep
      (fun t ↦ (⟨.headerName, n⟩, { q with headers := hs ++ [⟨lower t, []⟩] }))
      (fun t ↦ (⟨.spaceBeforeHeaderValue, n⟩, { q with headers := hs ++ [⟨lower t, []⟩] }))
      (fun b ↦ isTokenByte b = true) 58 where
  exit t := rfl
  push t b hne hb := by
    simp [parserStep, consume, token_test, hb, hne, Request.nameBack, List.modifyLast_concat,
      lower]
  fail t b hne hb := by simp [parserStep, consume, token_test, hb, hne]

/-- The first byte of a name. -/
theorem parserStep_name {b : UInt8} (hb : isTokenByte b = true) :
    parserStep (⟨.headerLineStart, n⟩, { q with headers := hs }) b =
      (.indeterminate, ⟨.headerName, n⟩, { q with headers := hs ++ [⟨lower [b], []⟩] }) := by
  have hcr : b ≠ 13 := by
    rintro rfl
    exact absurd hb (by decide)
  have hblank : ¬(b = 32 ∨ b = 9) := by
    rintro (rfl | rfl)
    · exact absurd hb (by decide)
    · exact absurd hb (by decide)
  simp [parserStep, consume, token_test, hb, hcr, hblank, Request.nameBack,
    List.modifyLast_concat, lower]

/-- The first byte of a line that goes on with the last header. -/
theorem parserStep_fold (hne : hs ≠ []) {b : UInt8} (hb : b = 32 ∨ b = 9) :
    parserStep (⟨.headerLineStart, n⟩, { q with headers := hs }) b =
      (.indeterminate, ⟨.headerLws, n⟩, { q with headers := hs }) := by
  rcases hb with rfl | rfl
  · simp [parserStep, consume, hne]
  · simp [parserStep, consume, hne]

/-- **One line.** -/
theorem feed_line {l : HeaderLine} (hl : l.WellFormed) (hfirst : hs = [] → l.IsField) (v : Bytes) :
    feed parserStep (⟨.headerLineStart, n⟩, { q with headers := hs }) (l.text ++ v) =
      feed parserStep (⟨.headerLineStart, n⟩, { q with headers := l.addTo hs }) v := by
  cases l with
  | field name value =>
    obtain ⟨hne, hname, hvalue⟩ := hl
    obtain ⟨b, u, rfl⟩ := List.exists_cons_of_ne_nil hne
    obtain ⟨hb, hu⟩ := List.forall_mem_cons.1 hname
    have hu' : ∀ b ∈ u, b ≠ 58 ∧ isTokenByte b = true := by
      refine fun b hb ↦ ⟨?_, hu b hb⟩
      rintro rfl
      exact absurd (hu _ hb) (by decide)
    have htext : HeaderLine.text (.field (b :: u) value) ++ v =
        b :: (u ++ 58 :: (32 :: (value ++ crlf ++ v))) := by simp [HeaderLine.text]
    rw [htext, feed_cons_of_more (parserStep_name hb)]
    exact ((collects_name.feed hu' [b] _).trans (feed_cons_of_more rfl)).trans (feed_value hvalue v)
  | folded blanks value =>
    obtain ⟨hne, hblanks, hvalue, hhead⟩ := hl
    obtain ⟨b, u, rfl⟩ := List.exists_cons_of_ne_nil hne
    obtain ⟨hb, hu⟩ := List.forall_mem_cons.1 hblanks
    -- a folded line continues the last header, so there is one
    have hsome : hs ≠ [] := fun hnil ↦ hfirst hnil
    have htext : HeaderLine.text (.folded (b :: u) value) ++ v =
        b :: (u ++ (value ++ crlf) ++ v) := by simp [HeaderLine.text]
    rw [htext, feed_cons_of_more (parserStep_fold hsome hb)]
    obtain ⟨hs, ⟨name, t⟩, rfl⟩ := (List.eq_nil_or_concat hs).resolve_left hsome
    simp only [HeaderLine.addTo, List.concat_eq_append, List.modifyLast_concat]
    exact feed_lws hu hvalue hhead v

/-- A header that begins, from the first byte of its name. -/
theorem exists_field_of_accepts {b : UInt8} (hb : isTokenByte b = true)
    (h : Accepts parserStep (⟨.headerLineStart, n⟩, { q with headers := hs }) (b :: w) s' rest) :
    ∃ name value v, b :: w = HeaderLine.text (.field name value) ++ v ∧
      HeaderLine.WellFormed (.field name value) ∧
      Accepts parserStep (⟨.headerLineStart, n⟩,
        { q with headers := HeaderLine.addTo hs (.field name value) }) v s' rest := by
  rw [accepts_cons_of_more (parserStep_name hb)] at h
  obtain ⟨u, v, rfl, hu, h⟩ := (collects_name.accepts_iff [b]).1 h
  obtain ⟨v, rfl, h⟩ := (accepts_expect 32 rfl fun b hb ↦ by simp [parserStep, consume, hb] :
    Accepts parserStep (⟨.spaceBeforeHeaderValue, n⟩,
      { q with headers := hs ++ [⟨lower ([b] ++ u), []⟩] }) v s' rest ↔ _).1 h
  obtain ⟨value, v, rfl, hvalue, h⟩ := exists_value_of_accepts h
  exact ⟨b :: u, value, v, by simp [HeaderLine.text],
    ⟨by simp, List.forall_mem_cons.2 ⟨hb, fun c hc ↦ (hu c hc).2⟩, hvalue⟩, h⟩

/-- A line that goes on with the last header, from its first blank. -/
theorem exists_folded_of_accepts (hne : hs ≠ []) {b : UInt8} (hb : b = 32 ∨ b = 9)
    (h : Accepts parserStep (⟨.headerLineStart, n⟩, { q with headers := hs }) (b :: w) s' rest) :
    ∃ blanks value v, b :: w = HeaderLine.text (.folded blanks value) ++ v ∧
      HeaderLine.WellFormed (.folded blanks value) ∧
      Accepts parserStep (⟨.headerLineStart, n⟩,
        { q with headers := HeaderLine.addTo hs (.folded blanks value) }) v s' rest := by
  rw [accepts_cons_of_more (parserStep_fold hne hb)] at h
  obtain ⟨hs, ⟨name, t⟩, rfl⟩ := (List.eq_nil_or_concat hs).resolve_left hne
  simp only [HeaderLine.addTo, List.concat_eq_append, List.modifyLast_concat] at h ⊢
  obtain ⟨blanks, value, v, rfl, hblanks, hvalue, hhead, h⟩ := exists_lws_of_accepts h
  exact ⟨b :: blanks, value, v, by simp [HeaderLine.text],
    ⟨by simp, List.forall_mem_cons.2 ⟨hb, hblanks⟩, hvalue, hhead⟩, h⟩

/-- A line, or the end of the header. -/
theorem exists_line_of_accepts
    (h : Accepts parserStep (⟨.headerLineStart, n⟩, { q with headers := hs }) w s' rest) :
    (∃ v, w = 13 :: v ∧
        Accepts parserStep (⟨.expectingNewline3, n⟩, { q with headers := hs }) v s' rest) ∨
      ∃ (l : HeaderLine) (v : Bytes), w = l.text ++ v ∧ l.WellFormed ∧ (hs = [] → l.IsField) ∧
        Accepts parserStep (⟨.headerLineStart, n⟩, { q with headers := l.addTo hs }) v s' rest := by
  rcases w with - | ⟨b, w⟩
  · exact absurd h not_accepts_nil
  by_cases hcr : b = 13
  · subst hcr
    have hend : parserStep (⟨.headerLineStart, n⟩, { q with headers := hs }) 13 =
      (.indeterminate, ⟨.expectingNewline3, n⟩, { q with headers := hs }) := rfl
    exact .inl ⟨w, rfl, (accepts_cons_of_more hend).1 h⟩
  by_cases htoken : isTokenByte b = true
  · obtain ⟨name, value, v, hw, hwf, h⟩ := exists_field_of_accepts htoken h
    exact .inr ⟨.field name value, v, hw, hwf, fun _ ↦ trivial, h⟩
  by_cases hfold : hs ≠ [] ∧ (b = 32 ∨ b = 9)
  · obtain ⟨blanks, value, v, hw, hwf, h⟩ := exists_folded_of_accepts hfold.1 hfold.2 h
    exact .inr ⟨.folded blanks value, v, hw, hwf, fun hnil ↦ absurd hnil hfold.1, h⟩
  · refine absurd h (not_accepts_cons_of_ff ?_)
    simp only [parserStep, consume, if_neg hcr, token_test]
    rw [if_neg (by simpa using hfold), if_pos (by simpa using htoken)]

theorem HeaderLine.addTo_ne_nil {l : HeaderLine} (h : hs = [] → l.IsField) : l.addTo hs ≠ [] := by
  cases l with
  | field name value => simp [HeaderLine.addTo]
  | folded blanks value =>
    obtain ⟨hs, h', rfl⟩ := (List.eq_nil_or_concat hs).resolve_left h
    simp [HeaderLine.addTo, List.modifyLast_concat]

theorem HeaderLine.text_ne_nil {l : HeaderLine} : l.text ≠ [] := by
  cases l with
  | field name value => simp [HeaderLine.text]
  | folded blanks value => simp [HeaderLine.text, crlf]

/-- **The lines of the header.** The headers so far say whether a line may be folded. -/
theorem feed_lines {lines : List HeaderLine} (hlines : ∀ l ∈ lines, l.WellFormed)
    (hfirst : hs = [] → ∀ l, lines.head? = some l → l.IsField) (v : Bytes) :
    feed parserStep (⟨.headerLineStart, n⟩, { q with headers := hs })
        ((lines.map HeaderLine.text).flatten ++ 13 :: v) =
      feed parserStep (⟨.expectingNewline3, n⟩,
        { q with headers := lines.foldl HeaderLine.addTo hs }) v := by
  induction lines generalizing hs with
  | nil => exact feed_cons_of_more rfl
  | cons l lines ih =>
    obtain ⟨hwf, hlines⟩ := List.forall_mem_cons.1 hlines
    have hfirst' : hs = [] → l.IsField := fun hnil ↦ hfirst hnil l rfl
    rw [List.map_cons, List.flatten_cons, List.append_assoc, feed_line hwf hfirst']
    exact ih hlines fun hnil ↦ absurd hnil (HeaderLine.addTo_ne_nil hfirst')

theorem exists_lines_of_accepts
    (h : Accepts parserStep (⟨.headerLineStart, n⟩, { q with headers := hs }) w s' rest) :
    ∃ (lines : List HeaderLine) (v : Bytes), w = (lines.map HeaderLine.text).flatten ++ 13 :: v ∧
      (∀ l ∈ lines, l.WellFormed) ∧ (hs = [] → ∀ l, lines.head? = some l → l.IsField) ∧
      Accepts parserStep (⟨.expectingNewline3, n⟩,
        { q with headers := lines.foldl HeaderLine.addTo hs }) v s' rest := by
  -- every line takes something off the input, so the input is what gets smaller
  induction hlen : w.length using Nat.strong_induction_on generalizing w hs with
  | _ k ih =>
    obtain ⟨v, rfl, h⟩ | ⟨l, v, rfl, hwf, hfirst, h⟩ := exists_line_of_accepts h
    · exact ⟨[], v, rfl, by simp, by simp, h⟩
    · have hlt : v.length < k := by
        have := List.length_pos_of_ne_nil l.text_ne_nil
        rw [List.length_append] at hlen
        omega
      obtain ⟨lines, v, rfl, hlines, -, h⟩ := ih v.length hlt h rfl
      refine ⟨l :: lines, v, by simp, List.forall_mem_cons.2 ⟨hwf, hlines⟩, ?_, h⟩
      rintro hnil _ ⟨⟩
      exact hfirst hnil

/-! ### The body -/

/-- The rest of the body, with the bytes that are still to come counted down. -/
theorem accepts_body {k : ℕ} (hpos : 0 < k) (hk : k < 2 ^ 32) :
    Accepts parserStep (⟨.body, k⟩, q) w s' rest ↔
      ∃ body, w = body ++ rest ∧ body.length = k ∧
        s' = (⟨.body, 0⟩, { q with content := q.content ++ body }) := by
  induction k generalizing q w with
  | zero => exact absurd hpos (lt_irrefl 0)
  | succ k ih =>
    -- the counter is an `unsigned` that is decremented
    have hcount : (k + 1 + (2 ^ 32 - 1)) % 2 ^ 32 = k := by omega
    rcases w with - | ⟨b, w⟩
    · refine iff_of_false not_accepts_nil ?_
      rintro ⟨body, hw, hlen, -⟩
      simp at hw
      simp [hw.1] at hlen
    · rcases Nat.eq_zero_or_pos k with rfl | hk'
      · have hstep : parserStep (⟨.body, 0 + 1⟩, q) b =
            (.tt, ⟨.body, 0⟩, { q with content := q.content ++ [b] }) := by
          simp only [parserStep, consume, hcount, if_true]
        rw [accepts_cons_of_tt hstep]
        constructor
        · rintro ⟨rfl, rfl⟩
          exact ⟨[b], rfl, rfl, rfl⟩
        · rintro ⟨body, hw, hlen, rfl⟩
          obtain ⟨b', rfl⟩ := List.length_eq_one_iff.1 hlen
          obtain ⟨rfl, rfl⟩ := List.cons_eq_cons.1 hw
          exact ⟨rfl, rfl⟩
      · have hstep : parserStep (⟨.body, k + 1⟩, q) b =
            (.indeterminate, ⟨.body, k⟩, { q with content := q.content ++ [b] }) := by
          simp only [parserStep, consume, hcount]
          rw [if_neg hk'.ne']
        rw [accepts_cons_of_more hstep, ih hk' (by omega)]
        constructor
        · rintro ⟨body, rfl, rfl, rfl⟩
          exact ⟨b :: body, rfl, rfl, by simp⟩
        · rintro ⟨body, hw, hlen, rfl⟩
          rcases body with - | ⟨b', body⟩
          · cases hlen
          · obtain ⟨rfl, rfl⟩ := List.cons_eq_cons.1 hw
            exact ⟨body, rfl, by simpa using hlen, by simp⟩

/-- The empty line, and the body the headers announce. -/
theorem accepts_end {req : Request} :
    (∃ p, Accepts parserStep (⟨.expectingNewline3, n⟩, { q with content := [] }) w (p, req) rest) ↔
      ∃ body, w = 10 :: (body ++ rest) ∧
        atoi (q.getHeader (lit "content-length")) ≤ 16 * 1024 * 1024 ∧
        (body.length : ℤ) = max 0 (atoi (q.getHeader (lit "content-length"))) ∧
        req = { q with content := body } := by
  generalize hclen : atoi (q.getHeader (lit "content-length")) = clen
  have hclen' : atoi (({ q with content := [] } : Request).getHeader (lit "content-length")) =
      clen := hclen
  rcases w with - | ⟨b, w⟩
  · refine iff_of_false (fun ⟨_, h⟩ ↦ not_accepts_nil h) ?_
    rintro ⟨body, ⟨⟩, -⟩
  by_cases hb : b = 10
  · subst hb
    -- too long, a body, or none
    by_cases hlarge : clen > 16 * 1024 * 1024
    · refine iff_of_false ?_ ?_
      · rintro ⟨p, h⟩
        refine not_accepts_cons_of_ff ?_ h
        simp only [parserStep, consume, if_true, hclen']
        rw [if_pos (show clen > 0 by omega), if_pos hlarge]
      · rintro ⟨body, -, hle, -⟩
        omega
    by_cases hpos : clen > 0
    · have hstep : parserStep (⟨.expectingNewline3, n⟩, { q with content := [] }) 10 =
          (.indeterminate, ⟨.body, clen.toNat⟩, { q with content := [] }) := by
        simp only [parserStep, consume, if_true, hclen']
        rw [if_pos hpos, if_neg hlarge]
      simp only [accepts_cons_of_more hstep,
        accepts_body (show 0 < clen.toNat by omega) (show clen.toNat < 2 ^ 32 by omega)]
      constructor
      · rintro ⟨p, body, rfl, hlen, heq⟩
        exact ⟨body, rfl, by omega, by omega, (Prod.ext_iff.1 heq).2⟩
      · rintro ⟨body, hw, -, hlen, rfl⟩
        exact ⟨_, body, List.tail_eq_of_cons_eq hw, by omega, rfl⟩
    · have hstep : parserStep (⟨.expectingNewline3, n⟩, { q with content := [] }) 10 =
          (.tt, ⟨.expectingNewline3, n⟩, { q with content := [] }) := by
        simp only [parserStep, consume, if_true, hclen']
        rw [if_neg hpos]
      simp only [accepts_cons_of_tt hstep]
      constructor
      · rintro ⟨p, heq, rfl⟩
        exact ⟨[], rfl, by omega, by simpa using hpos, (Prod.ext_iff.1 heq).2⟩
      · rintro ⟨body, hw, -, hlen, rfl⟩
        obtain rfl : body = [] := List.length_eq_zero_iff.1 (by omega)
        exact ⟨_, rfl, (List.tail_eq_of_cons_eq hw).symm⟩
  · refine iff_of_false ?_ ?_
    · rintro ⟨p, h⟩
      exact not_accepts_cons_of_ff (by simp [parserStep, consume, hb]) h
    · rintro ⟨body, hw, -⟩
      exact hb (List.head_eq_of_cons_eq hw)

end Pieces

/-! ### A request -/

/-- The text of a request up to the carriage return of the empty line. -/
def RequestText.head (t : RequestText) : Bytes :=
  t.method ++ 32 :: (t.uri ++ 32 :: (lit "HTTP/" ++ (t.major ++ 46 :: (t.minor ++
    13 :: 10 :: ((t.lines.map HeaderLine.text).flatten ++ [13])))))

theorem RequestText.text_append (t : RequestText) (rest : Bytes) :
    t.text ++ rest = t.head ++ 10 :: (t.body ++ rest) := by
  simp [RequestText.text, RequestText.head, crlf]

/-- The form of a request in front of its body. -/
structure RequestText.HeadWellFormed (t : RequestText) : Prop where
  method_ne : t.method ≠ []
  method : ∀ b ∈ t.method, isTokenByte b = true
  uri : ∀ b ∈ t.uri, b ≠ 32 ∧ isControl b = false
  major_ne : t.major ≠ []
  major : ∀ b ∈ t.major, isDigit b = true
  minor_ne : t.minor ≠ []
  minor : ∀ b ∈ t.minor, isDigit b = true
  lines : ∀ l ∈ t.lines, l.WellFormed
  first : ∀ l, t.lines.head? = some l → l.IsField

theorem RequestText.WellFormed.head {t : RequestText} (ht : t.WellFormed) : t.HeadWellFormed :=
  ⟨ht.method_ne, ht.method, ht.uri, ht.major_ne, ht.major, ht.minor_ne, ht.minor, ht.lines,
    ht.first⟩

/-- **Behind the head of a request**, the parser expects the end of the empty line. -/
theorem feed_head {t : RequestText} (ht : t.HeadWellFormed) (v : Bytes) :
    feed parserStep start (t.head ++ v) =
      feed parserStep (⟨.expectingNewline3, 0⟩, { t.request with content := [] }) v := by
  have htext : t.head ++ v = t.method ++ 32 :: (t.uri ++ 32 :: (lit "HTTP/" ++ (t.major ++ 46 ::
      (t.minor ++ 13 :: (10 :: ((t.lines.map HeaderLine.text).flatten ++ 13 :: v)))))) := by
    simp [RequestText.head]
  have hmethod := (collects_method (n := 0) (q := .blank)).feed ht.method_ne ht.method
  have huri := (collects_uri (n := 0) (q := ⟨t.method, [], 0, 0, [], []⟩)).feed ht.uri []
  have hmajor := (collects_major (n := 0) (q := ⟨t.method, t.uri, 0, 0, [], []⟩)).feed
    ht.major_ne ht.major
  have hminor := (collects_minor (n := 0)
    (q := ⟨t.method, t.uri, t.major.foldl addDigit 0, 0, [], []⟩)).feed ht.minor_ne ht.minor
  have hlines := feed_lines (n := 0) (q := { t.request with content := [] }) ht.lines
    fun (_ : ([] : List Header) = []) ↦ ht.first
  rw [htext]
  calc feed parserStep start _
      = feed parserStep (⟨.uri, 0⟩, ⟨t.method, [], 0, 0, [], []⟩) _ := hmethod _
    _ = feed parserStep (⟨.httpVersionH, 0⟩, ⟨t.method, t.uri, 0, 0, [], []⟩) _ := huri _
    _ = feed parserStep (⟨.httpVersionMajorStart, 0⟩, ⟨t.method, t.uri, 0, 0, [], []⟩) _ :=
        feed_http _
    _ = feed parserStep (⟨.httpVersionMinorStart, 0⟩,
          ⟨t.method, t.uri, t.major.foldl addDigit 0, 0, [], []⟩) _ := hmajor _
    _ = feed parserStep (⟨.expectingNewline1, 0⟩, { t.request with headers := [], content := [] })
          _ := hminor _
    _ = feed parserStep (⟨.headerLineStart, 0⟩, { t.request with headers := [], content := [] })
          _ := feed_cons_of_more rfl
    _ = feed parserStep (⟨.expectingNewline3, 0⟩, { t.request with content := [] }) v := hlines v

/-- **The parser accepts the grammar.** What is left when it does is what follows the request. -/
theorem reads_start_iff {w rest : Bytes} {req : Request} :
    (∃ p, Accepts parserStep start w (p, req) rest) ↔
      ∃ t : RequestText, t.WellFormed ∧ w = t.text ++ rest ∧ req = t.request := by
  constructor
  -- the states in the order in which the parser goes through them
  · rintro ⟨p, h₀⟩
    obtain ⟨method, w, hmethod, hmethod', rfl, h₁⟩ :=
      (collects_method (q := .blank)).accepts_iff.1 h₀
    obtain ⟨uri, w, rfl, huri, h₂⟩ :=
      ((collects_uri (q := ⟨method, [], 0, 0, [], []⟩)).accepts_iff []).1 h₁
    obtain ⟨w, rfl, h₃⟩ := accepts_http.1 h₂
    obtain ⟨major, w, hmajor, hmajor', rfl, h₄⟩ :=
      (collects_major (q := ⟨method, uri, 0, 0, [], []⟩)).accepts_iff.1 h₃
    obtain ⟨minor, w, hminor, hminor', rfl, h₅⟩ :=
      (collects_minor (q := ⟨method, uri, major.foldl addDigit 0, 0, [], []⟩)).accepts_iff.1 h₄
    obtain ⟨w, rfl, h₆⟩ := accepts_newline1.1 h₅
    obtain ⟨lines, w, rfl, hlines, hfirst, h₇⟩ := exists_lines_of_accepts
      (q := ⟨method, uri, major.foldl addDigit 0, minor.foldl addDigit 0, [], []⟩) h₆
    obtain ⟨body, rfl, hle, hbody, rfl⟩ :=
      (accepts_end (q := RequestText.request ⟨method, uri, major, minor, lines, []⟩)).1 ⟨p, h₇⟩
    refine ⟨⟨method, uri, major, minor, lines, body⟩, ?_, ?_, rfl⟩
    · exact ⟨hmethod, hmethod', huri, hmajor, hmajor', hminor, hminor', hlines, hfirst rfl, hle,
        hbody⟩
    · simp [RequestText.text, crlf]
  · rintro ⟨t, ht, rfl, rfl⟩
    obtain ⟨p, hend⟩ := (accepts_end (n := 0) (q := t.request)).2
      ⟨t.body, rfl, ht.contentLength_le, ht.body, rfl⟩
    refine ⟨p, ?_⟩
    rw [Accepts, RequestText.text_append, feed_head ht.head]
    exact hend

/-! ### A connection -/

theorem calls_eq_readAll (p : RequestParser) (req : Request) (buffers : List Bytes) :
    calls p req buffers = ((readAll parserStep (p, req) buffers).map Prod.snd).toList := by
  induction buffers generalizing p req with
  | nil => rfl
  | cons buffer buffers ih =>
    rw [calls, handleRead, parse, readAll]
    rcases feed parserStep (p, req) buffer with ⟨_ | _ | _, ⟨p', req'⟩, rest⟩
    · rfl
    · rfl
    · exact ih p' req'

/-- A request is handled exactly if the stream begins with its text. -/
theorem mem_calls_iff {buffers : List Bytes} {req : Request} :
    req ∈ calls {} .blank buffers ↔
      ∃ t : RequestText, t.WellFormed ∧ t.text <+: buffers.flatten ∧ req = t.request := by
  have hread : req ∈ calls {} .blank buffers ↔
      ∃ rest p, Accepts parserStep start buffers.flatten (p, req) rest := by
    rw [calls_eq_readAll, Option.mem_toList, Option.map_eq_some_iff]
    constructor
    · rintro ⟨⟨p, _⟩, h, rfl⟩
      obtain ⟨rest, h⟩ := readAll_eq_some_iff.1 h
      exact ⟨rest, p, h⟩
    · rintro ⟨rest, p, h⟩
      exact ⟨(p, req), readAll_eq_some_iff.2 ⟨rest, h⟩, rfl⟩
  simp only [hread, reads_start_iff]
  constructor
  · rintro ⟨rest, t, ht, hw, hreq⟩
    exact ⟨t, ht, ⟨rest, hw.symm⟩, hreq⟩
  · rintro ⟨t, ht, ⟨rest, hw⟩, hreq⟩
    exact ⟨rest, t, ht, hw.symm, hreq⟩

/-- A stream begins with the text of at most one request. -/
theorem RequestText.text_unique {t t' : RequestText} (ht : t.WellFormed) (ht' : t'.WellFormed)
    {w : Bytes} (h : t.text <+: w) (h' : t'.text <+: w) :
    t.text = t'.text ∧ t.request = t'.request := by
  obtain ⟨rest, hw⟩ := h
  obtain ⟨rest', hw'⟩ := h'
  obtain ⟨p, hp⟩ := reads_start_iff.2 ⟨t, ht, hw.symm, rfl⟩
  obtain ⟨p', hp'⟩ := reads_start_iff.2 ⟨t', ht', hw'.symm, rfl⟩
  -- the parser leaves one rest, so both texts are what is in front of it
  obtain ⟨hs, rfl⟩ := hp.unique hp'
  exact ⟨List.append_cancel_right (hw.trans hw'.symm), (Prod.ext_iff.1 hs).2⟩

/-- **A connection and its grammar.** However the stream is cut into reads, at most one request is
handled; one is handled exactly if a request of the grammar stands at the beginning of the stream;
it is the request of that text, and no other text of the grammar begins the stream. -/
theorem calls_spec (buffers : List Bytes) :
    (calls {} .blank buffers).length ≤ 1 ∧
      (calls {} .blank buffers ≠ [] ↔
        ∃ t : RequestText, t.WellFormed ∧ t.text <+: buffers.flatten) ∧
      ∀ t : RequestText, t.WellFormed → t.text <+: buffers.flatten →
        calls {} .blank buffers = [t.request] ∧
          ∀ t' : RequestText, t'.WellFormed → t'.text <+: buffers.flatten → t'.text = t.text := by
  -- the connection stops reading after its first request
  have hlen : (calls {} .blank buffers).length ≤ 1 := by
    rw [calls_eq_readAll]
    cases readAll parserStep ({}, .blank) buffers with
    | none => exact Nat.zero_le 1
    | some s => exact le_rfl
  refine ⟨hlen, ⟨fun h ↦ ?_, fun ⟨t, ht, hpre⟩ h ↦ ?_⟩, fun t ht hpre ↦ ⟨?_, fun t' ht' hpre' ↦ ?_⟩⟩
  · obtain ⟨req, hreq⟩ := List.exists_mem_of_ne_nil _ h
    obtain ⟨t, ht, hpre, -⟩ := mem_calls_iff.1 hreq
    exact ⟨t, ht, hpre⟩
  · have hmem : t.request ∈ calls {} .blank buffers := mem_calls_iff.2 ⟨t, ht, hpre, rfl⟩
    rw [h] at hmem
    cases hmem
  · have hmem : t.request ∈ calls {} .blank buffers := mem_calls_iff.2 ⟨t, ht, hpre, rfl⟩
    obtain ⟨req, hreq⟩ := List.length_eq_one_iff.1
      (le_antisymm hlen (List.length_pos_of_mem hmem))
    rw [hreq, List.mem_singleton] at hmem
    rw [hreq, hmem]
  · exact (RequestText.text_unique ht' ht hpre' hpre).1

/-- A request with a folded header and a body. -/
def put : RequestText where
  method := lit "PUT"
  uri := lit "/x"
  major := lit "1"
  minor := lit "1"
  lines := [.field (lit "Content-Length") [], .folded (lit " ") (lit "2")]
  body := lit "ab"

theorem wellFormed_put : put.WellFormed where
  method_ne := by decide
  method := by decide +kernel
  uri := by decide +kernel
  major_ne := by decide
  major := by decide +kernel
  minor_ne := by decide
  minor := by decide +kernel
  lines := by decide +kernel
  first := by
    rintro _ ⟨⟩
    trivial
  contentLength_le := by decide +kernel
  body := by decide +kernel

theorem calls_spec_put :
    put.WellFormed ∧ calls {} .blank [lit "PUT /x HTTP/1.1\r\nContent-L",
      lit "ength: \r\n 2\r\n\r\na", lit "bPUT"] = [put.request] :=
  ⟨wellFormed_put, ((calls_spec _).2.2 put wellFormed_put (by decide +kernel)).1⟩

end Camlispp.Http
