import Camlispp.Http.RequestGrammar

/-!
# The representation invariant of the request parser

`consume` uses `headers.back()` and counts `body_bytes_` down without a check of its own. What makes
both safe is the order of the states: `Move` says once what a byte without an answer can do to the
parser and its request, `Represents` is what holds in between, and it is kept by every move
(`Represents.move`) and so at every point of every stream (`represents_parse`).

The names of the headers are part of it. They are collected in lower case, and this alone is why the
exact lookup of the request and the lookup up to case of the request handler agree
(`Represents.getHeader_lower`).

## What the result rests on

* `move_of_consume` is the only lemma that goes through the states of `consume`. The rest of the
  module goes through the moves.
* `Represents.next` and `represents_fresh` are its two halves: what is collected in the state that
  is left, and what is empty in the state that is entered.
* `bodyBytes_consume` and `content_consume` say how the counter falls: by exactly one for each byte
  of the body, and never below zero.

`invariant_parse` is about a parser whose fields were never initialised, as the constructor leaves
them: the state alone is given, so it holds for every value of the others.
-/

open Bytes Machine

namespace Camlispp.Http

/-! ### What a byte can do -/

/-- The states in which the last header is being read. -/
def ParserState.InHeader : ParserState → Prop
  | .headerLws | .headerName | .spaceBeforeHeaderValue | .headerValue | .expectingNewline2 => True
  | _ => False

/-- The length `consume` finds in the headers at the empty line. -/
def Request.clen (req : Request) : ℤ := atoi (req.getHeader (lit "content-length"))

/-- The moves of the parser on a byte that brings no answer. -/
inductive Move (input : UInt8) (p : RequestParser) (req : Request) : RequestParser × Request → Prop
  /-- Headers and content stay as they are. A state inside a header is reached from another one, or
  from the start of a line if there is a header to go on with. -/
  | pass {state : ParserState} {req' : Request} (hp : p.state ≠ .body) (hstate : state ≠ .body)
      (hin : state.InHeader → p.state.InHeader ∨ req.headers ≠ [])
      (hheaders : req'.headers = req.headers) (hcontent : req'.content = req.content) :
      Move input p req ({ p with state }, req')
  /-- A header begins. -/
  | header (hp : p.state ≠ .body) (hinput : isTokenByte input = true) :
      Move input p req ({ p with state := .headerName },
        { req with headers := req.headers ++ [⟨[toLower input], []⟩] })
  /-- Its name goes on. -/
  | name (hp : p.state = .headerName) (hinput : isTokenByte input = true) :
      Move input p req ({ p with state := .headerName }, req.nameBack (toLower input))
  /-- Its value goes on. -/
  | value (hp : p.state.InHeader) :
      Move input p req ({ p with state := .headerValue }, req.valueBack input)
  /-- The head ends, and a body follows. -/
  | enter (hp : p.state ≠ .body) (hpos : 0 < req.clen) (hle : req.clen ≤ 16 * 1024 * 1024) :
      Move input p req (⟨.body, req.clen.toNat⟩, req)
  /-- The body goes on. -/
  | body (hp : p.state = .body) (hmore : (p.bodyBytes + (2 ^ 32 - 1)) % 2 ^ 32 ≠ 0) :
      Move input p req ({ p with bodyBytes := (p.bodyBytes + (2 ^ 32 - 1)) % 2 ^ 32 },
        { req with content := req.content ++ [input] })

variable {p p' : RequestParser} {req req' : Request} {input : UInt8}
  {s s' : RequestParser × Request}

/-- **Every byte without an answer is one of the moves.** -/
theorem move_of_consume (h : consume p req input = (.indeterminate, s')) : Move input p req s' := by
  obtain ⟨state, n⟩ := p
  cases state with
  | headerLineStart =>
    simp only [consume, token_test] at h
    split_ifs at h with hcr hblank htoken
    · cases h
      exact .pass (by simp) (by simp) (fun hin ↦ hin.elim) rfl rfl
    · cases h
      have hne : req.headers ≠ [] := by
        rintro hnil
        simp [hnil] at hblank
      exact .pass (by simp) (by simp) (fun _ ↦ Or.inr hne) rfl rfl
    · cases h
    · cases h
      rw [Request.nameBack, List.modifyLast_concat]
      exact .header (by simp) (by simpa using htoken)
  | headerLws =>
    simp only [consume] at h
    split_ifs at h
    · cases h
      exact .pass (by simp) (by simp) (fun _ ↦ Or.inl trivial) rfl rfl
    · cases h
      exact .pass (by simp) (by simp) (fun _ ↦ Or.inl trivial) rfl rfl
    · cases h
    · cases h
      exact .value trivial
  | headerName =>
    simp only [consume, token_test] at h
    split_ifs at h with hcolon htoken
    · cases h
      exact .pass (by simp) (by simp) (fun _ ↦ Or.inl trivial) rfl rfl
    · cases h
    · cases h
      exact .name rfl (by simpa using htoken)
  | headerValue =>
    simp only [consume] at h
    split_ifs at h
    · cases h
      exact .pass (by simp) (by simp) (fun _ ↦ Or.inl trivial) rfl rfl
    · cases h
    · cases h
      exact .value trivial
  | expectingNewline3 =>
    simp only [consume] at h
    split_ifs at h with hnl hpos hle
    · cases h
    · cases h
      exact .enter (by simp) hpos (not_lt.1 hle)
    · cases h
    · cases h
  | body =>
    simp only [consume] at h
    split_ifs at h with hlast
    · cases h
    · cases h
      exact .body rfl hlast
  | spaceBeforeHeaderValue =>
    simp only [consume] at h
    split_ifs at h
    · cases h
      exact .pass (by simp) (by simp) (fun _ ↦ Or.inl trivial) rfl rfl
    · cases h
  | _ =>
    -- the request line and the line ends touch neither headers nor content
    simp only [consume] at h
    split_ifs at h <;> cases h <;>
      exact .pass (by simp) (by simp) (fun hin ↦ hin.elim) rfl rfl

/-! ### The invariant -/

/-- A byte of a collected name: a token character, and not an upper-case letter. -/
def isNameByte (b : UInt8) : Bool := isTokenByte b && !(65 ≤ b && b ≤ 90)

/-- What holds between two bytes. -/
structure Represents (p : RequestParser) (req : Request) : Prop where
  /-- `headers.back()` is defined where it is used. -/
  headers : p.state.InHeader → req.headers ≠ []
  names : ∀ h ∈ req.headers, h.name ≠ [] ∧ ∀ b ∈ h.name, isNameByte b = true
  /-- Content is collected in the body only. -/
  content : p.state ≠ .body → req.content = []
  /-- What is there and what is missing make up the accepted length. -/
  body : p.state = .body → 0 < p.bodyBytes ∧ ((req.content.length + p.bodyBytes : ℕ) : ℤ) = req.clen
  clen_le : p.state = .body → req.clen ≤ 16 * 1024 * 1024

theorem isNameByte_toLower (h : isTokenByte input = true) : isNameByte (toLower input) = true := by
  have hall : ∀ n < 256, isTokenByte (UInt8.ofNat n) = true →
      isNameByte (toLower (UInt8.ofNat n)) = true := by decide +kernel
  have hbyte := hall input.toNat input.toNat_lt
  rw [UInt8.ofNat_toNat] at hbyte
  exact hbyte h

theorem toLower_of_isNameByte (h : isNameByte input = true) : toLower input = input := by
  simp only [isNameByte, Bool.and_eq_true, Bool.not_eq_true', Bool.and_eq_false_iff,
    decide_eq_false_iff_not] at h
  rw [toLower, if_neg]
  tauto

/-- A change of the last header is a change of one of them. -/
theorem mem_modifyLast {α : Type} {f : α → α} {l : List α} {x : α} (h : x ∈ l.modifyLast f) :
    x ∈ l ∨ ∃ y ∈ l, x = f y := by
  rcases List.eq_nil_or_concat l with rfl | ⟨init, last, rfl⟩
  · exact Or.inl h
  · rw [List.concat_eq_append, List.modifyLast_concat, List.mem_append, List.mem_singleton] at h
    rcases h with h | rfl
    · exact Or.inl (by simp [h])
    · exact Or.inr ⟨last, by simp, rfl⟩

theorem modifyLast_ne_nil {α : Type} {f : α → α} {l : List α} (h : l ≠ []) :
    l.modifyLast f ≠ [] := by
  rcases List.eq_nil_or_concat l with rfl | ⟨init, last, rfl⟩
  · exact absurd rfl h
  · simp [List.modifyLast_concat]

/-- Outside of the body the counter says nothing. -/
theorem represents_of_ne_body (hp : p.state ≠ .body)
    (hheaders : p.state.InHeader → req.headers ≠ [])
    (hnames : ∀ h ∈ req.headers, h.name ≠ [] ∧ ∀ b ∈ h.name, isNameByte b = true)
    (hcontent : req.content = []) : Represents p req where
  headers := hheaders
  names := hnames
  content _ := hcontent
  body hs := absurd hs hp
  clen_le hs := absurd hs hp

theorem represents_fresh (n : ℕ) (major minor : ℤ) :
    Represents ⟨.methodStart, n⟩ ⟨[], [], major, minor, [], []⟩ :=
  represents_of_ne_body (by simp) (fun hs ↦ hs.elim) (by simp) rfl

/-- The counter is decremented without wrapping around. -/
theorem Represents.bodyBytes_pred (h : Represents p req) (hp : p.state = .body) :
    (p.bodyBytes + (2 ^ 32 - 1)) % 2 ^ 32 + 1 = p.bodyBytes := by
  obtain ⟨hpos, hsum⟩ := h.body hp
  have hle := h.clen_le hp
  omega

/-- One more byte of the body, and one less to come. -/
theorem Represents.next (h : Represents p req) (hp : p.state = .body) {left : ℕ} (hne : left ≠ 0)
    (hpred : left + 1 = p.bodyBytes) :
    Represents { p with bodyBytes := left } { req with content := req.content ++ [input] } := by
  obtain ⟨-, hsum⟩ := h.body hp
  refine ⟨h.headers, h.names, fun hs ↦ absurd hp hs, fun _ ↦ ?_, fun _ ↦ h.clen_le hp⟩
  constructor
  · exact Nat.pos_of_ne_zero hne
  · change ((_ : ℕ) : ℤ) = req.clen
    rw [← hsum, ← hpred, List.length_append, List.length_singleton]
    push_cast
    omega

/-- **Every move keeps the invariant.** -/
theorem Represents.move (h : Represents p req) (hmove : Move input p req s') :
    Represents s'.1 s'.2 := by
  cases hmove with
  | pass hp hstate hin hheaders hcontent =>
    refine represents_of_ne_body hstate (fun hs ↦ ?_) ?_ (hcontent.trans (h.content hp))
    · rw [hheaders]
      exact (hin hs).elim h.headers id
    · rw [hheaders]
      exact h.names
  | header hp hinput =>
    refine represents_of_ne_body (by simp) (fun _ ↦ by simp) (fun g hg ↦ ?_) (h.content hp)
    rcases List.mem_append.1 hg with hg | hg
    · exact h.names g hg
    · obtain rfl := List.mem_singleton.1 hg
      exact ⟨by simp, by simpa using isNameByte_toLower hinput⟩
  | name hp hinput =>
    have hbody : p.state ≠ .body := by simp [hp]
    have hne : req.headers ≠ [] := h.headers (hp ▸ trivial)
    refine represents_of_ne_body (by simp) (fun _ ↦ modifyLast_ne_nil hne) (fun g hg ↦ ?_)
      (h.content hbody)
    rcases mem_modifyLast hg with hg | ⟨g', hg', rfl⟩
    · exact h.names g hg
    · refine ⟨by simp, fun b hb ↦ ?_⟩
      rcases List.mem_append.1 hb with hb | hb
      · exact (h.names g' hg').2 b hb
      · obtain rfl := List.mem_singleton.1 hb
        exact isNameByte_toLower hinput
  | value hp =>
    have hbody : p.state ≠ .body := by
      intro hs
      rw [hs] at hp
      exact hp.elim
    refine represents_of_ne_body (by simp) (fun _ ↦ modifyLast_ne_nil (h.headers hp))
      (fun g hg ↦ ?_) (h.content hbody)
    -- the names are those that were there
    rcases mem_modifyLast hg with hg | ⟨g', hg', rfl⟩
    · exact h.names g hg
    · exact h.names g' hg'
  | enter hp hpos hle =>
    refine ⟨fun hs ↦ hs.elim, h.names, fun hs ↦ absurd rfl hs, fun _ ↦ ?_, fun _ ↦ hle⟩
    have hnil := h.content hp
    constructor
    · change 0 < req.clen.toNat
      omega
    · rw [hnil]
      simp only [List.length_nil]
      omega
  | body hp hmore => exact h.next hp hmore (h.bodyBytes_pred hp)

/-- **Every point of every stream** before an answer. -/
theorem represents_parse {n : ℕ} {major minor : ℤ} {w rest : Bytes}
    (h : parse ⟨.methodStart, n⟩ ⟨[], [], major, minor, [], []⟩ w =
      (.indeterminate, (p, req), rest)) : Represents p req := by
  have hstep : ∀ {s : RequestParser × Request} {a : UInt8} {s₁ : RequestParser × Request},
      Represents s.1 s.2 → parserStep s a = (.indeterminate, s₁) → Represents s₁.1 s₁.2 :=
    fun hs hstep ↦ hs.move (move_of_consume hstep)
  exact invariant_of_feed (I := fun s ↦ Represents s.1 s.2) hstep (represents_fresh n major minor) h

/-! ### What follows from it -/

/-- Among names in lower case the first one up to case is the first one exactly. -/
theorem find?_name_eq {headers : List Header} (h : ∀ g ∈ headers, lower g.name = g.name)
    (name : Bytes) :
    headers.find? (fun g ↦ g.name = lower name) =
      headers.find? (fun g ↦ lower g.name = lower name) := by
  induction headers with
  | nil => rfl
  | cons g headers ih =>
    obtain ⟨hg, hrest⟩ := List.forall_mem_cons.1 h
    rw [List.find?_cons, List.find?_cons, hg, ih hrest]

/-- The exact lookup and the lookup up to case agree on collected headers. -/
theorem Represents.getHeader_lower (h : Represents p req) (name : Bytes) :
    req.getHeader (lower name) = getHeader req.headers name := by
  have hlower : ∀ g ∈ req.headers, lower g.name = g.name := by
    intro g hg
    refine (List.map_congr_left fun b hb ↦ ?_).trans (List.map_id g.name)
    exact toLower_of_isNameByte ((h.names g hg).2 b hb)
  rw [Request.getHeader, getHeader, find?_name_eq hlower]

/-- Only the body adds to the content, one byte at a time, whatever the answer is. -/
theorem content_consume (p : RequestParser) (req : Request) (input : UInt8) :
    (consume p req input).2.2.content =
      if p.state = .body then req.content ++ [input] else req.content := by
  obtain ⟨state, n⟩ := p
  cases state <;> simp only [consume, reduceCtorEq, if_true, if_false] <;> split_ifs <;> rfl

theorem bodyBytes_consume (hp : p.state = .body) (input : UInt8) :
    (consume p req input).2.1.bodyBytes = (p.bodyBytes + (2 ^ 32 - 1)) % 2 ^ 32 := by
  simp only [consume, hp]
  split_ifs <;> rfl

/-- In the body there is room for one more byte. -/
theorem Represents.length_content_lt (h : Represents p req) (hp : p.state = .body) :
    req.content.length < 16 * 1024 * 1024 := by
  obtain ⟨hpos, hsum⟩ := h.body hp
  have hle := h.clen_le hp
  omega

theorem Represents.length_content_le (h : Represents p req) :
    req.content.length ≤ 16 * 1024 * 1024 := by
  by_cases hp : p.state = .body
  · exact (h.length_content_lt hp).le
  · rw [h.content hp]
    exact Nat.zero_le _

theorem Represents.length_content_consume_le (h : Represents p req) (input : UInt8) :
    (consume p req input).2.2.content.length ≤ 16 * 1024 * 1024 := by
  rw [content_consume]
  split_ifs with hp
  · rw [List.length_append, List.length_singleton]
    exact h.length_content_lt hp
  · exact h.length_content_le

/-- **The representation invariant.** After any stream that brought no answer yet: there is a header
where one is being read, names are in lower case and looked up alike both ways, the bytes of the
body that are there and those that are missing make up the accepted length, the counter of the
latter does not wrap around, and the content stays within the limit, the next byte included. -/
theorem invariant_parse (n : ℕ) (major minor : ℤ) (w rest : Bytes) (p : RequestParser)
    (req : Request) (h : parse ⟨.methodStart, n⟩ ⟨[], [], major, minor, [], []⟩ w =
      (.indeterminate, (p, req), rest)) :
    (p.state.InHeader → req.headers ≠ []) ∧
      (∀ g ∈ req.headers, g.name ≠ [] ∧ ∀ b ∈ g.name, isNameByte b = true) ∧
      (∀ name, req.getHeader (lower name) = getHeader req.headers name) ∧
      (p.state = .body → 0 < p.bodyBytes ∧
        ((req.content.length + p.bodyBytes : ℕ) : ℤ) = req.clen ∧
        ∀ input, (consume p req input).2.1.bodyBytes + 1 = p.bodyBytes) ∧
      req.content.length ≤ 16 * 1024 * 1024 ∧
      ∀ input, (consume p req input).2.2.content.length ≤ 16 * 1024 * 1024 := by
  have hrep := represents_parse h
  refine ⟨hrep.headers, hrep.names, hrep.getHeader_lower, fun hp ↦ ?_, hrep.length_content_le,
    hrep.length_content_consume_le⟩
  refine ⟨(hrep.body hp).1, (hrep.body hp).2, fun input ↦ ?_⟩
  rw [bodyBytes_consume hp]
  exact hrep.bodyBytes_pred hp

/-- A body of three bytes, one of which has arrived. -/
theorem invariant_parse_put :
    let req : Request := ⟨lit "PUT", lit "/", 1, 1, [⟨lit "content-length", lit "3"⟩], [97]⟩
    (∀ name, req.getHeader (lower name) = getHeader req.headers name) ∧ req.clen = 3 ∧
      ∀ input, (consume ⟨.body, 2⟩ req input).2.1.bodyBytes + 1 = 2 := by
  intro req
  have h := invariant_parse 0 0 0 (lit "PUT / HTTP/1.1\r\nContent-Length: 3\r\n\r\na") []
    ⟨.body, 2⟩ req (by decide +kernel)
  obtain ⟨-, -, hnames, hbody, -⟩ := h
  obtain ⟨-, hclen, hpred⟩ := hbody rfl
  exact ⟨hnames, hclen.symm, hpred⟩

end Camlispp.Http
