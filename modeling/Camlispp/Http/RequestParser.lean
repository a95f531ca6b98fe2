import Camlispp.Http.Message
import Camlispp.Library.Machine

/-!
# The request parser

`request_parser::consume`, state by state, with `parse`, which feeds it what a read brought, and
`connection::handle_read`, which reads until the parser has an answer.

The parser takes a `char`, which is signed: a byte from 128 on is a negative `int` to the tests on
characters, so it is no `is_char`, and no control character either.

`method`, `uri` and the other fields of the request are `std::string`, to which a byte is appended
as it is, so a byte from 128 on is kept where it is let through, in a header value and in the
content.

The two numbers of the version are kept as the machine keeps an `int`, where the language leaves an
overflow undefined (`addDigit`), and the counter of the body is an `unsigned int`. What comes of
both is the matter of `Numbers` and `ParserInvariant`.
-/

open Bytes

namespace Camlispp.Http

/-- The states of the parser. -/
inductive ParserState
  | methodStart
  | method
  | uri
  | httpVersionH
  | httpVersionT1
  | httpVersionT2
  | httpVersionP
  | httpVersionSlash
  | httpVersionMajorStart
  | httpVersionMajor
  | httpVersionMinorStart
  | httpVersionMinor
  | expectingNewline1
  | headerLineStart
  | headerLws
  | headerName
  | spaceBeforeHeaderValue
  | headerValue
  | expectingNewline2
  | expectingNewline3
  | body
deriving DecidableEq

/-- The parser. `body_bytes_` has no value until the state `body` is entered. -/
structure RequestParser where
  state : ParserState := .methodStart
  /-- An `unsigned int`. -/
  bodyBytes : ℕ := 0
deriving DecidableEq

/-- A `char` as an `int`. -/
def signedChar (b : UInt8) : ℤ := if b < 128 then b.toNat else b.toNat - 256

/-- `is_char`. -/
def isChar (c : ℤ) : Bool := 0 ≤ c && c ≤ 127

/-- `is_ctl`. -/
def isCtl (c : ℤ) : Bool := 0 ≤ c && c ≤ 31 || c = 127

/-- The labels of the `switch` of `is_tspecial`. -/
def tspecials : Bytes := lit "()<>@,;:\\\"/[]?=\x7b\x7d \t"

/-- `is_tspecial`. -/
def isTspecial (c : ℤ) : Bool := tspecials.any fun t ↦ (t.toNat : ℤ) = c

/-- `is_digit`. -/
def isDigitChar (c : ℤ) : Bool := 48 ≤ c && c ≤ 57

/-- `headers.back().name(chr)`. -/
def Request.nameBack (req : Request) (chr : UInt8) : Request :=
  { req with headers := req.headers.modifyLast fun h ↦ { h with name := h.name ++ [chr] } }

/-- `headers.back().value(chr)`. -/
def Request.valueBack (req : Request) (chr : UInt8) : Request :=
  { req with headers := req.headers.modifyLast fun h ↦ { h with value := h.value ++ [chr] } }

/-- Another digit of a version number, in an `int`. -/
def addDigit (n : ℤ) (input : UInt8) : ℤ := int32 (n * 10 + signedChar input - 48)

/-- `request_parser::consume`. -/
def consume (p : RequestParser) (req : Request) (input : UInt8) :
    Tribool × RequestParser × Request :=
  let c := signedChar input
  let goto (state : ParserState) (req : Request) := (Tribool.indeterminate, { p with state }, req)
  let no := (Tribool.ff, p, req)
  match p.state with
  | .methodStart =>
    if !isChar c || isCtl c || isTspecial c then no
    else goto .method { req with method := req.method ++ [input] }
  | .method =>
    if input = 32 then goto .uri req
    else if !isChar c || isCtl c || isTspecial c then no
    else goto .method { req with method := req.method ++ [input] }
  | .uri =>
    if input = 32 then goto .httpVersionH req
    else if isCtl c then no
    else goto .uri { req with uri := req.uri ++ [input] }
  | .httpVersionH => if input = 72 then goto .httpVersionT1 req else no
  | .httpVersionT1 => if input = 84 then goto .httpVersionT2 req else no
  | .httpVersionT2 => if input = 84 then goto .httpVersionP req else no
  | .httpVersionP => if input = 80 then goto .httpVersionSlash req else no
  | .httpVersionSlash =>
    if input = 47 then
      goto .httpVersionMajorStart { req with httpVersionMajor := 0, httpVersionMinor := 0 }
    else no
  | .httpVersionMajorStart =>
    if isDigitChar c then
      goto .httpVersionMajor { req with httpVersionMajor := addDigit req.httpVersionMajor input }
    else no
  | .httpVersionMajor =>
    if input = 46 then goto .httpVersionMinorStart req
    else if isDigitChar c then
      goto .httpVersionMajor { req with httpVersionMajor := addDigit req.httpVersionMajor input }
    else no
  | .httpVersionMinorStart =>
    if isDigitChar c then
      goto .httpVersionMinor { req with httpVersionMinor := addDigit req.httpVersionMinor input }
    else no
  | .httpVersionMinor =>
    if input = 13 then goto .expectingNewline1 req
    else if isDigitChar c then
      goto .httpVersionMinor { req with httpVersionMinor := addDigit req.httpVersionMinor input }
    else no
  | .expectingNewline1 => if input = 10 then goto .headerLineStart req else no
  | .headerLineStart =>
    if input = 13 then goto .expectingNewline3 req
    else if !req.headers.isEmpty && (input = 32 || input = 9) then goto .headerLws req
    else if !isChar c || isCtl c || isTspecial c then no
    else
      goto .headerName
        (Request.nameBack { req with headers := req.headers ++ [⟨[], []⟩] } (toLower input))
  | .headerLws =>
    if input = 13 then goto .expectingNewline2 req
    else if input = 32 ∨ input = 9 then goto .headerLws req
    else if isCtl c then no
    else goto .headerValue (req.valueBack input)
  | .headerName =>
    if input = 58 then goto .spaceBeforeHeaderValue req
    else if !isChar c || isCtl c || isTspecial c then no
    else goto .headerName (req.nameBack (toLower input))
  | .spaceBeforeHeaderValue => if input = 32 then goto .headerValue req else no
  | .headerValue =>
    if input = 13 then goto .expectingNewline2 req
    else if isCtl c then no
    else goto .headerValue (req.valueBack input)
  | .expectingNewline2 => if input = 10 then goto .headerLineStart req else no
  | .expectingNewline3 =>
    if input = 10 then
      let clen := atoi (req.getHeader (lit "content-length"))
      if clen > 0 then
        if clen > 16 * 1024 * 1024 then no
        else (.indeterminate, ⟨.body, clen.toNat⟩, req)
      else (.tt, p, req)
    else no
  | .body =>
    let bodyBytes := (p.bodyBytes + (2 ^ 32 - 1)) % 2 ^ 32
    let req := { req with content := req.content ++ [input] }
    if bodyBytes = 0 then (.tt, { p with bodyBytes }, req)
    else (.indeterminate, { p with bodyBytes }, req)

/-- The parser as a machine. -/
def parserStep (s : RequestParser × Request) (input : UInt8) :
    Tribool × RequestParser × Request := consume s.1 s.2 input

/-- `request_parser::parse`. -/
def parse (p : RequestParser) (req : Request) (input : Bytes) :
    Tribool × (RequestParser × Request) × Bytes := Machine.feed parserStep (p, req) input

/-! ### The connection -/

/-- A request with nothing in it. -/
def Request.blank : Request := ⟨[], [], 0, 0, [], []⟩

/-- What the parser and its request are at the start. -/
def start : RequestParser × Request := ({}, .blank)

/-- What `handle_read` does with the bytes it got. -/
inductive ReadOutcome
  /-- `handle_request` is called, and its reply is written. -/
  | handled (req : Request)
  /-- The stock reply is written. -/
  | badRequest
  /-- The connection reads on. -/
  | readSome (p : RequestParser) (req : Request)

/-- `connection::handle_read` without an error. -/
def handleRead (p : RequestParser) (req : Request) (buffer : Bytes) : ReadOutcome :=
  match parse p req buffer with
  | (.tt, (_, req), _) => .handled req
  | (.ff, _, _) => .badRequest
  | (.indeterminate, (p, req), _) => .readSome p req

/-- The calls of `handle_request` a connection makes, while its reads bring these buffers. -/
def calls (p : RequestParser) (req : Request) : List Bytes → List Request
  | [] => []
  | buffer :: buffers =>
    match handleRead p req buffer with
    | .handled req => [req]
    | .badRequest => []
    | .readSome p req => calls p req buffers

end Camlispp.Http
