import Camlispp.Library.Bytes
import Camlispp.Library.Peg

/-!
# The grammars of a multipart upload

The three grammars of the multipart reader, operator for operator: `headerTokens` for the
parameters of a header value, `chunks` for the parts of a body between boundaries, `chunkTokens`
for the header lines and the body of one part. They are PEGs over bytes; the results are what the
rules collect.

Three things of the source are easy to misread:

* in `headerTokens` the separator is `lit(';') >> *(" ") >> pair`, and `*(" ")` is no repetition:
  it applies the built-in `*` to a string literal, so it is the character `' '`. A parameter must
  be separated by a semicolon and **exactly one** space;
* rules append to their string as they match, and a string is not rolled back when an alternative
  is abandoned: an unterminated quoted value is collected once without its quote and once more,
  with it, by the second alternative (`headerValue`);
* `end_boundry` is a rule with a string of its own, which stays empty; the list of chunks ends with
  that empty string.

`ascii::char_` matches the bytes 0 to 127 and nothing else.
-/

open Bytes Peg

namespace Camlispp

/-! ### Terminals -/

/-- `ascii::char_`. -/
def asciiChar : Peg UInt8 UInt8 := satisfy (· < 128)

/-- `eol`: CRLF, CR or LF. -/
def eol : Peg UInt8 Unit
  | 13 :: 10 :: s => some ((), s)
  | 13 :: s => some ((), s)
  | 10 :: s => some ((), s)
  | _ => none

/-! ### `header_tokens` -/

/-- `key = +(ascii::char_ - qi::char_("=;"))`. -/
def headerKey : Peg UInt8 Bytes := many1 (diff asciiChar (satisfy fun b ↦ b = 61 || b = 59))

/-- `'"' >> +(ascii::char_ - '"')`: an opened quote with its text. -/
def openQuoted : Peg UInt8 Bytes :=
  map Prod.snd (seq (literal (lit "\"")) (many1 (diff asciiChar (literal (lit "\"")))))

/-- `value = lexeme['"' >> +(ascii::char_ - '"') >> '"'] | +(ascii::char_)`. The first alternative
appends its text before it looks for the closing quote, and the text stays when it fails there. -/
def headerValue : Peg UInt8 Bytes := fun s ↦
  match seq openQuoted (literal (lit "\"")) s with
  | some (x, r) => some (x.1, r)
  | none =>
    let left := ((openQuoted s).map Prod.fst).getD []
    (many1 asciiChar s).map fun x ↦ (left ++ x.1, x.2)

/-- `pair = key >> -(qi::lit('=') >> value)`. -/
def headerPair : Peg UInt8 (Bytes × Bytes) :=
  map (fun x ↦ (x.1, (x.2.map Prod.snd).getD []))
    (seq headerKey (opt (seq (literal (lit "=")) headerValue)))

/-- `query = pair >> *(qi::lit(';') >> *(" ") >> pair) >> -eol`, as the list of its pairs. -/
def headerTokens : Peg UInt8 (List (Bytes × Bytes)) :=
  map (fun x ↦ x.1.1 :: x.1.2)
    (seq (seq headerPair
      (many (map Prod.snd (seq (literal (lit ";"))
        (map Prod.snd (seq (literal (lit " ")) headerPair))))))
      (opt eol))

/-! ### `chunks` -/

section Chunks

variable (boundry : Bytes)

/-- `chunk_boundry = qi::lit("--") >> boundry >> eol`. -/
def chunkBoundry : Peg UInt8 Unit :=
  map (fun _ ↦ ()) (seq (literal (lit "--")) (seq (literal boundry) eol))

/-- `end_boundry = qi::lit("--") >> boundry >> qi::lit("--") >> -eol`. -/
def endBoundry : Peg UInt8 Unit :=
  map (fun _ ↦ ())
    (seq (literal (lit "--")) (seq (literal boundry) (seq (literal (lit "--")) (opt eol))))

/-- `value = +(ascii::char_ - end_boundry - chunk_boundry)`. -/
def chunkValue : Peg UInt8 Bytes :=
  many1 (diff (diff asciiChar (endBoundry boundry)) (chunkBoundry boundry))

/-- `chunk = chunk_boundry >> value`. -/
def chunk : Peg UInt8 Bytes := map Prod.snd (seq (chunkBoundry boundry) (chunkValue boundry))

/-- `content = chunk >> *chunk >> end_boundry`; the closing boundary adds its empty string. -/
def chunks : Peg UInt8 (List Bytes) :=
  map (fun x ↦ x.1 :: x.2.1 ++ [[]])
    (seq (chunk boundry) (seq (many (chunk boundry)) (endBoundry boundry)))

end Chunks

/-! ### `chunk_tokens` -/

/-- `header = +(ascii::char_ - eol) >> eol`. -/
def chunkHeader : Peg UInt8 Bytes := map Prod.fst (seq (many1 (diff asciiChar eol)) eol)

/-- `body = +(ascii::char_ | eol)`. The second alternative has nothing left to match. -/
def chunkBody : Peg UInt8 Bytes := many1 (alt asciiChar (map (fun _ ↦ 10) eol))

/-- `content = *header >> eol >> *body`. -/
def chunkTokens : Peg UInt8 (List Bytes) :=
  map (fun x ↦ x.1 ++ x.2.2) (seq (many chunkHeader) (seq eol (many chunkBody)))

/-! ### Single symbols -/

theorem consumes_asciiChar : Consumes 1 asciiChar := consumes_satisfy _

theorem consumes_eol : Consumes 1 eol := by
  intro s a r h
  unfold eol at h
  split at h
  all_goals
    first
      | (obtain ⟨-, rfl⟩ := Prod.mk.inj (Option.some.inj h); simp only [List.length_cons]; omega)
      | cases h

theorem eol_crlf (s : Bytes) : eol (crlf ++ s) = some ((), s) := rfl

theorem eol_eq_none {c : UInt8} (hcr : c ≠ 13) (hlf : c ≠ 10) (s : Bytes) :
    eol (c :: s) = none := by
  unfold eol
  split <;> simp_all

theorem isSome_eol_cons {c : UInt8} {s : Bytes} :
    (eol (c :: s)).isSome = true ↔ c = 13 ∨ c = 10 := by
  unfold eol
  split <;> simp_all

theorem consumes_chunk (boundry : Bytes) : Consumes 1 (chunk boundry) := by
  have hval : Consumes 1 (chunkValue boundry) :=
    consumes_many1 ((consumes_asciiChar.diff _).diff _)
  have hbnd : Consumes 0 (chunkBoundry boundry) :=
    Consumes.map (Consumes.mono
      ((consumes_literal (lit "--")).seq ((consumes_literal boundry).seq consumes_eol))
      (Nat.zero_le _)) _
  exact Consumes.map (Consumes.mono (hbnd.seq hval) (by omega)) _

theorem consumes_chunkHeader : Consumes 1 chunkHeader :=
  Consumes.map (Consumes.mono ((consumes_many1 (consumes_asciiChar.diff _)).seq consumes_eol)
    (by omega)) _

theorem consumes_chunkBody : Consumes 1 chunkBody :=
  consumes_many1 (consumes_asciiChar.alt (consumes_eol.map _))

end Camlispp
