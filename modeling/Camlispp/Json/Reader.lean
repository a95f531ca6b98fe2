import Camlispp.Json.Escapes
import Camlispp.Library.Actions

/-!
# The JSON reader

`json_spirit::read`: a grammar whose actions build the value in place. The class
`Semantic_actions` keeps a pointer to the object or array that is being filled, a stack of the ones
around it, and the last name read. A pointer is modelled by the path from the root of the value
(`Json.at?`, `Json.modifyAt`), so that a dangling one would show: following it is `undefined`, and
so is taking the last element of an empty stack.

Numbers with a fraction or an exponent are read by a library that is a parameter here
(`RealParser`), with what its documentation promises.

## What is taken as given

The parameter `RealParser` stands for `strict_real_p` of the library. It takes what it reads from
the front of the text, it reads nothing from nothing, and it is strict: **digits, with a sign or
without, that no dot and no exponent follows are no number for it**. It is asked first, so this is
what lets the parsers of integers have them. Nothing is said of what it makes of a fraction.

Everything else of the reader is here: the tokens and the white space between them, the order of the
alternatives, the actions in the order in which they run, and the two ways in which the whole can
end without a value, a text that does not match and an error that is thrown.
-/

open Bytes

namespace Camlispp

namespace Json

/-! ### Pointers into a value -/

/-- The value at the end of a path. -/
def at? : List ℕ → Json → Option Json
  | [], v => some v
  | i :: p, arr es => es[i]?.bind (at? p)
  | i :: p, obj ms => ms[i]?.bind fun m ↦ at? p m.2
  | _ :: _, _ => none

/-- The value with what is at the end of a path changed. -/
def modifyAt (f : Json → Json) : List ℕ → Json → Json
  | [], v => f v
  | i :: p, arr es => arr (es.modify i (modifyAt f p))
  | i :: p, obj ms => obj (ms.modify i fun m ↦ (m.1, modifyAt f p m.2))
  | _ :: _, v => v

/-- An array with one more element, or an object with one more member: `push_back`, and
`Config_vector::add`. -/
def push (name : Bytes) (v : Json) : Json → Json
  | arr es => arr (es ++ [v])
  | obj ms => obj (ms ++ [(name, v)])
  | c => c

/-! ### Numbers -/

/-- `strict_real_p`, together with the text that a stream prints for the number: a parser for
numbers that have a dot or an exponent. -/
structure RealParser where
  /-- The number in front. -/
  parse : Peg UInt8 Bytes
  /-- What was read is taken from the front. -/
  takes : ∀ {t x r}, parse t = some (x, r) → ∃ u, t = u ++ r
  /-- A number begins with a digit, a sign or a dot. -/
  nil : parse [] = none
  /-- A number begins with a digit, a sign or a dot. -/
  starts : ∀ {b t}, isDigit b = false → b ≠ 43 → b ≠ 45 → b ≠ 46 → parse (b :: t) = none
  /-- Digits alone are not enough. -/
  strict : ∀ {ds t}, ds ≠ [] → (∀ d ∈ ds, isDigit d = true) →
    (∀ c, t.head? = some c → isDigit c = false ∧ c ≠ 46 ∧ c ≠ 101 ∧ c ≠ 69) →
      parse (ds ++ t) = none ∧ ∀ sign ∈ [43, 45], parse (sign :: (ds ++ t)) = none

/-- `int64_p`. -/
def int64P : Peg UInt8 ℤ
  | 45 :: t => (uintParser isDigit 10 t.length (2 ^ 63) t).map fun x ↦ (-x.1, x.2)
  | 43 :: t => (uintParser isDigit 10 t.length (2 ^ 63 - 1) t).map fun x ↦ (x.1, x.2)
  | t => (uintParser isDigit 10 t.length (2 ^ 63 - 1) t).map fun x ↦ (x.1, x.2)

/-- `uint64_p`. -/
def uint64P : Peg UInt8 ℤ := fun t ↦
  (uintParser isDigit 10 t.length (2 ^ 64 - 1) t).map fun x ↦ (x.1, x.2)

/-! ### The actions -/

/-- What ends a run of the grammar early. -/
inductive Interrupt
  /-- `throw_error`, with its reason. -/
  | thrown (reason : Bytes)
  /-- An `assert` fails. -/
  | assertFailed
  /-- A pointer or an iterator is used that points nowhere. -/
  | undefined

/-- `Semantic_actions`. -/
structure SemanticActions where
  /-- `value_`. -/
  value : Json
  /-- `current_p_`, a path into `value_`. -/
  current : Option (List ℕ)
  /-- `stack_`, its back first. -/
  stack : List (List ℕ)
  /-- `name_`. -/
  name : Bytes

/-- `is_eq`. -/
def isEq (t s : Bytes) : Bool := t.isPrefixOf s

/-- `get_str_`. -/
def getStr_ (t : Bytes) : Except Interrupt Bytes :=
  if t.length < 2 then .error .assertFailed else .ok (getStrText t)

namespace SemanticActions

/-- `add_first`. -/
def addFirst (s : SemanticActions) (v : Json) : Except Interrupt (SemanticActions × List ℕ) :=
  if s.current = none then .ok ({ s with value := v, current := some [] }, [])
  else .error .assertFailed

/-- `add_to_current`, with the pointer to what was added. -/
def addToCurrent (s : SemanticActions) (v : Json) : Except Interrupt (SemanticActions × List ℕ) :=
  match s.current with
  | none => s.addFirst v
  | some p =>
    match s.value.at? p with
    | some (arr es) =>
      .ok ({ s with value := s.value.modifyAt (push s.name v) p }, p ++ [es.length])
    | some (obj ms) =>
      .ok ({ s with value := s.value.modifyAt (push s.name v) p }, p ++ [ms.length])
    | some _ => .error .assertFailed
    | none => .error .undefined

/-- `add_to_current`, where the pointer is not used. -/
def addValue (s : SemanticActions) (v : Json) : Except Interrupt SemanticActions :=
  (s.addToCurrent v).map Prod.fst

/-- `begin_compound`. -/
def beginCompound (s : SemanticActions) (empty : Json) : Except Interrupt SemanticActions :=
  match s.current with
  | none => (s.addFirst empty).map Prod.fst
  | some p =>
    match { s with stack := p :: s.stack }.addToCurrent empty with
    | .error e => .error e
    | .ok (s, pointer) => .ok { s with current := some pointer }

/-- `end_compound`. -/
def endCompound (s : SemanticActions) : Except Interrupt SemanticActions :=
  if s.current = some [] then .ok s
  else
    match s.stack with
    | [] => .error .undefined
    | p :: stack => .ok { s with current := some p, stack := stack }

/-- `begin_obj`. -/
def beginObj (s : SemanticActions) (c : UInt8) : Except Interrupt SemanticActions :=
  if c = 123 then s.beginCompound (obj []) else .error .assertFailed

/-- `end_obj`. -/
def endObj (s : SemanticActions) (c : UInt8) : Except Interrupt SemanticActions :=
  if c = 125 then s.endCompound else .error .assertFailed

/-- `begin_array`. -/
def beginArray (s : SemanticActions) (c : UInt8) : Except Interrupt SemanticActions :=
  if c = 91 then s.beginCompound (arr []) else .error .assertFailed

/-- `end_array`. -/
def endArray (s : SemanticActions) (c : UInt8) : Except Interrupt SemanticActions :=
  if c = 93 then s.endCompound else .error .assertFailed

/-- `new_name`. -/
def newName (s : SemanticActions) (t : Bytes) : Except Interrupt SemanticActions :=
  match s.current with
  | none => .error .undefined
  | some p =>
    match s.value.at? p with
    | some (obj _) => (getStr_ t).map fun name ↦ { s with name := name }
    | some _ => .error .assertFailed
    | none => .error .undefined

/-- `new_str`. -/
def newStr (s : SemanticActions) (t : Bytes) : Except Interrupt SemanticActions :=
  (getStr_ t).bind fun x ↦ s.addValue (str x)

/-- What `new_true`, `new_false` and `new_null` have in common. -/
def newKeyword (keyword : Bytes) (v : Json) (s : SemanticActions) (t : Bytes) :
    Except Interrupt SemanticActions :=
  if isEq t keyword then s.addValue v else .error .assertFailed

/-- `new_true`. -/
def newTrue : SemanticActions → Bytes → Except Interrupt SemanticActions :=
  newKeyword (lit "true") (bool true)

/-- `new_false`. -/
def newFalse : SemanticActions → Bytes → Except Interrupt SemanticActions :=
  newKeyword (lit "false") (bool false)

/-- `new_null`. -/
def newNull : SemanticActions → Bytes → Except Interrupt SemanticActions :=
  newKeyword (lit "null") null

/-- `new_int`. -/
def newInt (s : SemanticActions) (i : ℤ) : Except Interrupt SemanticActions := s.addValue (int i)

/-- `new_uint64`. -/
def newUint64 (s : SemanticActions) (ui : ℤ) : Except Interrupt SemanticActions :=
  s.addValue (int ui)

/-- `new_real`. -/
def newReal (s : SemanticActions) (d : Bytes) : Except Interrupt SemanticActions :=
  s.addValue (real d)

end SemanticActions

/-! ### The grammar -/

/-- A token, with the white space in front of it skipped. -/
def skipped {α : Type} (p : Peg UInt8 α) : Peg UInt8 α := fun t ↦ p (t.dropWhile isSpace)

/-- `ch_p`. -/
def chP (c : UInt8) : Peg UInt8 UInt8 := skipped (Peg.satisfy (· = c))

/-- `str_p`. -/
def strP (s : Bytes) : Peg UInt8 Bytes := skipped (Peg.text (Peg.literal s))

/-- `string_`. -/
def string_ : Peg UInt8 Bytes := skipped stringText

namespace Grammer

open SemanticActions

/-- A rule of the grammar. -/
abbrev Rule := Scan Interrupt SemanticActions UInt8

/-- A token without an action. -/
def noAction {α : Type} (p : Peg UInt8 α) : Rule := Scan.token p fun s _ ↦ .ok s

/-- `number_`. -/
def number_ (P : RealParser) : Rule :=
  .alt (.token (skipped P.parse) newReal)
    (.alt (.token (skipped int64P) newInt) (.token (skipped uint64P) newUint64))

/-- `pair_`. -/
def pair_ (value_ : Rule) : Rule :=
  .seq (.seq (.token string_ newName)
      (.orThrow (noAction (chP 58)) (.thrown (lit "no colon in pair"))))
    (.orThrow value_ (.thrown (lit "not a value")))

/-- `members_`. -/
def members_ (value_ : Rule) : Rule :=
  .seq (pair_ value_) (.star (.seq (noAction (chP 44)) (pair_ value_)))

/-- `object_`. -/
def object_ (value_ : Rule) : Rule :=
  .seq (.seq (.token (chP 123) beginObj) (.opt (members_ value_)))
    (.orThrow (.token (chP 125) endObj) (.thrown (lit "not an object")))

/-- `elements_`. -/
def elements_ (value_ : Rule) : Rule :=
  .seq value_ (.star (.seq (noAction (chP 44)) value_))

/-- `array_`. -/
def array_ (value_ : Rule) : Rule :=
  .seq (.seq (.token (chP 91) beginArray) (.opt (elements_ value_)))
    (.orThrow (.token (chP 93) endArray) (.thrown (lit "not an array")))

/-- `value_`, for values that are nested less than `depth` deep. -/
def value_ (P : RealParser) : ℕ → Rule
  | 0 => fun s _ ↦ .ok (s, none)
  | depth + 1 =>
    .alt (.token string_ newStr)
      (.alt (number_ P)
        (.alt (object_ (value_ P depth))
          (.alt (array_ (value_ P depth))
            (.alt (.token (strP (lit "true")) newTrue)
              (.alt (.token (strP (lit "false")) newFalse)
                (.token (strP (lit "null")) newNull))))))

/-- `json_`. -/
def json_ (P : RealParser) (depth : ℕ) : Rule :=
  .orThrow (value_ P depth) (.thrown (lit "not a value"))

end Grammer

/-- `read_range_or_throw`. A value is not nested deeper than its text is long. -/
def readRangeOrThrow (P : RealParser) (t : Bytes) : Except Interrupt (Json × Bytes) :=
  match Grammer.json_ P (t.length + 1) ⟨null, none, [], []⟩ t with
  | .error e => .error e
  | .ok (_, none) => .error .assertFailed
  | .ok (s, some r) => .ok (s.value, r)

/-- `json_spirit::read`, by `read_string` and `read_range`: none where it returns false. What was
thrown is caught. -/
def read (P : RealParser) (t : Bytes) : Except Interrupt (Option Json) :=
  match readRangeOrThrow P t with
  | .error (.thrown _) => .ok none
  | .error e => .error e
  | .ok (v, _) => .ok (some v)

end Json

end Camlispp
