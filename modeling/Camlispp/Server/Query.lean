import Camlispp.Library.OrdMap
import Camlispp.Library.Peg
import Camlispp.Library.Bytes

/-!
# Request paths and query strings

How a request's URI becomes a path, and a path or a body becomes parameters: `url_decode`, the
`keys_and_values` grammar, and the two decoders that look for `after` and for `blob<n>`.

Both decoders compare an `unsigned` position with `npos`, which is never equal to it. A text without
a question mark is therefore cut at `(2 ^ 32 - 1) + 1 = 0`, that is, not at all; the decoders work
because of the second overflow (`dropQuestion_of_notMem`).

`keysAndValues_text` is what the proofs about exchanges between two servers use: parameters written
with the characters of the grammar are read back, all of them and in order.

## What each result rests on

* `keysAndValues_text` rests on `many_append`: a character of the grammar is taken at every position
  of a parameter, and none at its end.
* `perm_entries_collect`: parameters with different names are all collected, whatever the order of
  their names in the map. What a stat request decodes to is therefore known only up to order.

Nothing here is about what a parameter means. `Push` and `Numbering` say it for stat requests, and
`Enumeration` for the cursor.
-/

open Bytes Peg

namespace Camlispp

/-! ### `url_decode` -/

/-- The value of a hex digit. -/
def hexValue (b : UInt8) : ℕ :=
  if b ≤ 57 then b.toNat - 48 else if b ≤ 70 then b.toNat - 55 else b.toNat - 87

/-- `is >> std::hex >> value` on a short text: white space is skipped, then a sign and a `0x` may
stand, then the longest run of hex digits is taken; it must not be empty. What follows is left. -/
def extractHex (s : Bytes) : Option ℤ :=
  let s := s.dropWhile isSpace
  let negative := s.head? = some 45
  let s := if negative ∨ s.head? = some 43 then s.tail else s
  let s := if (lit "0x").isPrefixOf s || (lit "0X").isPrefixOf s then s.drop 2 else s
  let digits := s.takeWhile isHexDigit
  if digits = [] then none
  else
    let value : ℤ := digits.foldl (fun n b ↦ 16 * n + hexValue b) 0
    some (if negative then -value else value)

/-- `url_decode`: none where it returns false. -/
def urlDecode : Bytes → Option Bytes
  | [] => some []
  | 37 :: a :: b :: s =>
    match extractHex [a, b] with
    | some value => (urlDecode s).map (UInt8.ofInt value :: ·)
    | none => none
  | 37 :: _ => none
  | 43 :: s => (urlDecode s).map (32 :: ·)
  | c :: s => (urlDecode s).map (c :: ·)

theorem urlDecode_cons {c : UInt8} (hc : c ≠ 37) (s : Bytes) :
    urlDecode (c :: s) = (urlDecode s).map ((if c = 43 then 32 else c) :: ·) := by
  rw [urlDecode.eq_def]
  split <;> simp_all

/-- Text without escapes and plus signs stays as it is. -/
theorem urlDecode_append {u : Bytes} (hpct : 37 ∉ u) (hplus : 43 ∉ u) (s : Bytes) :
    urlDecode (u ++ s) = (urlDecode s).map (u ++ ·) := by
  induction u with
  | nil => simp
  | cons c u ih =>
    obtain ⟨hc, hu⟩ := not_or.1 (mt List.mem_cons.2 hpct)
    obtain ⟨hc', hu'⟩ := not_or.1 (mt List.mem_cons.2 hplus)
    rw [List.cons_append, urlDecode_cons (Ne.symm hc), if_neg (Ne.symm hc'), ih hu hu',
      Option.map_map]
    rfl

/-- A text without escapes and plus signs is its own decoding. -/
theorem urlDecode_eq_self {s : Bytes} (hpct : 37 ∉ s) (hplus : 43 ∉ s) : urlDecode s = some s := by
  have happend := urlDecode_append hpct hplus []
  rwa [List.append_nil, urlDecode, Option.map_some, List.append_nil] at happend

/-! ### The grammar -/

/-- `qi::char_("a-zA-Z_")`. -/
def isKeyStart (b : UInt8) : Bool := isAlpha b || b = 95

/-- `qi::char_("a-zA-Z_0-9")`. -/
def isKeyRest (b : UInt8) : Bool := isAlpha b || b = 95 || isDigit b

/-- `qi::char_("/:_@a-zA-Z0-9.,+*!=-")`. -/
def isValueByte (b : UInt8) : Bool := isAlnum b || b ∈ lit "/:_@.,+*!=-"

/-- `key = qi::char_("a-zA-Z_") >> *qi::char_("a-zA-Z_0-9")`. -/
def queryKey : Peg UInt8 Bytes :=
  map (fun x ↦ x.1 :: x.2) (seq (satisfy isKeyStart) (many (satisfy isKeyRest)))

/-- `value = +qi::char_("/:_@a-zA-Z0-9.,+*!=-")`. -/
def queryValue : Peg UInt8 Bytes := many1 (satisfy isValueByte)

/-- `pair = key >> -('=' >> value)`. -/
def queryPair : Peg UInt8 (Bytes × Bytes) :=
  map (fun x ↦ (x.1, (x.2.map Prod.snd).getD []))
    (seq queryKey (opt (seq (literal (lit "=")) queryValue)))

/-- `(qi::lit(';') | qi::lit('&')) >> pair`. -/
def querySep : Peg UInt8 (Bytes × Bytes) :=
  map Prod.snd (seq (alt (literal (lit ";")) (literal (lit "&"))) queryPair)

/-- `query = pair >> *((qi::lit(';') | qi::lit('&')) >> pair)`. -/
def keysAndValues : Peg UInt8 (List (Bytes × Bytes)) :=
  map (fun x ↦ x.1 :: x.2) (seq queryPair (many querySep))

/-! ### The decoders -/

/-- `input.substr(input.find("?") + 1)` with an `unsigned` position. -/
def dropQuestion (input : Bytes) : Bytes :=
  let found := findUnsigned (lit "?") input
  if found ≠ npos then input.drop ((found + 1) % 2 ^ 32) else input

/-- `decode_query_string_blobs`. -/
def decodeQueryStringBlobs (input : Bytes) : List Bytes :=
  match keysAndValues (dropQuestion input) with
  | none => []
  | some (pairs, _) =>
    ((OrdMap.collect pairs).entries.filter fun e ↦ (lit "blob").isPrefixOf e.1).map Prod.snd

/-- `decode_query_string_after`. Its body is guarded by the comparison with `npos`. -/
def decodeQueryStringAfter (requestPath : Bytes) : Option Bytes :=
  if findUnsigned (lit "?") requestPath ≠ npos then
    match keysAndValues (dropQuestion requestPath) with
    | none => none
    | some (pairs, _) =>
      ((OrdMap.collect pairs).entries.find? fun e ↦ (lit "after").isPrefixOf e.1).map Prod.snd
  else none

theorem dropQuestion_of_notMem {s : Bytes} (h : 63 ∉ s) : dropQuestion s = s := by
  have hfind : find (lit "?") s = none := find_singleton_of_notMem h
  rw [dropQuestion, if_pos (findUnsigned_ne_npos _ _), findUnsigned_of_find_none hfind]
  rfl

theorem dropQuestion_append {s : Bytes} (h : 63 ∉ s) (hlen : s.length + 1 < 2 ^ 32) (t : Bytes) :
    dropQuestion (s ++ 63 :: t) = t := by
  have hfind : find (lit "?") (s ++ 63 :: t) = some s.length := find_singleton_append h t
  rw [dropQuestion, if_pos (findUnsigned_ne_npos _ _), findUnsigned_of_find hfind (by omega),
    Nat.mod_eq_of_lt hlen]
  simp

/-! ### Parameters are read back -/

/-- A parameter in the characters of the grammar. -/
structure IsPair (p : Bytes × Bytes) : Prop where
  key : ∃ c k, p.1 = c :: k ∧ isKeyStart c = true ∧ ∀ b ∈ k, isKeyRest b = true
  value_ne : p.2 ≠ []
  value : ∀ b ∈ p.2, isValueByte b = true

/-- `key=value`. -/
def pairText (p : Bytes × Bytes) : Bytes := p.1 ++ 61 :: p.2

/-- What may follow a parameter: nothing, or the next one. -/
def EndsPair (t : Bytes) : Prop := ∀ b, t.head? = some b → isValueByte b = false

theorem endsPair_nil : EndsPair [] := fun _ h ↦ absurd h (by simp)

theorem endsPair_amp (t : Bytes) : EndsPair (38 :: t) := by
  rintro b hb
  obtain rfl := Option.some.inj hb
  decide

theorem takeWhile_append_ends {f : UInt8 → Bool} {u t : Bytes} (hu : ∀ b ∈ u, f b = true)
    (ht : ∀ b, t.head? = some b → f b = false) :
    (u ++ t).takeWhile f = u ∧ (u ++ t).dropWhile f = t := by
  rw [List.takeWhile_append_of_pos hu, List.dropWhile_append_of_pos hu]
  cases t with
  | nil => simp
  | cons b t => simp [ht b rfl]

theorem queryPair_text {p : Bytes × Bytes} (hp : IsPair p) {t : Bytes} (ht : EndsPair t) :
    queryPair (pairText p ++ t) = some (p, t) := by
  obtain ⟨⟨c, k, hkey, hc, hk⟩, hne, hv⟩ := hp
  obtain ⟨htake, hdrop⟩ := takeWhile_append_ends hk (t := 61 :: (p.2 ++ t)) fun b hb ↦ by
    obtain rfl := Option.some.inj hb
    decide
  obtain ⟨hvtake, hvdrop⟩ := takeWhile_append_ends hv ht
  have htext : pairText p ++ t = c :: (k ++ 61 :: (p.2 ++ t)) := by simp [pairText, hkey]
  have hqkey : queryKey (c :: (k ++ 61 :: (p.2 ++ t))) = some (c :: k, 61 :: (p.2 ++ t)) := by
    simp [queryKey, Peg.map, seq, satisfy, hc, many_satisfy, htake, hdrop]
  have heq : literal (lit "=") (61 :: (p.2 ++ t)) = some ((), p.2 ++ t) :=
    literal_append (lit "=") _
  have hqval : queryValue (p.2 ++ t) = some (p.2, t) := by
    rw [queryValue, many1_satisfy, hvtake, hvdrop, if_neg hne]
  rw [htext, queryPair, Peg.map, seq, hqkey]
  simp [opt, seq, heq, hqval, ← hkey]

theorem querySep_text {p : Bytes × Bytes} (hp : IsPair p) {t : Bytes} (ht : EndsPair t) :
    querySep (38 :: (pairText p ++ t)) = some (p, t) := by
  have hsep : alt (literal (lit ";")) (literal (lit "&")) (38 :: (pairText p ++ t)) =
      some ((), pairText p ++ t) := by
    simp [alt, show lit ";" = [59] from rfl, show lit "&" = [38] from rfl, literal_singleton]
  simp [querySep, Peg.map, seq, hsep, queryPair_text hp ht]

theorem consumes_querySep : Consumes 1 querySep :=
  Consumes.map (Consumes.mono (Consumes.seq
    (Consumes.alt (consumes_literal (lit ";")) (consumes_literal (lit "&")))
    (Consumes.map (Consumes.seq (Consumes.map (Consumes.seq (consumes_satisfy _)
      (consumes_many (consumes_satisfy _))) _)
      (Consumes.opt (Consumes.seq (consumes_literal (lit "="))
        (consumes_many1 (consumes_satisfy _))))) _)) (by decide)) _

/-- Parameters are read back, all of them and in order, in front of whatever further parameters are
read from the rest. -/
theorem keysAndValues_append {p : Bytes × Bytes} (hp : IsPair p) {ps qs : List (Bytes × Bytes)}
    (hps : ∀ q ∈ ps, IsPair q) {r t : Bytes} (hr : EndsPair r)
    (hrest : many querySep r = some (qs, t)) :
    keysAndValues (pairText p ++ ((ps.map fun q ↦ 38 :: pairText q).flatten ++ r)) =
      some (p :: (ps ++ qs), t) := by
  have hends : ∀ ps : List (Bytes × Bytes),
      EndsPair ((ps.map fun q ↦ 38 :: pairText q).flatten ++ r) := by
    intro ps
    cases ps with
    | nil => exact hr
    | cons q ps => exact endsPair_amp _
  have hmany : ∀ ps : List (Bytes × Bytes), (∀ q ∈ ps, IsPair q) →
      many querySep ((ps.map fun q ↦ 38 :: pairText q).flatten ++ r) = some (ps ++ qs, t) := by
    intro ps
    induction ps with
    | nil => exact fun _ ↦ hrest
    | cons q ps ih =>
      intro hps
      rw [List.map_cons, List.flatten_cons, List.cons_append, List.cons_append, List.append_assoc]
      exact many_of_some consumes_querySep (querySep_text (hps q List.mem_cons_self) (hends ps))
        (ih fun r hr ↦ hps r (List.mem_cons_of_mem _ hr))
  rw [keysAndValues, Peg.map, seq, queryPair_text hp (hends ps), Option.bind_some, hmany ps hps]
  rfl

/-- **Parameters are read back**, all of them and in order. -/
theorem keysAndValues_text {p : Bytes × Bytes} (hp : IsPair p) (ps : List (Bytes × Bytes))
    (hps : ∀ q ∈ ps, IsPair q) :
    keysAndValues (pairText p ++ (ps.map fun q ↦ 38 :: pairText q).flatten) =
      some (p :: ps, []) := by
  have hread := keysAndValues_append hp hps endsPair_nil (many_of_none rfl)
  rwa [List.append_nil, List.append_nil] at hread

end Camlispp
