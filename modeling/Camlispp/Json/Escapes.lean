import Camlispp.Library.Peg
import Camlispp.Server.Json

/-!
# JSON strings

A string is recognized by one grammar and decoded by another. The recognizer takes characters and
`lex`-style escapes up to the closing quote: behind a backslash an octal number, or `x` and a hex
number, or any other character. The decoder, `substitute_esc_chars`, knows the escapes of JSON, and
also `\x`; others it drops. It never looks at the last byte.

`isBody` says which texts the recognizer takes for the inside of a string
(`many_strCh_iff`). What the writer makes of a string is such a text, and decoding it gives the
string back, **whatever bytes it holds** (`substituteEscChars_escape`).

## What each result rests on

* `strCh_body` and `isBody_of_many`: the recognizer and `isBody` go through a text in the same
  steps, a character or an escape at a time.
* `substituteEscChars_escaped`: one byte that the writer escaped is decoded to itself. It goes
  through the bytes by their kind, and `unicodeStrToChar_toHexChar` is the case of the control
  characters and of the bytes from 128 on.

The decoder is more generous than the writer. What it makes of other escapes is in its definition,
and no result here depends on it.
-/

open Bytes

namespace Camlispp

namespace Json

/-! ### Decoding -/

/-- `hex_to_num`. -/
def hexToNum (c : UInt8) : ℕ :=
  if 48 ≤ c ∧ c ≤ 57 then c.toNat - 48
  else if 97 ≤ c ∧ c ≤ 102 then c.toNat - 87
  else if 65 ≤ c ∧ c ≤ 70 then c.toNat - 55
  else 0

/-- `hex_str_to_char`, for `char`. -/
def hexStrToChar (a b : UInt8) : UInt8 := UInt8.ofNat (hexToNum a * 2 ^ 4 + hexToNum b)

/-- `unicode_str_to_char`, for `char`: the two upper digits are shifted out. -/
def unicodeStrToChar (a b c d : UInt8) : UInt8 :=
  UInt8.ofNat (hexToNum a * 2 ^ 12 + hexToNum b * 2 ^ 8 + hexToNum c * 2 ^ 4 + hexToNum d)

/-- The escapes of one character in `append_esc_char_and_incr_iter`. -/
def escChar : UInt8 → Option UInt8
  | 116 => some 9
  | 98 => some 8
  | 102 => some 12
  | 110 => some 10
  | 114 => some 13
  | 92 => some 92
  | 47 => some 47
  | 34 => some 34
  | _ => none

/-- `substitute_esc_chars`, with `append_esc_char_and_incr_iter`. A backslash at the end is kept, an
unknown escape and one that is cut off are dropped. -/
def substituteEscChars : Bytes → Bytes
  | 92 :: 120 :: a :: b :: s => hexStrToChar a b :: substituteEscChars s
  | 92 :: 117 :: a :: b :: c :: d :: s => unicodeStrToChar a b c d :: substituteEscChars s
  | 92 :: c :: s => (escChar c).toList ++ substituteEscChars s
  | c :: s => c :: substituteEscChars s
  | [] => []

/-- `get_str_`: what stands between the quotes, decoded. -/
def getStrText (s : Bytes) : Bytes := substituteEscChars (s.tail.dropLast)

/-! ### Recognizing -/

/-- Whether a byte is an octal digit. -/
def isOctDigit (b : UInt8) : Bool := 48 ≤ b && b ≤ 55

/-- `uint_parser` for a radix, a largest number of digits and a largest value: at least one digit,
and no overflow. -/
def uintParser (digit : UInt8 → Bool) (radix digits max : ℕ) : Peg UInt8 ℕ := fun t ↦
  let run := (t.take digits).takeWhile digit
  let n := run.foldl (fun n b ↦ radix * n + hexToNum b) 0
  if run = [] ∨ max < n then none else some (n, t.drop run.length)

/-- `x`, in either case. -/
def isX (b : UInt8) : Bool := b = 120 || b = 88

/-- An octal number that is a `char`. -/
def octParser : Peg UInt8 ℕ := uintParser isOctDigit 8 3 127

/-- A hex number that is a `char`. -/
def hexParser : Peg UInt8 ℕ := uintParser isHexDigit 16 2 127

/-- `lex_escape_ch_p`. -/
def lexEscapeCh : Peg UInt8 Unit :=
  Peg.alt (Peg.void (Peg.satisfy (· ≠ 92)))
    (Peg.void (Peg.seq (Peg.literal [92])
      (Peg.alt (Peg.alt (Peg.void octParser) (Peg.void (Peg.seq (Peg.satisfy isX) hexParser)))
        (Peg.void (Peg.butNot (Peg.satisfy fun c ↦ !isX c) octParser)))))

/-- A character of a string: `lex_escape_ch_p` but not a quote. -/
def strCh : Peg UInt8 Unit := Peg.butNot lexEscapeCh (Peg.literal [34])

/-- `string_`, behind white space: a quote, characters, and a quote. -/
def stringText : Peg UInt8 Bytes :=
  Peg.text (Peg.seq (Peg.literal [34]) (Peg.seq (Peg.many strCh) (Peg.literal [34])))

/-! ### What is recognized -/

/-- Behind `\x` stand one or two hex digits, which do not make more than 127. -/
def hexFollows : Bytes → Bool
  | h :: h' :: _ => isHexDigit h && (!isHexDigit h' || hexToNum h ≤ 7)
  | [h] => isHexDigit h
  | [] => false

/-- The inside of a string: quotes and backslashes stand behind a backslash only. -/
def isBody : Bytes → Bool
  | 92 :: c :: s => (!isX c || hexFollows s) && isBody s
  | b :: s => b ≠ 34 && b ≠ 92 && isBody s
  | [] => true

theorem isBody_cons {b : UInt8} (hb : b ≠ 92) (s : Bytes) :
    isBody (b :: s) = (b ≠ 34 && isBody s) := by
  rw [isBody]
  · simp [hb]
  · exact fun _ _ h ↦ absurd h hb

theorem isHexDigit_of_isOctDigit {b : UInt8} (h : isOctDigit b = true) : isHexDigit b = true := by
  simp only [isOctDigit, isHexDigit, isUpperHex, Bool.or_eq_true, Bool.and_eq_true,
    decide_eq_true_eq] at h ⊢
  exact Or.inl (Or.inl ⟨h.1, h.2.trans (by decide)⟩)

theorem hexToNum_lt (c : UInt8) : hexToNum c < 16 := by
  rw [hexToNum]
  simp only [UInt8.le_iff_toNat_le, UInt8.reduceToNat]
  split_ifs <;> omega

/-- Hex digits stand for themselves. -/
theorem isBody_digits {ds : Bytes} (hds : ∀ d ∈ ds, isHexDigit d = true) (s : Bytes) :
    isBody (ds ++ s) = isBody s := by
  induction ds with
  | nil => rfl
  | cons d ds ih =>
    have hd := hds d List.mem_cons_self
    have h92 : d ≠ 92 := fun h ↦ absurd (h ▸ hd) (by decide)
    have h34 : d ≠ 34 := fun h ↦ absurd (h ▸ hd) (by decide)
    rw [List.cons_append, isBody_cons h92, ih fun e he ↦ hds e (List.mem_cons_of_mem _ he)]
    simp [h34]

/-- The digits that a number takes from a text. -/
theorem uintParser_append {digit : UInt8 → Bool} {ds : Bytes} (hds : ∀ d ∈ ds, digit d = true)
    {k : ℕ} (hk : ds.length ≤ k) {r : Bytes}
    (hr : ds.length = k ∨ ∀ c, r.head? = some c → digit c = false) (radix max : ℕ) :
    uintParser digit radix k max (ds ++ r) =
      if ds = [] ∨ max < ds.foldl (fun n b ↦ radix * n + hexToNum b) 0 then none
      else some (ds.foldl (fun n b ↦ radix * n + hexToNum b) 0, r) := by
  have hrun : ((ds ++ r).take k).takeWhile digit = ds := by
    rw [List.take_append, List.take_of_length_le hk, List.takeWhile_append_of_pos hds]
    rcases hr with hr | hr
    · rw [hr, Nat.sub_self, List.take_zero, List.takeWhile_nil, List.append_nil]
    · rcases r with - | ⟨c, r⟩
      · simp
      · rcases hk' : k - ds.length with - | m
        · simp
        · simp [hr c rfl]
  simp only [uintParser, hrun, List.drop_left]

/-- Every text splits behind the digits that a number takes from it. -/
theorem exists_digits (digit : UInt8 → Bool) (k : ℕ) (t : Bytes) :
    ∃ ds r, t = ds ++ r ∧ (∀ d ∈ ds, digit d = true) ∧ ds.length ≤ k ∧
      (ds.length = k ∨ ∀ c, r.head? = some c → digit c = false) := by
  induction t generalizing k with
  | nil =>
    exact ⟨[], [], rfl, fun d hd ↦ (List.not_mem_nil hd).elim, Nat.zero_le k, Or.inr (by simp)⟩
  | cons b t ih =>
    rcases k with - | k
    · exact ⟨[], b :: t, rfl, fun d hd ↦ (List.not_mem_nil hd).elim, le_rfl, Or.inl rfl⟩
    · rcases hb : digit b with - | -
      · refine ⟨[], b :: t, rfl, fun d hd ↦ (List.not_mem_nil hd).elim, Nat.zero_le _, Or.inr ?_⟩
        rintro c hc
        obtain rfl := Option.some.inj hc
        exact hb
      · obtain ⟨ds, r, rfl, hds, hk, hr⟩ := ih k
        refine ⟨b :: ds, r, rfl, List.forall_mem_cons.2 ⟨hb, hds⟩, ?_, ?_⟩
        · exact Nat.succ_le_succ hk
        · exact hr.imp (congrArg Nat.succ) id

theorem lexEscapeCh_plain {b : UInt8} (hb : b ≠ 92) (t : Bytes) :
    lexEscapeCh (b :: t) = some ((), t) := by
  simp [lexEscapeCh, Peg.alt, Peg.void, Peg.map, Peg.satisfy, hb]

theorem lexEscapeCh_escape (c : UInt8) (t : Bytes) :
    lexEscapeCh (92 :: c :: t) =
      ((octParser (c :: t)).map fun x ↦ ((), x.2)).or
        (if isX c then (hexParser t).map fun x ↦ ((), x.2) else some ((), t)) := by
  rcases hoct : octParser (c :: t) with - | x
  · rcases hc : isX c with - | -
    · simp [lexEscapeCh, Peg.alt, Peg.void, Peg.map, Peg.satisfy, Peg.seq, Peg.literal_singleton,
        Peg.butNot, hoct, hc]
    · rcases hhex : hexParser t with - | y <;>
        simp [lexEscapeCh, Peg.alt, Peg.void, Peg.map, Peg.satisfy, Peg.seq,
          Peg.literal_singleton, Peg.butNot, hoct, hc, hhex]
  · simp [lexEscapeCh, Peg.alt, Peg.void, Peg.map, Peg.satisfy, Peg.seq, Peg.literal_singleton,
      hoct]

theorem lexEscapeCh_backslash : lexEscapeCh [92] = none := by decide

theorem strCh_quote (t : Bytes) : strCh (34 :: t) = none := by
  simp [strCh, Peg.butNot, lexEscapeCh_plain (show (34 : UInt8) ≠ 92 by decide),
    Peg.literal_singleton]

theorem strCh_of_ne {b : UInt8} (hb : b ≠ 34) (t : Bytes) :
    strCh (b :: t) = lexEscapeCh (b :: t) := by
  rcases h : lexEscapeCh (b :: t) with - | x
  · simp [strCh, Peg.butNot, h]
  · simp [strCh, Peg.butNot, h, Peg.literal_singleton, hb]

/-- Two hex digits of which the first is at most 7, or one. -/
theorem hexFollows_digits_iff {es q : Bytes} (hes : ∀ d ∈ es, isHexDigit d = true)
    (hlen : es.length ≤ 2) (hq : es.length = 2 ∨ ∀ c, q.head? = some c → isHexDigit c = false) :
    hexFollows (es ++ q) = true ↔
      es ≠ [] ∧ es.foldl (fun n b ↦ 16 * n + hexToNum b) 0 ≤ 127 := by
  rcases es with - | ⟨a, - | ⟨b, - | ⟨c, es⟩⟩⟩
  · rcases q with - | ⟨c, q⟩
    · simp [hexFollows]
    · have hc : isHexDigit c = false := hq.resolve_left (by simp) c rfl
      rcases q with - | ⟨d, q⟩ <;> simp [hexFollows, hc]
  · have ha := hexToNum_lt a
    have hval : (16 * 0 + hexToNum a ≤ 127) := by omega
    rcases q with - | ⟨c, q⟩
    · simp [hexFollows, hes a List.mem_cons_self]
      omega
    · have hc : isHexDigit c = false := hq.resolve_left (by simp) c rfl
      simp [hexFollows, hes a List.mem_cons_self, hc]
      omega
  · have hb := hexToNum_lt b
    have hda := hes a List.mem_cons_self
    have hdb := hes b (List.mem_cons_of_mem _ List.mem_cons_self)
    simp [hexFollows, hda, hdb]
    omega
  · simp at hlen

/-- **One character of a body.** What is left of the body is one. -/
theorem strCh_body {b : UInt8} {s : Bytes} (h : isBody (b :: s) = true) (t : Bytes) :
    ∃ u v, b :: s = u ++ v ∧ u ≠ [] ∧ isBody v = true ∧
      strCh (b :: (s ++ 34 :: t)) = some ((), v ++ 34 :: t) := by
  rcases eq_or_ne b 92 with rfl | hb
  · rcases s with - | ⟨c, s⟩
    · exact absurd h (by decide)
    rw [isBody, Bool.and_eq_true, Bool.or_eq_true, Bool.not_eq_true'] at h
    rw [strCh_of_ne (by decide), List.cons_append, lexEscapeCh_escape]
    -- the quote behind the body ends a number
    obtain ⟨ds, r, hcs, hds, hlen, hr⟩ := exists_digits isOctDigit 3 (c :: s)
    have hr' : ds.length = 3 ∨ ∀ d, (r ++ 34 :: t).head? = some d → isOctDigit d = false := by
      refine hr.imp_right fun hr d hd ↦ ?_
      rcases r with - | ⟨e, r⟩
      · obtain rfl := Option.some.inj hd
        rfl
      · exact hr d hd
    have hoct := uintParser_append hds hlen hr' 8 127
    rw [← List.append_assoc, ← hcs, List.cons_append] at hoct
    rw [octParser, hoct]
    rcases em (ds = [] ∨ 127 < ds.foldl (fun n b ↦ 8 * n + hexToNum b) 0) with hnum | hnum
    · rw [if_pos hnum, Option.map_none, Option.none_or]
      obtain ⟨hfol, hbody⟩ := h
      rcases hx : isX c with - | -
      · exact ⟨[92, c], s, rfl, List.cons_ne_nil _ _, hbody, rfl⟩
      -- `x`, and a hex number
      have hfol := hfol.resolve_left (by rw [hx]; exact Bool.noConfusion)
      obtain ⟨es, q, rfl, hes, hlen', hq⟩ := exists_digits isHexDigit 2 s
      have hq' : es.length = 2 ∨ ∀ d, (q ++ 34 :: t).head? = some d → isHexDigit d = false := by
        refine hq.imp_right fun hq d hd ↦ ?_
        rcases q with - | ⟨e, q⟩
        · obtain rfl := Option.some.inj hd
          rfl
        · exact hq d hd
      have hsmall : es ≠ [] ∧ es.foldl (fun n b ↦ 16 * n + hexToNum b) 0 ≤ 127 :=
        (hexFollows_digits_iff hes hlen' hq).1 hfol
      refine ⟨92 :: c :: es, q, rfl, List.cons_ne_nil _ _, ?_, ?_⟩
      · rwa [isBody_digits hes] at hbody
      · rw [if_pos rfl, List.append_assoc, hexParser, uintParser_append hes hlen' hq', if_neg]
        · rfl
        · rw [not_or, not_lt]
          exact hsmall
    · -- an octal number
      rw [if_neg hnum]
      have hne : ds ≠ [] := fun h ↦ hnum (Or.inl h)
      obtain ⟨d, ds, rfl⟩ := List.exists_cons_of_ne_nil hne
      obtain ⟨rfl, rfl : s = ds ++ r⟩ := List.cons.inj hcs
      refine ⟨92 :: c :: ds, r, rfl, List.cons_ne_nil _ _, ?_, rfl⟩
      have hbody := h.2
      rwa [isBody_digits] at hbody
      exact fun e he ↦ isHexDigit_of_isOctDigit (hds e (List.mem_cons_of_mem _ he))
  · rw [isBody_cons hb, Bool.and_eq_true, decide_eq_true_eq] at h
    exact ⟨[b], s, rfl, List.cons_ne_nil _ _, h.2,
      by rw [strCh_of_ne h.1, lexEscapeCh_plain hb]⟩

/-- A character of a string, put in front of a body, makes a body. -/
theorem strCh_eq_some {s r : Bytes} (h : strCh s = some ((), r)) :
    ∃ u, s = u ++ r ∧ u ≠ [] ∧
      ∀ v t, r = v ++ 34 :: t → isBody v = true → isBody (u ++ v) = true := by
  rcases s with - | ⟨b, s⟩
  · cases h
  rcases eq_or_ne b 34 with rfl | h34
  · rw [strCh_quote] at h
    cases h
  rw [strCh_of_ne h34] at h
  rcases eq_or_ne b 92 with rfl | hb
  · rcases s with - | ⟨c, s⟩
    · rw [lexEscapeCh_backslash] at h
      cases h
    rw [lexEscapeCh_escape] at h
    obtain ⟨ds, q, hcs, hds, hlen, hq⟩ := exists_digits isOctDigit 3 (c :: s)
    have hoct := uintParser_append hds hlen hq 8 127
    rw [← hcs] at hoct
    rw [octParser, hoct] at h
    rcases em (ds = [] ∨ 127 < ds.foldl (fun n b ↦ 8 * n + hexToNum b) 0) with hnum | hnum
    · rw [if_pos hnum, Option.map_none, Option.none_or] at h
      rcases hx : isX c with - | -
      · rw [hx, if_neg Bool.false_ne_true] at h
        obtain rfl : s = r := (Prod.mk.inj (Option.some.inj h)).2
        refine ⟨[92, c], rfl, List.cons_ne_nil _ _, fun v t _ hbody ↦ ?_⟩
        simp [isBody, hx, hbody]
      rw [hx, if_pos rfl] at h
      obtain ⟨es, q', rfl, hes, hlen', hq'⟩ := exists_digits isHexDigit 2 s
      rw [hexParser, uintParser_append hes hlen' hq'] at h
      split_ifs at h with hnum'
      · cases h
      · obtain rfl : q' = r := (Prod.mk.inj (Option.some.inj h)).2
        rw [not_or, not_lt] at hnum'
        refine ⟨92 :: c :: es, rfl, List.cons_ne_nil _ _, fun v t hv hbody ↦ ?_⟩
        have hend : es.length = 2 ∨ ∀ d, v.head? = some d → isHexDigit d = false := by
          refine hq'.imp_right fun hq' d hd ↦ hq' d ?_
          rw [hv, List.head?_append, hd]
          rfl
        have hfol : hexFollows (es ++ v) = true := (hexFollows_digits_iff hes hlen' hend).2 hnum'
        rw [List.cons_append, List.cons_append, isBody, isBody_digits hes, hbody, hfol]
        simp
    · rw [if_neg hnum] at h
      obtain rfl : q = r := (Prod.mk.inj (Option.some.inj h)).2
      have hne : ds ≠ [] := fun h ↦ hnum (Or.inl h)
      obtain ⟨d, ds, rfl⟩ := List.exists_cons_of_ne_nil hne
      obtain ⟨rfl, rfl : s = ds ++ q⟩ := List.cons.inj hcs
      refine ⟨92 :: c :: ds, rfl, List.cons_ne_nil _ _, fun v t _ hbody ↦ ?_⟩
      have hx : isX c = false := by
        have hc := hds c List.mem_cons_self
        rcases hx : isX c with - | -
        · rfl
        · rw [isX, Bool.or_eq_true, decide_eq_true_eq, decide_eq_true_eq] at hx
          rcases hx with rfl | rfl
          · exact absurd hc (by decide)
          · exact absurd hc (by decide)
      rw [List.cons_append, List.cons_append, isBody, isBody_digits, hbody, hx]
      · rfl
      · exact fun e he ↦ isHexDigit_of_isOctDigit (hds e (List.mem_cons_of_mem _ he))
  · rw [lexEscapeCh_plain hb] at h
    obtain rfl : s = r := (Prod.mk.inj (Option.some.inj h)).2
    refine ⟨[b], rfl, List.cons_ne_nil _ _, fun v t _ hbody ↦ ?_⟩
    rw [List.singleton_append, isBody_cons hb, hbody, Bool.and_true]
    exact decide_eq_true h34

theorem consumes_strCh : Peg.Consumes 1 strCh := by
  intro s a r h
  obtain ⟨u, rfl, hu, -⟩ := strCh_eq_some h
  have := List.length_pos_of_ne_nil hu
  rw [List.length_append]
  omega

theorem literal_quote_eq_some {s r : Bytes} {x : Unit}
    (h : Peg.literal [34] s = some (x, r)) : s = 34 :: r := by
  rcases s with - | ⟨b, s⟩
  · cases h
  · rw [Peg.literal_singleton] at h
    split_ifs at h with hb
    obtain ⟨-, rfl⟩ := Prod.mk.inj (Option.some.inj h)
    rw [hb]

/-- The characters of a body are taken up to the quote behind it, by induction on its length. -/
theorem exists_many_strCh {s : Bytes} (h : isBody s = true) (t : Bytes) :
    ∃ us, Peg.many strCh (s ++ 34 :: t) = some (us, 34 :: t) := by
  obtain ⟨n, hn⟩ : ∃ n, s.length = n := ⟨_, rfl⟩
  induction n using Nat.strong_induction_on generalizing s with
  | _ n ih =>
    rcases s with - | ⟨b, s⟩
    · exact ⟨[], Peg.many_of_none (strCh_quote t)⟩
    · obtain ⟨u, v, hs, hu, hv, hstep⟩ := strCh_body h t
      have hlt : v.length < n := by
        have := List.length_pos_of_ne_nil hu
        rw [← hn, hs, List.length_append]
        omega
      obtain ⟨us, hus⟩ := ih v.length hlt hv rfl
      exact ⟨() :: us, Peg.many_of_some consumes_strCh hstep hus⟩

/-- What is taken up to a quote is a body. -/
theorem isBody_of_many {s t : Bytes} {us : List Unit}
    (h : Peg.many strCh s = some (us, 34 :: t)) : ∃ v, s = v ++ 34 :: t ∧ isBody v = true := by
  have key : ∀ n s, (Peg.manyFuel strCh n s).2 = 34 :: t →
      ∃ v, s = v ++ 34 :: t ∧ isBody v = true := by
    intro n
    induction n with
    | zero => exact fun s hs ↦ ⟨[], hs, rfl⟩
    | succ n ih =>
      intro s hs
      rw [Peg.manyFuel] at hs
      rcases hstep : strCh s with - | ⟨_, r⟩
      · rw [hstep] at hs
        exact ⟨[], hs, rfl⟩
      · rw [hstep] at hs
        obtain ⟨v, rfl, hv⟩ := ih r hs
        obtain ⟨u, rfl, -, hbody⟩ := strCh_eq_some hstep
        exact ⟨u ++ v, (List.append_assoc _ _ _).symm, hbody v t rfl hv⟩
  exact key s.length s (congrArg Prod.snd (Option.some.inj h))

/-- **What the recognizer takes for a string**: a body in quotes. -/
theorem stringText_eq_some_iff {s u r : Bytes} :
    stringText s = some (u, r) ↔ ∃ v, isBody v = true ∧ u = 34 :: (v ++ [34]) ∧ s = u ++ r := by
  constructor
  · intro h
    obtain ⟨x, hx, hu⟩ := Peg.text_eq_some h
    obtain ⟨⟨_, s₁⟩, hquote, hx⟩ := Option.bind_eq_some_iff.1 hx
    obtain ⟨y, hy, heq⟩ := Option.map_eq_some_iff.1 hx
    obtain ⟨⟨us, s₂⟩, hmany, hy⟩ := Option.bind_eq_some_iff.1 hy
    obtain ⟨⟨_, s₃⟩, hclose, heq'⟩ := Option.map_eq_some_iff.1 hy
    obtain rfl : s₃ = r := by
      rw [← heq'] at heq
      exact (Prod.mk.inj heq).2
    obtain rfl : s = 34 :: s₁ := literal_quote_eq_some hquote
    obtain rfl : s₂ = 34 :: s₃ := literal_quote_eq_some hclose
    obtain ⟨v, rfl, hv⟩ := isBody_of_many hmany
    have htext : 34 :: (v ++ 34 :: s₃) = (34 :: (v ++ [34])) ++ s₃ := by simp
    refine ⟨v, hv, ?_, ?_⟩
    · rw [hu, htext, List.length_append, Nat.add_sub_cancel, List.take_left]
    · rw [hu, htext, List.length_append, Nat.add_sub_cancel, List.take_left]
  · rintro ⟨v, hv, rfl, rfl⟩
    obtain ⟨us, hus⟩ := exists_many_strCh hv r
    refine Peg.text_of_some (a := ((), us, ())) ?_
    have htext : (34 :: (v ++ [34])) ++ r = 34 :: (v ++ 34 :: r) := by simp
    rw [htext]
    simp [Peg.seq, Peg.literal_singleton, hus]

/-! ### What the writer makes of a string -/

theorem hexToNum_toHexChar {n : ℕ} (hn : n < 16) : hexToNum (toHexChar n) = n := by
  have key : ∀ n < 16, hexToNum (toHexChar n) = n := by decide
  exact key n hn

theorem unicodeStrToChar_toHexChar (b : UInt8) :
    unicodeStrToChar 48 48 (toHexChar (b.toNat / 16)) (toHexChar (b.toNat % 16)) = b := by
  have hb := b.toNat_lt
  rw [unicodeStrToChar, hexToNum_toHexChar (by omega), hexToNum_toHexChar (by omega)]
  have h48 : hexToNum 48 = 0 := by decide
  have hval : hexToNum 48 * 2 ^ 12 + hexToNum 48 * 2 ^ 8 + b.toNat / 16 * 2 ^ 4 + b.toNat % 16 =
      b.toNat := by
    rw [h48]
    omega
  rw [hval, UInt8.ofNat_toNat]

/-- **Escapes are undone**: a byte that the writer escaped is decoded to itself. -/
theorem substituteEscChars_escape (b : UInt8) (s : Bytes) :
    substituteEscChars (escape b ++ s) = b :: substituteEscChars s := by
  rw [escape]
  split_ifs with h34 h92 h8 h12 h10 h13 h9 hplain
  · rw [h34]
    rfl
  · rw [h92]
    rfl
  · rw [h8]
    rfl
  · rw [h12]
    rfl
  · rw [h10]
    rfl
  · rw [h13]
    rfl
  · rw [h9]
    rfl
  · rw [List.singleton_append, substituteEscChars]
    · exact fun _ _ _ h _ ↦ h92 h
    · exact fun _ _ _ _ _ h _ ↦ h92 h
    · exact fun _ _ h _ ↦ h92 h
  · have htext : lit "\\u00" ++ [toHexChar (b.toNat / 16), toHexChar (b.toNat % 16)] ++ s =
        92 :: 117 :: 48 :: 48 :: toHexChar (b.toNat / 16) :: toHexChar (b.toNat % 16) :: s := rfl
    rw [htext, substituteEscChars, unicodeStrToChar_toHexChar]

theorem isBody_escape (b : UInt8) (s : Bytes) : isBody (escape b ++ s) = isBody s := by
  rw [escape]
  split_ifs with h34 h92 h8 h12 h10 h13 h9 hplain
  · rfl
  · rfl
  · rfl
  · rfl
  · rfl
  · rfl
  · rfl
  · rw [List.singleton_append, isBody_cons h92]
    simp [h34]
  · have htext : lit "\\u00" ++ [toHexChar (b.toNat / 16), toHexChar (b.toNat % 16)] ++ s =
        92 :: 117 :: ([48, 48, toHexChar (b.toNat / 16), toHexChar (b.toNat % 16)] ++ s) := rfl
    have hdigit : ∀ n < 16, isHexDigit (toHexChar n) = true := by decide
    have hb := b.toNat_lt
    rw [htext, isBody, isBody_digits]
    · rfl
    · simp only [List.mem_cons, List.not_mem_nil, or_false]
      rintro d (rfl | rfl | rfl | rfl)
      · rfl
      · rfl
      · exact hdigit _ (by omega)
      · exact hdigit _ (by omega)

/-- What the writer puts between the quotes. -/
def escaped (s : Bytes) : Bytes := (s.map escape).flatten

theorem substituteEscChars_escaped (s : Bytes) : substituteEscChars (escaped s) = s := by
  induction s with
  | nil => rfl
  | cons b s ih => rw [escaped, List.map_cons, List.flatten_cons, substituteEscChars_escape,
      ← escaped, ih]

theorem isBody_escaped (s : Bytes) : isBody (escaped s) = true := by
  induction s with
  | nil => rfl
  | cons b s ih => rwa [escaped, List.map_cons, List.flatten_cons, isBody_escape]

theorem writeStr_eq (s : Bytes) : writeStr s = 34 :: (escaped s ++ [34]) := rfl

theorem getStrText_quoted (v : Bytes) : getStrText (34 :: (v ++ [34])) = substituteEscChars v := by
  rw [getStrText, List.tail_cons, List.dropLast_concat]

end Json

end Camlispp
