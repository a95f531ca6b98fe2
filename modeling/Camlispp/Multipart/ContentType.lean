import Camlispp.Multipart.Encoding

/-!
# The boundary of a Content-Type header

What `parse_boundry_header` reads from a `multipart/form-data` header whose last parameter is an
unquoted boundary. `ContentType.WellFormed.attributeValue_iff` is the exact answer. It is narrow:
every other parameter must be quoted, with a non-empty 7-bit text, because an unquoted value runs to
the end of the header; there must be a space behind each semicolon, exactly one in front of the
boundary's name, and none in front of a semicolon, except behind the media type.

Whatever else is read instead of the boundary is a single line (`oneLine_of_attributeValue`), so it
can be no boundary of the body.

## What the result rests on

* `headerValue_spec`, `headerPair_spec` and `headerSep_spec` say once what each rule of the grammar
  takes. The rest of the module never unfolds a rule.
* `attributeValue_of_forall` and its companions read the map of the pairs off: the first pair with a
  name decides, and names are compared in lower case.
* `ContentType.WellFormed.parseBoundryHeader_text` follows the grammar over a whole header,
  separator by separator. Every way to be illegible is a place where an unquoted value runs on.

What is proved is an equivalence, so that `kept_iff`, which rests on it, is exact as well.
-/

open Bytes Peg

namespace Camlispp

/-! ### The grammar on runs of bytes -/

/-- A byte of a key. -/
def isKeyByte (b : UInt8) : Bool := !(b = 61 || b = 59) && b < 128

/-- A byte inside quotes. -/
def isQuotedByte (b : UInt8) : Bool := b ≠ 34 && b < 128

theorem headerKey_eq (s : Bytes) :
    headerKey s = if s.takeWhile isKeyByte = [] then none
      else some (s.takeWhile isKeyByte, s.dropWhile isKeyByte) := by
  rw [headerKey, ← many1_satisfy]
  congr 1
  funext s
  cases s with
  | nil => rfl
  | cons b s =>
    by_cases h : b = 61 ∨ b = 59
    · rcases h with rfl | rfl <;> rfl
    · simp [diff, satisfy, asciiChar, isKeyByte, not_or.1 h]

theorem literal_quote (b : UInt8) (s : Bytes) :
    literal (lit "\"") (b :: s) = if b = 34 then some ((), s) else none :=
  literal_singleton 34 b s

theorem openQuoted_cons (s : Bytes) :
    openQuoted (34 :: s) = if s.takeWhile isQuotedByte = [] then none
      else some (s.takeWhile isQuotedByte, s.dropWhile isQuotedByte) := by
  have hbyte : diff asciiChar (literal (lit "\"")) = satisfy isQuotedByte := by
    funext s
    cases s with
    | nil => rfl
    | cons b s =>
      rw [diff, literal_quote]
      by_cases hb : b = 34 <;> simp [hb, satisfy, asciiChar, isQuotedByte]
  rw [openQuoted, hbyte, Peg.map, seq, literal_quote, if_pos rfl, Option.bind_some, many1_satisfy]
  split_ifs <;> rfl

theorem openQuoted_of_ne {s : Bytes} (h : s.head? ≠ some 34) : openQuoted s = none := by
  cases s with
  | nil => rfl
  | cons b s =>
    have hb : b ≠ 34 := fun hb ↦ h (congrArg some hb)
    rw [openQuoted, Peg.map, seq, literal_quote, if_neg hb]
    rfl

/-- An unquoted value is the longest 7-bit run. -/
theorem headerValue_of_ne {s : Bytes} (h : s.head? ≠ some 34) :
    headerValue s = if s.takeWhile (· < 128) = [] then none
      else some (s.takeWhile (· < 128), s.dropWhile (· < 128)) := by
  have hrun := many1_satisfy (fun b : UInt8 ↦ decide (b < 128)) s
  rw [headerValue, seq, openQuoted_of_ne h]
  simp only [Option.bind_none, Option.map_none, Option.getD_none, List.nil_append]
  rw [show asciiChar = satisfy (fun b : UInt8 ↦ decide (b < 128)) from rfl, hrun]
  split_ifs <;> rfl

/-- A value behind a quote: a non-empty quoted text, or else the text and then, once more, the
longest 7-bit run. -/
theorem headerValue_quote (s : Bytes) :
    headerValue (34 :: s) =
      if s.takeWhile isQuotedByte ≠ [] ∧ (s.dropWhile isQuotedByte).head? = some 34 then
        some (s.takeWhile isQuotedByte, (s.dropWhile isQuotedByte).tail)
      else
        some (s.takeWhile isQuotedByte ++ 34 :: s.takeWhile (· < 128), s.dropWhile (· < 128)) := by
  have hrun : many1 asciiChar (34 :: s) =
      some (34 :: s.takeWhile (· < 128), s.dropWhile (· < 128)) := by
    rw [show asciiChar = satisfy (fun b : UInt8 ↦ decide (b < 128)) from rfl, many1_satisfy]
    rfl
  rw [headerValue, seq, openQuoted_cons, hrun]
  by_cases hq : s.takeWhile isQuotedByte = []
  · simp [hq]
  rcases s.dropWhile isQuotedByte with - | ⟨c, r⟩
  · simp [hq, literal, lit]
  · by_cases hc : c = 34 <;> simp [hq, literal_quote, hc]

/-! ### Values and pairs -/

/-- The text begins like a quoted one. -/
def opensQuote : Bytes → Bool
  | 34 :: c :: _ => c ≠ 34
  | _ => false

theorem opensQuote_of_head {v : Bytes} (h : v.head? ≠ some 34) : opensQuote v = false := by
  unfold opensQuote
  split
  · exact absurd rfl h
  · rfl

theorem sevenBit_takeWhile {f : UInt8 → Bool} (hf : ∀ b, f b = true → b < 128) (s : Bytes) :
    SevenBit (s.takeWhile f) := fun b hb ↦ hf b (List.mem_takeWhile_imp hb)

theorem lt_of_isQuotedByte {b : UInt8} (h : isQuotedByte b = true) : b < 128 := by
  simp only [isQuotedByte, Bool.and_eq_true, decide_eq_true_eq] at h
  exact h.2

theorem head?_takeWhile_isQuotedByte (s t : Bytes) (h : s.takeWhile isQuotedByte ≠ []) :
    (s.takeWhile isQuotedByte ++ t).head? ≠ some 34 := by
  obtain ⟨c, q, hq⟩ := List.exists_cons_of_ne_nil h
  have hc : isQuotedByte c = true := List.mem_takeWhile_imp (hq ▸ List.mem_cons_self)
  rw [hq]
  rintro heq
  obtain rfl : c = 34 := by simpa using heq
  exact absurd hc (by decide)

/-- What a value can be: 7-bit, made of the bytes of the text, and never opening a quote. -/
structure ValueOf (s v : Bytes) : Prop where
  sevenBit : SevenBit v
  opensQuote : opensQuote v = false
  subset : v ⊆ s

theorem valueOf_nil (s : Bytes) : ValueOf s [] :=
  ⟨fun _ h ↦ absurd h List.not_mem_nil, rfl, List.nil_subset s⟩

theorem headerValue_spec {s v r : Bytes} (h : headerValue s = some (v, r)) :
    ValueOf s v ∧ r ⊆ s := by
  by_cases hs : s.head? = some 34
  · obtain ⟨t, rfl⟩ : ∃ t, s = 34 :: t := by
      cases s with
      | nil => cases hs
      | cons b t => exact ⟨t, by rw [Option.some.inj hs]⟩
    have hseven : SevenBit (t.takeWhile isQuotedByte) :=
      sevenBit_takeWhile (fun _ ↦ lt_of_isQuotedByte) t
    have hsub : t.takeWhile isQuotedByte ⊆ 34 :: t := fun b hb ↦
      List.mem_cons_of_mem _ ((List.takeWhile_sublist _).subset hb)
    rw [headerValue_quote] at h
    split_ifs at h with hq
    · obtain ⟨rfl, rfl⟩ := Prod.mk.inj (Option.some.inj h)
      refine ⟨⟨hseven, opensQuote_of_head ?_, hsub⟩, fun b hb ↦ List.mem_cons_of_mem _ ?_⟩
      · simpa using head?_takeWhile_isQuotedByte t [] hq.1
      · exact (List.dropWhile_sublist _).subset (List.mem_of_mem_tail hb)
    · obtain ⟨rfl, rfl⟩ := Prod.mk.inj (Option.some.inj h)
      refine ⟨⟨?_, ?_, ?_⟩, fun b hb ↦ List.mem_cons_of_mem _ ?_⟩
      · refine hseven.append (List.forall_mem_cons.2 ⟨by decide, ?_⟩)
        exact sevenBit_takeWhile (fun b hb ↦ of_decide_eq_true hb) t
      · by_cases hne : t.takeWhile isQuotedByte = []
        · -- the byte behind the quote is no text: nothing, a second quote, or not 7-bit
          rw [hne, List.nil_append]
          rcases t with - | ⟨c, t⟩
          · rfl
          by_cases hc : c < 128
          · have hc34 : c = 34 := by
              by_contra hc34
              exact absurd hne (by simp [isQuotedByte, hc, hc34])
            simp [hc34, opensQuote]
          · simp [hc, opensQuote]
        · exact opensQuote_of_head (head?_takeWhile_isQuotedByte t _ hne)
      · refine List.append_subset.2 ⟨hsub, List.cons_subset_cons _ ?_⟩
        exact (List.takeWhile_sublist _).subset
      · exact (List.dropWhile_sublist _).subset hb
  · rw [headerValue_of_ne hs] at h
    split_ifs at h with hne
    obtain ⟨rfl, rfl⟩ := Prod.mk.inj (Option.some.inj h)
    refine ⟨⟨sevenBit_takeWhile (fun b hb ↦ of_decide_eq_true hb) s, opensQuote_of_head ?_,
      (List.takeWhile_sublist _).subset⟩, (List.dropWhile_sublist _).subset⟩
    cases s with
    | nil => simp
    | cons b s =>
      rw [List.takeWhile_cons]
      split_ifs
      · exact hs
      · simp

theorem headerPair_spec {s r : Bytes} {p : Bytes × Bytes} (h : headerPair s = some (p, r)) :
    ValueOf s p.2 ∧ r ⊆ s := by
  obtain ⟨x, hx, hp⟩ := Option.map_eq_some_iff.1 h
  obtain ⟨rfl, rfl⟩ := Prod.mk.inj hp
  obtain ⟨y, hy, hxy⟩ := Option.bind_eq_some_iff.1 hx
  obtain ⟨z, hz, rfl⟩ := Option.map_eq_some_iff.1 hxy
  rw [headerKey_eq] at hy
  split_ifs at hy
  obtain rfl := Option.some.inj hy
  have hdrop : s.dropWhile isKeyByte ⊆ s := (List.dropWhile_sublist _).subset
  -- a key alone, or a key with a value
  simp only [opt] at hz
  split at hz
  · obtain rfl := Option.some.inj hz
    exact ⟨valueOf_nil s, hdrop⟩
  · next a t hat =>
    obtain rfl := Option.some.inj hz
    obtain ⟨u, hu, hut⟩ := Option.bind_eq_some_iff.1 hat
    obtain ⟨w, hw, hwt⟩ := Option.map_eq_some_iff.1 hut
    obtain ⟨rfl, rfl⟩ := Prod.mk.inj hwt
    have hu2 : u.2 ⊆ s := by
      rw [literal] at hu
      split_ifs at hu
      obtain rfl := Option.some.inj hu
      exact fun b hb ↦ hdrop (List.mem_of_mem_drop hb)
    obtain ⟨hv, hr⟩ := headerValue_spec hw
    exact ⟨⟨hv.sevenBit, hv.opensQuote, List.Subset.trans hv.subset hu2⟩, List.Subset.trans hr hu2⟩

/-- A separator with the pair behind it. -/
def headerSep : Peg UInt8 (Bytes × Bytes) :=
  Peg.map Prod.snd (seq (literal (lit ";"))
    (Peg.map Prod.snd (seq (literal (lit " ")) headerPair)))

theorem headerSep_of_ne {s : Bytes} (h : s.head? ≠ some 59) : headerSep s = none := by
  cases s with
  | nil => rfl
  | cons b s =>
    have hb : b ≠ 59 := fun hb ↦ h (congrArg some hb)
    rw [headerSep, Peg.map, seq, show lit ";" = [59] from rfl, literal_singleton, if_neg hb]
    rfl

theorem headerSep_cons (s : Bytes) :
    headerSep (59 :: s) = if s.head? = some 32 then headerPair s.tail else none := by
  rw [headerSep, Peg.map, seq, show lit ";" = [59] from rfl, literal_singleton, if_pos rfl,
    Option.bind_some, Peg.map, seq, show lit " " = [32] from rfl]
  cases s with
  | nil => rfl
  | cons b s =>
    rw [literal_singleton]
    by_cases hb : b = 32
    · rcases hp : headerPair s with - | x <;> simp [hb, hp]
    · simp [hb]

theorem headerSep_spec {s r : Bytes} {p : Bytes × Bytes} (h : headerSep s = some (p, r)) :
    ValueOf s p.2 ∧ r ⊆ s := by
  by_cases hs : s.head? = some 59
  · obtain ⟨t, rfl⟩ : ∃ t, s = 59 :: t := by
      cases s with
      | nil => cases hs
      | cons b t => exact ⟨t, by rw [Option.some.inj hs]⟩
    rw [headerSep_cons] at h
    split_ifs at h
    obtain ⟨hv, hr⟩ := headerPair_spec h
    have hsub : t.tail ⊆ 59 :: t := fun b hb ↦ List.mem_cons_of_mem _ (List.mem_of_mem_tail hb)
    exact ⟨⟨hv.sevenBit, hv.opensQuote, List.Subset.trans hv.subset hsub⟩,
      List.Subset.trans hr hsub⟩
  · rw [headerSep_of_ne hs] at h
    cases h

theorem length_dropWhile_le (f : UInt8 → Bool) (s : Bytes) : (s.dropWhile f).length ≤ s.length :=
  (List.dropWhile_sublist f).length_le

theorem consumes_headerValue : Consumes 0 headerValue := by
  intro s v r h
  by_cases hs : s.head? = some 34
  · cases s with
    | nil => cases hs
    | cons b t =>
      obtain rfl := Option.some.inj hs
      have h₁ := length_dropWhile_le isQuotedByte t
      have h₂ := length_dropWhile_le (· < 128) t
      rw [headerValue_quote] at h
      split_ifs at h
      · obtain ⟨-, rfl⟩ := Prod.mk.inj (Option.some.inj h)
        simp only [List.length_tail, List.length_cons]
        omega
      · obtain ⟨-, rfl⟩ := Prod.mk.inj (Option.some.inj h)
        simp only [List.length_cons]
        omega
  · rw [headerValue_of_ne hs] at h
    split_ifs at h
    obtain ⟨-, rfl⟩ := Prod.mk.inj (Option.some.inj h)
    exact length_dropWhile_le _ s

theorem consumes_headerPair : Consumes 1 headerPair :=
  Consumes.map ((consumes_many1 (consumes_asciiChar.diff _)).seq
    ((consumes_literal (lit "=")).seq consumes_headerValue).opt) _

theorem consumes_headerSep : Consumes 1 headerSep :=
  Consumes.map (Consumes.mono ((consumes_literal (lit ";")).seq
    (Consumes.map ((consumes_literal (lit " ")).seq consumes_headerPair) _)) (by decide)) _

/-- Every value read from a header is a value of its text. -/
theorem valueOf_of_mem_headerTokens {s r : Bytes} {ps : List (Bytes × Bytes)}
    (h : headerTokens s = some (ps, r)) : ∀ p ∈ ps, ValueOf s p.2 := by
  obtain ⟨x, hx, hps⟩ := Option.map_eq_some_iff.1 h
  obtain ⟨rfl, rfl⟩ := Prod.mk.inj hps
  obtain ⟨y, hy, hxy⟩ := Option.bind_eq_some_iff.1 hx
  obtain ⟨z, -, rfl⟩ := Option.map_eq_some_iff.1 hxy
  obtain ⟨u, hu, huy⟩ := Option.bind_eq_some_iff.1 hy
  obtain ⟨w, hw, rfl⟩ := Option.map_eq_some_iff.1 huy
  obtain ⟨hfirst, hrest⟩ := headerPair_spec hu
  have hall : (∀ p ∈ w.1, ValueOf s p.2) ∧ w.2 ⊆ s := by
    refine forall_mem_many (p := headerSep) (Q := (· ⊆ s)) (fun t p r ht hp ↦ ?_) hrest hw
    obtain ⟨hv, hr⟩ := headerSep_spec hp
    exact ⟨⟨hv.sevenBit, hv.opensQuote, List.Subset.trans hv.subset ht⟩, List.Subset.trans hr ht⟩
  exact List.forall_mem_cons.2 ⟨hfirst, hall.1⟩

theorem headerTokens_of_sep {s t r : Bytes} {p : Bytes × Bytes} {ps : List (Bytes × Bytes)}
    (hp : headerPair s = some (p, t)) (hps : many headerSep t = some (ps, r)) :
    ∃ r', headerTokens s = some (p :: ps, r') := by
  have hboth : seq headerPair (many headerSep) s = some ((p, ps), r) := by
    rw [seq, hp, Option.bind_some, hps]
    rfl
  have heol : ∃ e r', opt eol r = some (e, r') := by
    rcases he : eol r with - | ⟨u, r'⟩
    · exact ⟨none, r, by rw [opt, he]⟩
    · exact ⟨some u, r', by rw [opt, he]⟩
  obtain ⟨e, r', he⟩ := heol
  refine ⟨r', ?_⟩
  show Peg.map _ (seq (seq headerPair (many headerSep)) (opt eol)) s = _
  rw [Peg.map, seq, hboth, Option.bind_some, he]
  rfl

/-! ### Attributes -/

/-- An attribute that is found is one of the collected pairs. -/
theorem exists_pair_of_attributeValue {n name v : Bytes} {ps : List (Bytes × Bytes)}
    (h : (Header.mk n (OrdMap.collect ps)).attributeValue name = some v) :
    ∃ p ∈ ps, lower p.1 = lower name ∧ p.2 = v := by
  obtain ⟨e, he, rfl⟩ := Option.map_eq_some_iff.1 h
  have hmem := OrdMap.find_eq_some_iff.2 (List.mem_of_find?_eq_some he)
  rw [OrdMap.find_collect] at hmem
  obtain ⟨p, hp, hpe⟩ := Option.map_eq_some_iff.1 hmem
  have hkey : p.1 = e.1 := by simpa using List.find?_some hp
  refine ⟨p, List.mem_of_find?_eq_some hp, ?_, hpe⟩
  rw [hkey]
  simpa using List.find?_some he

/-- If some pair matches and all that match have one value, that value is found. -/
theorem attributeValue_of_forall {n name v : Bytes} {ps : List (Bytes × Bytes)}
    (hex : ∃ p ∈ ps, lower p.1 = lower name) (hall : ∀ p ∈ ps, lower p.1 = lower name → p.2 = v) :
    (Header.mk n (OrdMap.collect ps)).attributeValue name = some v := by
  obtain ⟨⟨k, x⟩, hmem, hk⟩ := hex
  have hfind : ((OrdMap.collect ps).find k).isSome = true := by
    rw [OrdMap.find_collect, Option.isSome_map, List.find?_isSome]
    exact ⟨(k, x), hmem, by simp⟩
  obtain ⟨y, hy⟩ := Option.isSome_iff_exists.1 hfind
  have hsome : ((Header.mk n (OrdMap.collect ps)).attributeValue name).isSome := by
    rw [Header.attributeValue, Option.isSome_map, List.find?_isSome]
    exact ⟨(k, y), OrdMap.find_eq_some_iff.1 hy, by simpa using hk⟩
  obtain ⟨w, hw⟩ := Option.isSome_iff_exists.1 hsome
  obtain ⟨p, hp, hlow, rfl⟩ := exists_pair_of_attributeValue hw
  rw [hw, hall p hp hlow]

/-- The only pair whose key matches is found. -/
theorem attributeValue_of_unique {n name k v : Bytes} {ps : List (Bytes × Bytes)}
    (hps : ∀ p ∈ ps, lower p.1 ≠ lower name) (hk : lower k = lower name) :
    (Header.mk n (OrdMap.collect (ps ++ [(k, v)]))).attributeValue name = some v := by
  refine attributeValue_of_forall ⟨(k, v), by simp, hk⟩ fun p hp hlow ↦ ?_
  rcases List.mem_append.1 hp with hp | hp
  · exact absurd hlow (hps p hp)
  · rw [List.mem_singleton.1 hp]

/-- An attribute that no pair matches is not there. -/
theorem attributeValue_of_forall_ne {n name : Bytes} {ps : List (Bytes × Bytes)}
    (h : ∀ p ∈ ps, lower p.1 ≠ lower name) :
    (Header.mk n (OrdMap.collect ps)).attributeValue name = none := by
  rw [Option.eq_none_iff_forall_ne_some]
  intro v hv
  obtain ⟨p, hp, hlow, -⟩ := exists_pair_of_attributeValue hv
  exact h p hp hlow

/-! ### Content-Type texts -/

/-- A token of RFC 2045: 7-bit, without controls, spaces and separators. -/
def IsToken (s : Bytes) : Prop :=
  s ≠ [] ∧ ∀ b ∈ s, 32 < b ∧ b < 127 ∧ b ∉ lit "()<>@,;:\\\"/[]?="

/-- The value of a parameter. -/
inductive ParamValue
  | token (t : Bytes)
  | quoted (q : Bytes)

/-- A value as it is written. -/
def ParamValue.text : ParamValue → Bytes
  | .token t => t
  | .quoted q => 34 :: (q ++ [34])

/-- A token, or a quoted text on one line without quotes. -/
def ParamValue.WellFormed : ParamValue → Prop
  | .token t => IsToken t
  | .quoted q => 34 ∉ q ∧ OneLine q

/-- Blanks. -/
def spaces (n : ℕ) : Bytes := List.replicate n 32

/-- A parameter, with the blanks behind its semicolon and behind its value. -/
structure Param where
  lead : ℕ
  name : Bytes
  value : ParamValue
  trail : ℕ

/-- A parameter as it is written. -/
def Param.text (p : Param) : Bytes :=
  59 :: (spaces p.lead ++ (p.name ++ 61 :: (p.value.text ++ spaces p.trail)))

/-- A Content-Type whose last parameter is an unquoted boundary. -/
structure ContentType where
  type : Bytes
  trail : ℕ
  params : List Param
  lead : ℕ
  name : Bytes
  boundary : Bytes

/-- The last parameter as it is written. -/
def ContentType.last (c : ContentType) : Bytes :=
  59 :: (spaces c.lead ++ (c.name ++ 61 :: c.boundary))

/-- A Content-Type as it is written. -/
def ContentType.text (c : ContentType) : Bytes :=
  c.type ++ spaces c.trail ++ ((c.params.map Param.text).flatten ++ c.last)

/-- The type is `multipart/form-data`, the last parameter is the boundary and no other is; type
and names are in any letter case. -/
structure ContentType.WellFormed (c : ContentType) : Prop where
  type : lower c.type = lit "multipart/form-data"
  params : ∀ p ∈ c.params, IsToken p.name ∧ lower p.name ≠ lit "boundary" ∧ p.value.WellFormed
  name : lower c.name = lit "boundary"
  boundary : c.boundary ≠ [] ∧ OneLine c.boundary

/-- A parameter that the grammar gets past. -/
def Param.Plain (p : Param) : Prop :=
  0 < p.lead ∧ p.trail = 0 ∧ ∃ q, p.value = .quoted q ∧ q ≠ [] ∧ SevenBit q

/-- A Content-Type whose boundary the grammar reaches and reads. -/
structure ContentType.Legible (c : ContentType) : Prop where
  plain : ∀ p ∈ c.params, p.Plain
  lead : c.lead = 1
  sevenBit : SevenBit c.boundary
  opensQuote : opensQuote c.boundary = false

/-! ### Reading a Content-Type -/

theorem isKeyByte_of_toLower {b : UInt8} (h : isKeyByte (toLower b) = true) :
    isKeyByte b = true := by
  rw [toLower] at h
  split_ifs at h with hb
  · obtain ⟨h65, h90⟩ := hb
    have h61 : b ≠ 61 := by rintro rfl; exact absurd h65 (by decide)
    have h59 : b ≠ 59 := by rintro rfl; exact absurd h65 (by decide)
    have h128 : b < 128 := lt_of_le_of_lt h90 (by decide)
    simp [isKeyByte, h61, h59, h128]
  · exact h

/-- A text that is a run of key bytes in lower case is one. -/
theorem isKeyByte_of_lower {s t : Bytes} (h : lower s = t) (ht : ∀ b ∈ t, isKeyByte b = true) :
    ∀ b ∈ s, isKeyByte b = true := fun _ hb ↦
  isKeyByte_of_toLower (ht _ (h ▸ List.mem_map_of_mem hb))

theorem IsToken.isKeyByte {s : Bytes} (hs : IsToken s) : ∀ b ∈ s, isKeyByte b = true := by
  intro b hb
  obtain ⟨-, h127, hsep⟩ := hs.2 b hb
  have h61 : b ≠ 61 := by rintro rfl; exact hsep (by decide)
  have h59 : b ≠ 59 := by rintro rfl; exact hsep (by decide)
  have h128 : b < 128 := lt_trans h127 (by decide)
  simp [Camlispp.isKeyByte, h61, h59, h128]

theorem IsToken.head?_ne {s : Bytes} (hs : IsToken s) (t : Bytes) {c : UInt8}
    (hc : c ≤ 32 ∨ c ∈ lit "()<>@,;:\\\"/[]?=") : (s ++ t).head? ≠ some c := by
  obtain ⟨b, s, rfl⟩ := List.exists_cons_of_ne_nil hs.1
  intro h
  obtain rfl : b = c := by simpa using h
  obtain ⟨h32, -, hsep⟩ := hs.2 b List.mem_cons_self
  rcases hc with hc | hc
  · exact absurd h32 (not_lt.2 hc)
  · exact hsep hc

theorem headerKey_append {k s : Bytes} {b : UInt8} (hne : k ≠ [])
    (hk : ∀ b ∈ k, isKeyByte b = true) (hb : isKeyByte b = false) :
    headerKey (k ++ b :: s) = some (k, b :: s) := by
  have htake : (k ++ b :: s).takeWhile isKeyByte = k := by
    rw [List.takeWhile_append_of_pos hk, List.takeWhile_cons_of_neg (by simp [hb]),
      List.append_nil]
  have hdrop : (k ++ b :: s).dropWhile isKeyByte = b :: s := by
    rw [List.dropWhile_append_of_pos hk, List.dropWhile_cons_of_neg (by simp [hb])]
  rw [headerKey_eq, htake, hdrop, if_neg hne]

theorem headerPair_value {k s v r : Bytes} (hne : k ≠ []) (hk : ∀ b ∈ k, isKeyByte b = true)
    (hv : headerValue s = some (v, r)) : headerPair (k ++ 61 :: s) = some ((k, v), r) := by
  have heq : literal (lit "=") (61 :: s) = some ((), s) := literal_append (lit "=") s
  rw [headerPair, Peg.map, seq, headerKey_append hne hk (by decide)]
  simp [opt, seq, heq, hv]

theorem headerPair_semicolon {k : Bytes} (s : Bytes) (hne : k ≠ [])
    (hk : ∀ b ∈ k, isKeyByte b = true) : headerPair (k ++ 59 :: s) = some ((k, []), 59 :: s) := by
  have heq : literal (lit "=") (59 :: s) = none := literal_singleton 61 59 s
  rw [headerPair, Peg.map, seq, headerKey_append hne hk (by decide)]
  simp [opt, seq, heq]

theorem isKeyByte_of_mem_spaces {n : ℕ} : ∀ b ∈ spaces n, isKeyByte b = true := by
  intro b hb
  rw [List.eq_of_mem_replicate hb]
  rfl

theorem isKeyByte_spaces_append {n : ℕ} {k : Bytes} (hk : ∀ b ∈ k, isKeyByte b = true) :
    ∀ b ∈ spaces n ++ k, isKeyByte b = true := fun b hb ↦
  (List.mem_append.1 hb).elim (isKeyByte_of_mem_spaces b) (hk b)

/-- A separated pair: one blank is the separator's, the others belong to the key. -/
theorem headerSep_value {n : ℕ} {k s v r : Bytes} (hne : k ≠ [])
    (hk : ∀ b ∈ k, isKeyByte b = true) (hv : headerValue s = some (v, r)) :
    headerSep (59 :: (spaces (n + 1) ++ (k ++ 61 :: s))) = some ((spaces n ++ k, v), r) := by
  have hspaces : spaces (n + 1) ++ (k ++ 61 :: s) = 32 :: (spaces n ++ k ++ 61 :: s) := by
    simp [spaces, List.replicate_succ]
  rw [hspaces, headerSep_cons, List.head?_cons, if_pos rfl]
  exact headerPair_value (by simp [hne]) (isKeyByte_spaces_append hk) hv

/-- Without a blank there is no separator. -/
theorem headerSep_zero {k s : Bytes} (hk : (k ++ s).head? ≠ some 32) :
    headerSep (59 :: (spaces 0 ++ (k ++ s))) = none := by
  rw [headerSep_cons, if_neg]
  exact hk

/-- A key behind further blanks is no boundary, and neither is another name. -/
theorem lower_spaces_append_ne {n : ℕ} {k : Bytes} (hn : n ≠ 0 ∨ lower k ≠ lit "boundary") :
    lower (spaces n ++ k) ≠ lit "boundary" := by
  cases n with
  | zero => simpa [spaces] using hn
  | succ n =>
    intro h
    have hhead : toLower 32 = 98 :=
      (List.cons.inj (show toLower 32 :: lower (spaces n ++ k) = 98 :: lit "oundary" from h)).1
    exact absurd hhead (by decide)

/-- A run that ends early ends at a byte that is not 7-bit, and no separator stands there. -/
theorem headerSep_dropWhile (s : Bytes) : headerSep (s.dropWhile (· < 128)) = none := by
  refine headerSep_of_ne fun h ↦ ?_
  have hnot := List.head?_dropWhile_not (fun b : UInt8 ↦ decide (b < 128)) s
  rw [h] at hnot
  exact absurd hnot (by decide)

theorem headerValue_quoted {q : Bytes} (hne : q ≠ []) (hq : 34 ∉ q) (h7 : SevenBit q) (t : Bytes) :
    headerValue (34 :: (q ++ 34 :: t)) = some (q, t) := by
  have hall : ∀ b ∈ q, isQuotedByte b = true := by
    intro b hb
    have h34 : b ≠ 34 := fun h ↦ hq (h ▸ hb)
    simp [isQuotedByte, h34, h7 b hb]
  have h34 : ¬isQuotedByte 34 = true := by decide
  have htake : (q ++ 34 :: t).takeWhile isQuotedByte = q := by
    rw [List.takeWhile_append_of_pos hall, List.takeWhile_cons_of_neg h34, List.append_nil]
  have hdrop : (q ++ 34 :: t).dropWhile isQuotedByte = 34 :: t := by
    rw [List.dropWhile_append_of_pos hall, List.dropWhile_cons_of_neg h34]
  rw [headerValue_quote, htake, hdrop, if_pos ⟨hne, rfl⟩, List.tail_cons]

/-- The value of a parameter that is not plain runs up to where no separator stands. -/
theorem exists_headerValue_of_not_plain {w : ParamValue} {n : ℕ} (hw : w.WellFormed)
    (hnot : ¬(n = 0 ∧ ∃ q, w = .quoted q ∧ q ≠ [] ∧ SevenBit q)) (t : Bytes) :
    ∃ v r, headerValue (w.text ++ (spaces n ++ t)) = some (v, r) ∧ headerSep r = none := by
  cases w with
  | token k =>
    have hk : IsToken k := hw
    have hrun : (k ++ (spaces n ++ t)).takeWhile (· < 128) ≠ [] := by
      obtain ⟨b, k, rfl⟩ := List.exists_cons_of_ne_nil hk.1
      have hb : b < 128 := lt_trans (hk.2 b List.mem_cons_self).2.1 (by decide)
      simp [hb]
    -- a token runs on to the first byte that is not 7-bit
    rw [ParamValue.text, headerValue_of_ne (hk.head?_ne _ (by decide)), if_neg hrun]
    exact ⟨_, _, rfl, headerSep_dropWhile _⟩
  | quoted q =>
    have htext : (ParamValue.quoted q).text ++ (spaces n ++ t) =
        34 :: (q ++ 34 :: (spaces n ++ t)) := by
      simp [ParamValue.text]
    rw [htext]
    by_cases h7 : q ≠ [] ∧ SevenBit q
    · refine ⟨_, _, headerValue_quoted h7.1 hw.1 h7.2 _, headerSep_of_ne ?_⟩
      obtain ⟨m, rfl⟩ := Nat.exists_eq_succ_of_ne_zero fun hn ↦ hnot ⟨hn, q, rfl, h7⟩
      exact fun h ↦ absurd (Option.some.inj h) (by decide)
    · rw [headerValue_quote, if_neg]
      · exact ⟨_, _, rfl, headerSep_dropWhile _⟩
      -- the text stops at a byte above 127, where no quote stands
      · rintro ⟨hne, hhead⟩
        have hq : q ≠ [] := fun hq ↦ hne (by simp [hq, isQuotedByte])
        obtain ⟨u, c, v, rfl, hu, hc⟩ := exists_first fun h ↦ h7 ⟨hq, h⟩
        have hall : ∀ b ∈ u, isQuotedByte b = true := by
          intro b hb
          have h34 : b ≠ 34 := fun h ↦ hw.1 (by simp [← h, hb])
          simp [isQuotedByte, h34, hu b hb]
        have hcq : ¬isQuotedByte c = true := fun h ↦ hc (lt_of_isQuotedByte h)
        rw [List.append_assoc, List.dropWhile_append_of_pos hall, List.cons_append,
          List.dropWhile_cons_of_neg hcq] at hhead
        obtain rfl := Option.some.inj hhead
        exact hc (by decide)

theorem headerValue_boundary {s : Bytes} (hne : s ≠ []) (h7 : SevenBit s)
    (hq : opensQuote s = false) : headerValue s = some (s, []) := by
  have hall : ∀ {t : Bytes}, SevenBit t → t.takeWhile (fun b ↦ decide (b < 128)) = t ∧
      t.dropWhile (fun b ↦ decide (b < 128)) = [] := fun ht ↦
    ⟨List.takeWhile_eq_self_iff.2 fun b hb ↦ decide_eq_true (ht b hb),
      List.dropWhile_eq_nil_iff.2 fun b hb ↦ decide_eq_true (ht b hb)⟩
  by_cases hs : s.head? = some 34
  · obtain ⟨t, rfl⟩ : ∃ t, s = 34 :: t := by
      cases s with
      | nil => cases hs
      | cons b t => exact ⟨t, by rw [Option.some.inj hs]⟩
    have ht : t.takeWhile isQuotedByte = [] := by
      rcases t with - | ⟨c, t⟩
      · rfl
      · have hc : c = 34 := by simpa [opensQuote] using hq
        simp [hc, isQuotedByte]
    obtain ⟨htake, hdrop⟩ := hall fun b hb ↦ h7 b (List.mem_cons_of_mem _ hb)
    rw [headerValue_quote, ht, htake, hdrop, if_neg fun h ↦ h.1 rfl, List.nil_append]
  · obtain ⟨htake, hdrop⟩ := hall h7
    rw [headerValue_of_ne hs, htake, hdrop, if_neg hne]

/-- The parameters in front of a text, as long as they are plain. -/
theorem exists_many_headerSep {ps : List Param}
    (hps : ∀ p ∈ ps, IsToken p.name ∧ lower p.name ≠ lit "boundary" ∧ p.value.WellFormed)
    (hplain : ∀ p ∈ ps, p.Plain) {t r : Bytes} {pairs : List (Bytes × Bytes)}
    (ht : many headerSep t = some (pairs, r)) :
    ∃ front, many headerSep ((ps.map Param.text).flatten ++ t) = some (front ++ pairs, r) ∧
      ∀ p ∈ front, lower p.1 ≠ lit "boundary" := by
  induction ps with
  | nil => exact ⟨[], ht, fun p hp ↦ absurd hp List.not_mem_nil⟩
  | cons p ps ih =>
    obtain ⟨front, hmany, hfront⟩ := ih (fun q h ↦ hps q (List.mem_cons_of_mem _ h))
      fun q h ↦ hplain q (List.mem_cons_of_mem _ h)
    obtain ⟨hname, hother, hvalue⟩ := hps p List.mem_cons_self
    obtain ⟨hlead, htrail, q, hq, hne, h7⟩ := hplain p List.mem_cons_self
    obtain ⟨n, hn⟩ := Nat.exists_eq_succ_of_ne_zero (Nat.ne_of_gt hlead)
    rw [hq] at hvalue
    have htext : ((p :: ps).map Param.text).flatten ++ t = 59 :: (spaces (n + 1) ++
        (p.name ++ 61 :: (34 :: (q ++ 34 :: ((ps.map Param.text).flatten ++ t))))) := by
      simp [Param.text, hq, ParamValue.text, htrail, hn, spaces]
    rw [htext]
    refine ⟨(spaces n ++ p.name, q) :: front, ?_, ?_⟩
    · exact many_of_some consumes_headerSep (headerSep_value hname.1 hname.isKeyByte
        (headerValue_quoted hne hvalue.1 h7 _)) hmany
    · exact List.forall_mem_cons.2 ⟨lower_spaces_append_ne (Or.inr hother), hfront⟩

section Boundary

variable {c : ContentType} (hc : c.WellFormed)

include hc

theorem ContentType.WellFormed.name_ne_nil : c.name ≠ [] := by
  rintro h
  exact absurd (h ▸ hc.name) (by decide)

theorem ContentType.WellFormed.isKeyByte_name : ∀ b ∈ c.name, isKeyByte b = true :=
  isKeyByte_of_lower hc.name (by decide +kernel)

theorem ContentType.WellFormed.head?_name (t : Bytes) : (c.name ++ t).head? ≠ some 32 := by
  obtain ⟨b, k, hk⟩ := List.exists_cons_of_ne_nil hc.name_ne_nil
  rw [hk]
  intro h
  obtain rfl : b = 32 := by simpa using h
  have hhead : toLower 32 = 98 := (List.cons.inj (show toLower 32 :: lower k = 98 :: lit "oundary"
    by rw [← show lit "boundary" = 98 :: lit "oundary" from rfl, ← hc.name, hk]; rfl)).1
  exact absurd hhead (by decide)

/-- The media type is the first pair. -/
theorem ContentType.WellFormed.headerPair_text :
    headerPair c.text =
      some ((c.type ++ spaces c.trail, []), (c.params.map Param.text).flatten ++ c.last) := by
  have hne : c.type ++ spaces c.trail ≠ [] := by
    intro h
    have := hc.type
    rw [(List.append_eq_nil_iff.1 h).1] at this
    exact absurd this (by decide)
  have hkey : ∀ b ∈ c.type ++ spaces c.trail, isKeyByte b = true := fun b hb ↦
    (List.mem_append.1 hb).elim (isKeyByte_of_lower hc.type (by decide +kernel) b)
      (isKeyByte_of_mem_spaces b)
  obtain ⟨s, hs⟩ : ∃ s, (c.params.map Param.text).flatten ++ c.last = 59 :: s := by
    rcases c.params with - | ⟨p, ps⟩
    · exact ⟨_, rfl⟩
    · exact ⟨_, rfl⟩
  rw [ContentType.text, hs]
  exact headerPair_semicolon s hne hkey

theorem ContentType.WellFormed.lower_type_ne :
    lower (c.type ++ spaces c.trail) ≠ lit "boundary" := by
  intro h
  have hlen := congrArg List.length h
  have htype := congrArg List.length hc.type
  simp only [lower, List.length_map, List.length_append] at hlen htype
  rw [htype, show (lit "multipart/form-data").length = 19 from rfl,
    show (lit "boundary").length = 8 from rfl] at hlen
  omega

/-- The pairs of a Content-Type: the media type, and what the repetition reads behind it. -/
theorem ContentType.WellFormed.parseBoundryHeader_text {pairs : List (Bytes × Bytes)} {r : Bytes}
    (h : many headerSep ((c.params.map Param.text).flatten ++ c.last) = some (pairs, r)) :
    parseBoundryHeader c.text =
      ⟨lit "Content-Type", OrdMap.collect ((c.type ++ spaces c.trail, []) :: pairs)⟩ := by
  obtain ⟨r', hr⟩ := headerTokens_of_sep hc.headerPair_text h
  rw [parseBoundryHeader, hr]

/-- If the grammar does not get to the boundary, or reads blanks into its name, there is none. -/
theorem ContentType.WellFormed.attributeValue_eq_none (h7 : SevenBit c.boundary)
    (hq : opensQuote c.boundary = false) (hnot : ¬((∀ p ∈ c.params, p.Plain) ∧ c.lead = 1)) :
    (parseBoundryHeader c.text).attributeValue (lit "boundary") = none := by
  obtain ⟨pairs, r, hmany, hpairs⟩ : ∃ pairs r,
      many headerSep ((c.params.map Param.text).flatten ++ c.last) = some (pairs, r) ∧
        ∀ p ∈ pairs, lower p.1 ≠ lit "boundary" := by
    -- either the blanks in front of the boundary are wrong, or the grammar stops at the first
    -- parameter that is not plain
    by_cases hplain : ∀ p ∈ c.params, p.Plain
    · obtain ⟨pairs, r, hmany, hpairs⟩ : ∃ pairs r, many headerSep c.last = some (pairs, r) ∧
          ∀ p ∈ pairs, lower p.1 ≠ lit "boundary" := by
        rw [ContentType.last]
        rcases hlead : c.lead with - | n
        · exact ⟨[], _, many_of_none (headerSep_zero (hc.head?_name _)),
            fun p hp ↦ absurd hp List.not_mem_nil⟩
        · have hn : n ≠ 0 := fun hn ↦ hnot ⟨hplain, by rw [hlead, hn]⟩
          refine ⟨[_], [], many_of_some consumes_headerSep (headerSep_value hc.name_ne_nil
            hc.isKeyByte_name (headerValue_boundary hc.boundary.1 h7 hq)) (many_of_none rfl), ?_⟩
          exact List.forall_mem_singleton.2 (lower_spaces_append_ne (Or.inl hn))
      obtain ⟨front, hfront, hkeys⟩ := exists_many_headerSep hc.params hplain hmany
      exact ⟨front ++ pairs, r, hfront, fun p hp ↦ (List.mem_append.1 hp).elim (hkeys p) (hpairs p)⟩
    · obtain ⟨ps₁, p, ps₂, hps, hplain₁, hp⟩ := exists_first hplain
      have hmem : ∀ q ∈ ps₁, q ∈ c.params := fun q hq ↦ by rw [hps]; simp [hq]
      obtain ⟨hname, hother, hvalue⟩ := hc.params p (by rw [hps]; simp)
      set t := (ps₂.map Param.text).flatten ++ c.last
      obtain ⟨pairs, r, hmany, hpairs⟩ : ∃ pairs r, many headerSep (p.text ++ t) = some (pairs, r) ∧
          ∀ p ∈ pairs, lower p.1 ≠ lit "boundary" := by
        have htext : p.text ++ t = 59 :: (spaces p.lead ++ (p.name ++ 61 ::
            (p.value.text ++ (spaces p.trail ++ t)))) := by
          simp [Param.text]
        rw [htext]
        rcases hlead : p.lead with - | n
        · exact ⟨[], _, many_of_none (headerSep_zero (hname.head?_ne _ (by decide))),
            fun p hp ↦ absurd hp List.not_mem_nil⟩
        · obtain ⟨v, r, hv, hr⟩ := exists_headerValue_of_not_plain hvalue
            (fun h ↦ hp ⟨by omega, h⟩) t
          refine ⟨[_], r, many_of_some consumes_headerSep (headerSep_value hname.1 hname.isKeyByte
            hv) (many_of_none hr), ?_⟩
          exact List.forall_mem_singleton.2 (lower_spaces_append_ne (Or.inr hother))
      obtain ⟨front, hfront, hkeys⟩ :=
        exists_many_headerSep (fun q hq ↦ hc.params q (hmem q hq)) hplain₁ hmany
      refine ⟨front ++ pairs, r, ?_, fun p hp ↦ (List.mem_append.1 hp).elim (hkeys p) (hpairs p)⟩
      rw [hps]
      simpa [t] using hfront
  rw [hc.parseBoundryHeader_text hmany]
  exact attributeValue_of_forall_ne (List.forall_mem_cons.2 ⟨hc.lower_type_ne, hpairs⟩)

/-- **The boundary is read exactly from legible headers.** -/
theorem ContentType.WellFormed.attributeValue_iff :
    (parseBoundryHeader c.text).attributeValue (lit "boundary") = some c.boundary ↔ c.Legible := by
  constructor
  · intro h
    have hvalue : ValueOf c.text c.boundary := by
      rw [parseBoundryHeader] at h
      split at h
      · cases h
      · next tokens r htokens =>
        obtain ⟨p, hp, -, hpv⟩ := exists_pair_of_attributeValue h
        exact hpv ▸ valueOf_of_mem_headerTokens htokens p hp
    -- a boundary that was read is 7-bit and opens no quote, whatever the header
    by_contra hnot
    have hnone := hc.attributeValue_eq_none hvalue.sevenBit hvalue.opensQuote fun hboth ↦
      hnot ⟨hboth.1, hboth.2, hvalue.sevenBit, hvalue.opensQuote⟩
    rw [h] at hnone
    cases hnone
  · intro h
    have hlast : many headerSep c.last = some ([(c.name, c.boundary)], []) := by
      rw [ContentType.last, h.lead]
      exact many_of_some consumes_headerSep (headerSep_value hc.name_ne_nil hc.isKeyByte_name
        (headerValue_boundary hc.boundary.1 h.sevenBit h.opensQuote)) (many_of_none rfl)
    obtain ⟨front, hmany, hkeys⟩ := exists_many_headerSep hc.params h.plain hlast
    rw [hc.parseBoundryHeader_text hmany, ← List.cons_append]
    exact attributeValue_of_unique (List.forall_mem_cons.2 ⟨hc.lower_type_ne, hkeys⟩) hc.name

omit hc in
theorem OneLine.append {s t : Bytes} (hs : OneLine s) (ht : OneLine t) : OneLine (s ++ t) := by
  simp [OneLine, hs.1, hs.2, ht.1, ht.2]

omit hc in
theorem OneLine.cons {b : UInt8} {s : Bytes} (hcr : b ≠ 13) (hlf : b ≠ 10) (hs : OneLine s) :
    OneLine (b :: s) := by
  simp [OneLine, hs.1, hs.2, hcr.symm, hlf.symm]

omit hc in
theorem oneLine_spaces (n : ℕ) : OneLine (spaces n) := by
  simp [OneLine, spaces]

omit hc in
theorem IsToken.oneLine {s : Bytes} (hs : IsToken s) : OneLine s :=
  ⟨fun h ↦ absurd (hs.2 13 h).1 (by decide), fun h ↦ absurd (hs.2 10 h).1 (by decide)⟩

omit hc in
theorem oneLine_of_lower {s t : Bytes} (h : lower s = t) (ht : OneLine t) : OneLine s := by
  refine ⟨fun hs ↦ ht.1 ?_, fun hs ↦ ht.2 ?_⟩
  · exact h ▸ List.mem_map.2 ⟨13, hs, rfl⟩
  · exact h ▸ List.mem_map.2 ⟨10, hs, rfl⟩

theorem ContentType.WellFormed.oneLine_text : OneLine c.text := by
  have hparams : ∀ p ∈ c.params, OneLine p.text := by
    intro p hp
    obtain ⟨hname, -, hvalue⟩ := hc.params p hp
    have htext : OneLine p.value.text := by
      cases hv : p.value with
      | token t =>
        rw [hv] at hvalue
        exact IsToken.oneLine hvalue
      | quoted q =>
        rw [hv] at hvalue
        exact OneLine.cons (by decide) (by decide) (hvalue.2.append (by decide))
    exact OneLine.cons (by decide) (by decide) ((oneLine_spaces _).append (hname.oneLine.append
      (OneLine.cons (by decide) (by decide) (htext.append (oneLine_spaces _)))))
  -- a line end would stand in one of the parameters
  have hflat : OneLine (c.params.map Param.text).flatten := by
    refine ⟨fun h ↦ ?_, fun h ↦ ?_⟩
    · obtain ⟨l, hl, hmem⟩ := List.mem_flatten.1 h
      obtain ⟨p, hp, rfl⟩ := List.mem_map.1 hl
      exact (hparams p hp).1 hmem
    · obtain ⟨l, hl, hmem⟩ := List.mem_flatten.1 h
      obtain ⟨p, hp, rfl⟩ := List.mem_map.1 hl
      exact (hparams p hp).2 hmem
  have hlast : OneLine c.last :=
    OneLine.cons (by decide) (by decide) ((oneLine_spaces _).append
      ((oneLine_of_lower hc.name (by decide)).append
        (OneLine.cons (by decide) (by decide) hc.boundary.2)))
  exact ((oneLine_of_lower hc.type (by decide)).append (oneLine_spaces _)).append
    (hflat.append hlast)

omit hc in
/-- Whatever is read for the boundary is one line. -/
theorem oneLine_of_attributeValue {s name v : Bytes} (hs : OneLine s)
    (h : (parseBoundryHeader s).attributeValue name = some v) : OneLine v := by
  rw [parseBoundryHeader] at h
  split at h
  · cases h
  · next tokens r htokens =>
    obtain ⟨p, hp, -, rfl⟩ := exists_pair_of_attributeValue h
    have hsub := (valueOf_of_mem_headerTokens htokens p hp).subset
    exact ⟨fun h ↦ hs.1 (hsub h), fun h ↦ hs.2 (hsub h)⟩

end Boundary

end Camlispp
