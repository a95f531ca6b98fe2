import Mathlib.Data.List.Nodup
import Camlispp.Multipart.ContentType

/-!
# The order of parameters

What `parse_boundry_header` reads from a media type and a list of parameters, written with a
semicolon and one space in front of each, in any order. A quoted value ends at its quote; an
**unquoted value runs to the end of the header**, so it takes in whatever parameters follow it
(`collected`). The boundary is read right in one order exactly if no unquoted parameter stands in
front of it and it is itself quoted or last (`attributeValue_eq_iff`), and in every order exactly if
there is nothing an unquoted value could take in (`forall_perm_attributeValue_iff`).

## What the result rests on

* `many_headerSep_parameters`: the pairs the grammar collects are those of `collected`, by induction
  on the list of parameters.
* `attributeValue_reached` and `attributeValue_not_reached`: the boundary is read if and only if no
  unquoted parameter stands in front of it.
* `boundaryOf_perm`: what ought to be read does not depend on the order, so `forall_perm` is a
  statement about the reader alone.
-/

open Bytes Peg

namespace Camlispp

/-! ### Parameters -/

/-- A parameter. -/
structure Parameter where
  name : Bytes
  value : ParamValue

/-- What a value stands for. -/
def ParamValue.content : ParamValue → Bytes
  | .token t => t
  | .quoted q => q

/-- The value is in quotes. -/
def ParamValue.IsQuoted : ParamValue → Prop
  | .token _ => False
  | .quoted _ => True

/-- Not empty, 7-bit, and free of what would end it. -/
def ParamValue.Legal : ParamValue → Prop
  | .token t => t ≠ [] ∧ ∀ b ∈ t, b < 128 ∧ b ∉ lit ";=\" \r\n"
  | .quoted q => q ≠ [] ∧ SevenBit q ∧ 34 ∉ q

/-- A parameter as it is written, with its separator. -/
def Parameter.text (p : Parameter) : Bytes := 59 :: 32 :: (p.name ++ 61 :: p.value.text)

/-- Parameters one after the other. -/
def parametersText (ps : List Parameter) : Bytes := (ps.map Parameter.text).flatten

/-- A media type with its parameters. -/
def headerText (type : Bytes) (ps : List Parameter) : Bytes := type ++ parametersText ps

/-- The parameter is the boundary, in any letter case. -/
def Parameter.IsBoundary (p : Parameter) : Prop := lower p.name = lit "boundary"

instance (p : Parameter) : Decidable p.IsBoundary := inferInstanceAs (Decidable (_ = _))

/-- The value of the boundary. -/
def boundaryOf (ps : List Parameter) : Option Bytes :=
  (ps.find? fun p ↦ p.IsBoundary).map fun p ↦ p.value.content

/-- A media type has a slash, and nothing that would end it. -/
def IsMediaType (type : Bytes) : Prop := 47 ∈ type ∧ ∀ b ∈ type, isKeyByte b = true

/-- Parameters with names that are different up to case, and legal values. -/
structure LegalParameters (ps : List Parameter) : Prop where
  name : ∀ p ∈ ps, p.name ≠ [] ∧ ∀ b ∈ p.name, isKeyByte b = true
  value : ∀ p ∈ ps, p.value.Legal
  nodup : (ps.map fun p ↦ lower p.name).Nodup

theorem LegalParameters.of_perm {ps ps' : List Parameter} (h : LegalParameters ps)
    (hperm : ps'.Perm ps) : LegalParameters ps' :=
  ⟨fun p hp ↦ h.name p (hperm.subset hp), fun p hp ↦ h.value p (hperm.subset hp),
    ((hperm.map _).nodup_iff).2 h.nodup⟩

theorem LegalParameters.tail {p : Parameter} {ps : List Parameter}
    (h : LegalParameters (p :: ps)) : LegalParameters ps :=
  ⟨fun q hq ↦ h.name q (List.mem_cons_of_mem _ hq),
    fun q hq ↦ h.value q (List.mem_cons_of_mem _ hq),
    (List.nodup_cons.1 h.nodup).2⟩

/-- There is one boundary at most. -/
theorem LegalParameters.boundary_unique {ps : List Parameter} (h : LegalParameters ps)
    {p q : Parameter} (hp : p ∈ ps) (hq : q ∈ ps) (hpb : p.IsBoundary) (hqb : q.IsBoundary) :
    p = q :=
  List.inj_on_of_nodup_map h.nodup hp hq (hpb.trans hqb.symm)

theorem boundaryOf_eq_some {ps : List Parameter} (h : LegalParameters ps) {p : Parameter}
    (hp : p ∈ ps) (hpb : p.IsBoundary) : boundaryOf ps = some p.value.content := by
  have hsome : (ps.find? fun p ↦ p.IsBoundary).isSome = true :=
    List.find?_isSome.2 ⟨p, hp, by simpa using hpb⟩
  obtain ⟨q, hq⟩ := Option.isSome_iff_exists.1 hsome
  have hqb : q.IsBoundary := by simpa using List.find?_some hq
  rw [boundaryOf, hq, h.boundary_unique (List.mem_of_find?_eq_some hq) hp hqb hpb]
  rfl

theorem boundaryOf_eq_none {ps : List Parameter} (h : ∀ p ∈ ps, ¬p.IsBoundary) :
    boundaryOf ps = none := by
  rw [boundaryOf, List.find?_eq_none.2 fun p hp ↦ by simpa using h p hp]
  rfl

/-- The value of the boundary does not depend on the order. -/
theorem boundaryOf_perm {ps ps' : List Parameter} (h : LegalParameters ps) (hperm : ps'.Perm ps) :
    boundaryOf ps' = boundaryOf ps := by
  by_cases hex : ∃ p ∈ ps, p.IsBoundary
  · obtain ⟨p, hp, hpb⟩ := hex
    rw [boundaryOf_eq_some h hp hpb,
      boundaryOf_eq_some (h.of_perm hperm) (hperm.symm.subset hp) hpb]
  · have hnone : ∀ p ∈ ps, ¬p.IsBoundary := fun p hp hpb ↦ hex ⟨p, hp, hpb⟩
    rw [boundaryOf_eq_none hnone, boundaryOf_eq_none fun p hp ↦ hnone p (hperm.subset hp)]

/-! ### What the grammar collects -/

/-- The pairs that are read: up to the first unquoted value, which takes in the rest. -/
def collected : List Parameter → List (Bytes × Bytes)
  | [] => []
  | p :: ps =>
    match p.value with
    | .quoted q => (p.name, q) :: collected ps
    | .token t => [(p.name, t ++ parametersText ps)]

theorem isKeyByte_lt {b : UInt8} (h : isKeyByte b = true) : b < 128 := by
  simp only [isKeyByte, Bool.and_eq_true, decide_eq_true_eq] at h
  exact h.2

theorem ParamValue.Legal.sevenBit_text {v : ParamValue} (h : v.Legal) : SevenBit v.text := by
  cases v with
  | token t => exact fun b hb ↦ (h.2 b hb).1
  | quoted q =>
    exact List.forall_mem_cons.2 ⟨by decide, h.2.1.append (List.forall_mem_singleton.2 (by decide))⟩

theorem LegalParameters.sevenBit_text {ps : List Parameter} (h : LegalParameters ps) :
    SevenBit (parametersText ps) := by
  intro b hb
  obtain ⟨l, hl, hbl⟩ := List.mem_flatten.1 hb
  obtain ⟨p, hp, rfl⟩ := List.mem_map.1 hl
  have hname : SevenBit p.name := fun c hc ↦ isKeyByte_lt ((h.name p hp).2 c hc)
  have htext : SevenBit p.text :=
    List.forall_mem_cons.2 ⟨by decide, List.forall_mem_cons.2 ⟨by decide,
      hname.append (List.forall_mem_cons.2 ⟨by decide, (h.value p hp).sevenBit_text⟩)⟩⟩
  exact htext b hbl

/-- **The grammar collects those pairs.** -/
theorem many_headerSep_parameters {ps : List Parameter} (h : LegalParameters ps) :
    many headerSep (parametersText ps) = some (collected ps, []) := by
  induction ps with
  | nil => exact many_of_none rfl
  | cons p ps ih =>
    obtain ⟨hne, hname⟩ := h.name p List.mem_cons_self
    have hlegal := h.value p List.mem_cons_self
    have htext : parametersText (p :: ps) =
        59 :: (32 :: (p.name ++ 61 :: (p.value.text ++ parametersText ps))) := by
      simp [parametersText, Parameter.text]
    have hsep : headerSep (parametersText (p :: ps)) =
        headerPair (p.name ++ 61 :: (p.value.text ++ parametersText ps)) := by
      rw [htext, headerSep_cons, List.head?_cons, if_pos rfl, List.tail_cons]
    rcases hv : p.value with t | q
    · -- an unquoted value: nothing is left behind it
      rw [hv] at hlegal hsep
      have hvalue : headerValue (t ++ parametersText ps) = some (t ++ parametersText ps, []) := by
        obtain ⟨c, t, rfl⟩ := List.exists_cons_of_ne_nil hlegal.1
        have hc : c ≠ 34 := fun hc ↦ (hlegal.2 c List.mem_cons_self).2 (hc ▸ by decide)
        refine headerValue_boundary (List.cons_ne_nil _ _)
          (SevenBit.append (fun b hb ↦ (hlegal.2 b hb).1) h.tail.sevenBit_text)
          (opensQuote_of_head ?_)
        simpa using hc
      rw [collected, hv]
      exact many_of_some consumes_headerSep (hsep.trans (headerPair_value hne hname hvalue))
        (many_of_none rfl)
    · rw [hv] at hlegal hsep
      have hvalue : headerValue ((ParamValue.quoted q).text ++ parametersText ps) =
          some (q, parametersText ps) := by
        have := headerValue_quoted hlegal.1 hlegal.2.2 hlegal.2.1 (parametersText ps)
        simpa [ParamValue.text] using this
      rw [collected, hv]
      exact many_of_some consumes_headerSep (hsep.trans (headerPair_value hne hname hvalue))
        (ih h.tail)

theorem collected_append {front : List Parameter} (h : ∀ p ∈ front, p.value.IsQuoted)
    (ps : List Parameter) :
    collected (front ++ ps) =
      (front.map fun p ↦ (p.name, p.value.content)) ++ collected ps := by
  induction front with
  | nil => rfl
  | cons p front ih =>
    obtain ⟨hp, hfront⟩ := List.forall_mem_cons.1 h
    rcases hv : p.value with t | q
    · rw [hv] at hp
      exact absurd hp id
    · rw [List.cons_append, collected, hv, ih hfront, List.map_cons, hv]
      rfl

/-- Only names of parameters are collected. -/
theorem exists_of_mem_collected {ps : List Parameter} {e : Bytes × Bytes} (he : e ∈ collected ps) :
    ∃ p ∈ ps, e.1 = p.name := by
  induction ps with
  | nil => cases he
  | cons p ps ih =>
    rcases hv : p.value with t | q
    · rw [collected, hv, List.mem_singleton] at he
      exact ⟨p, List.mem_cons_self, by rw [he]⟩
    · rw [collected, hv] at he
      rcases List.mem_cons.1 he with rfl | he
      · exact ⟨p, List.mem_cons_self, rfl⟩
      · obtain ⟨q', hq', hname⟩ := ih he
        exact ⟨q', List.mem_cons_of_mem _ hq', hname⟩

/-! ### The header -/

theorem IsMediaType.lower_ne {type : Bytes} (h : IsMediaType type) :
    lower type ≠ lit "boundary" := by
  intro heq
  have hslash : (47 : UInt8) ∈ lower type := List.mem_map.2 ⟨47, h.1, rfl⟩
  rw [heq] at hslash
  exact absurd hslash (by decide)

/-- The media type is the first pair, with an empty value. -/
theorem parseBoundryHeader_headerText {type : Bytes} (htype : IsMediaType type)
    {ps : List Parameter} (h : LegalParameters ps) :
    parseBoundryHeader (headerText type ps) =
      ⟨lit "Content-Type", OrdMap.collect ((type, []) :: collected ps)⟩ := by
  have hne : type ≠ [] := List.ne_nil_of_mem htype.1
  have hpair : headerPair (headerText type ps) = some ((type, []), parametersText ps) := by
    rcases ps with - | ⟨p, ps⟩
    · have hall : type.takeWhile isKeyByte = type := List.takeWhile_eq_self_iff.2 htype.2
      have hrest : type.dropWhile isKeyByte = [] := List.dropWhile_eq_nil_iff.2 htype.2
      have hkey : headerKey type = some (type, []) := by
        rw [headerKey_eq, hall, hrest, if_neg hne]
      rw [headerText, show parametersText [] = [] from rfl, List.append_nil, headerPair, Peg.map,
        seq, hkey]
      rfl
    · exact headerPair_semicolon _ hne htype.2
  obtain ⟨r, hr⟩ := headerTokens_of_sep hpair (many_headerSep_parameters h)
  rw [parseBoundryHeader, hr]

/-- No other parameter is the boundary. -/
theorem LegalParameters.not_isBoundary {front rest : List Parameter} {b : Parameter}
    (h : LegalParameters (front ++ b :: rest)) (hb : b.IsBoundary) :
    ∀ p ∈ front ++ rest, ¬p.IsBoundary := by
  have hnodup := h.nodup
  rw [List.map_append, List.map_cons, List.nodup_middle, ← List.map_append,
    List.nodup_cons] at hnodup
  exact fun p hp hpb ↦ hnodup.1 (List.mem_map.2 ⟨p, hp, hpb.trans hb.symm⟩)

/-- The pairs in front of and behind a parameter that is reached. -/
theorem attributeValue_reached {type : Bytes} (htype : IsMediaType type)
    {front rest : List Parameter} {b : Parameter} (h : LegalParameters (front ++ b :: rest))
    (hb : b.IsBoundary) (hfront : ∀ p ∈ front, p.value.IsQuoted) {n : Bytes} :
    (Header.mk n (OrdMap.collect ((type, []) :: collected (front ++ b :: rest)))).attributeValue
      (lit "boundary") =
        some (match b.value with
          | .quoted q => q
          | .token t => t ++ parametersText rest) := by
  have hother := h.not_isBoundary hb
  have hpair : ∀ e ∈ front.map fun p ↦ (p.name, p.value.content),
      lower e.1 ≠ lower (lit "boundary") := by
    intro e he
    obtain ⟨p, hp, rfl⟩ := List.mem_map.1 he
    exact hother p (List.mem_append_left _ hp)
  rw [collected_append hfront, collected]
  -- the boundary is among the pairs, and no other pair has its name
  refine attributeValue_of_forall ?_ fun e he hlow ↦ ?_
  · rcases hv : b.value with t | q
    · exact ⟨(b.name, t ++ parametersText rest), by simp, hb⟩
    · exact ⟨(b.name, q), by simp, hb⟩
  · rcases List.mem_cons.1 he with rfl | he
    · exact absurd hlow htype.lower_ne
    · rcases List.mem_append.1 he with he | he
      · exact absurd hlow (hpair e he)
      · rcases hv : b.value with t | q
        · rw [hv, List.mem_singleton] at he
          rw [he]
        · rw [hv] at he
          rcases List.mem_cons.1 he with rfl | he
          · rfl
          · obtain ⟨p, hp, hname⟩ := exists_of_mem_collected he
            refine absurd ?_ (hother p (List.mem_append_right _ hp))
            rw [Parameter.IsBoundary, ← hname]
            exact hlow

/-- A boundary behind an unquoted parameter is not reached. -/
theorem attributeValue_not_reached {type : Bytes} (htype : IsMediaType type)
    {front rest : List Parameter} (hother : ∀ p ∈ front, ¬p.IsBoundary)
    (hfront : ¬∀ p ∈ front, p.value.IsQuoted) {n : Bytes} :
    (Header.mk n (OrdMap.collect ((type, []) :: collected (front ++ rest)))).attributeValue
      (lit "boundary") = none := by
  obtain ⟨front₁, p, front₂, rfl, hquoted, hp⟩ := exists_first hfront
  rw [List.append_assoc, collected_append hquoted, List.cons_append, collected]
  have hname : ∀ q ∈ front₁ ++ p :: front₂, lower q.name ≠ lower (lit "boundary") := hother
  refine attributeValue_of_forall_ne (List.forall_mem_cons.2 ⟨htype.lower_ne, fun e he ↦ ?_⟩)
  rcases List.mem_append.1 he with he | he
  · obtain ⟨q, hq, rfl⟩ := List.mem_map.1 he
    exact hname q (List.mem_append_left _ hq)
  · rcases hv : p.value with t | q
    · rw [hv, List.mem_singleton] at he
      rw [he]
      exact hname p (by simp)
    · rw [hv] at hp
      exact absurd trivial hp

/-- **One order.** The boundary is read right exactly if there is none, or no unquoted parameter
stands in front of it and none at all stands behind an unquoted boundary. -/
theorem attributeValue_eq_iff {type : Bytes} (htype : IsMediaType type) {ps : List Parameter}
    (h : LegalParameters ps) :
    (parseBoundryHeader (headerText type ps)).attributeValue (lit "boundary") = boundaryOf ps ↔
      ∀ front b rest, ps = front ++ b :: rest → b.IsBoundary →
        (∀ p ∈ front, p.value.IsQuoted) ∧ (b.value.IsQuoted ∨ rest = []) := by
  rw [parseBoundryHeader_headerText htype h]
  by_cases hex : ∃ b ∈ ps, b.IsBoundary
  · constructor
    · rintro heq front b rest rfl hb
      rw [boundaryOf_eq_some h (by simp) hb] at heq
      have hother := h.not_isBoundary hb
      have hquoted : ∀ p ∈ front, p.value.IsQuoted := by
        by_contra hnot
        rw [attributeValue_not_reached htype (fun p hp ↦ hother p (by simp [hp])) hnot] at heq
        cases heq
      rw [attributeValue_reached htype h hb hquoted] at heq
      refine ⟨hquoted, ?_⟩
      rcases hv : b.value with t | q
      · -- what was read is longer than the value, unless nothing stands behind it
        rw [hv] at heq
        refine Or.inr ?_
        have hnil : parametersText rest = [] := List.append_right_eq_self.1 (Option.some.inj heq)
        rcases rest with - | ⟨p, rest⟩
        · rfl
        · cases hnil
      · exact Or.inl trivial
    · intro hcond
      obtain ⟨b, hmem, hb⟩ := hex
      obtain ⟨front, rest, rfl⟩ := List.append_of_mem hmem
      obtain ⟨hfront, hlast⟩ := hcond front b rest rfl hb
      rw [boundaryOf_eq_some h hmem hb, attributeValue_reached htype h hb hfront]
      rcases hv : b.value with t | q
      · rw [hv] at hlast
        rw [hlast.resolve_left id]
        exact congrArg some (List.append_nil t)
      · rfl
  · have hnone : ∀ p ∈ ps, ¬p.IsBoundary := fun p hp hpb ↦ hex ⟨p, hp, hpb⟩
    rw [boundaryOf_eq_none hnone, attributeValue_of_forall_ne]
    · refine ⟨fun _ front b rest hps hb ↦ absurd hb (hnone b ?_), fun _ ↦ rfl⟩
      rw [hps]
      simp
    · refine List.forall_mem_cons.2 ⟨htype.lower_ne, fun e he ↦ ?_⟩
      obtain ⟨p, hp, hname⟩ := exists_of_mem_collected he
      rw [hname]
      exact hnone p hp

/-- **Every order.** The boundary is read right in every order exactly if there is none, or it is
the only parameter, or every parameter is quoted. -/
theorem forall_perm_attributeValue_iff (type : Bytes) (htype : IsMediaType type)
    (ps : List Parameter) (h : LegalParameters ps) :
    (∀ order : List Parameter, order.Perm ps →
        (parseBoundryHeader (headerText type order)).attributeValue (lit "boundary") =
          boundaryOf ps) ↔
      (∀ p ∈ ps, ¬p.IsBoundary) ∨ ps.length = 1 ∨ ∀ p ∈ ps, p.value.IsQuoted := by
  have hone : ∀ order : List Parameter, order.Perm ps →
      ((parseBoundryHeader (headerText type order)).attributeValue (lit "boundary") =
          boundaryOf ps ↔
        ∀ front b rest, order = front ++ b :: rest → b.IsBoundary →
          (∀ p ∈ front, p.value.IsQuoted) ∧ (b.value.IsQuoted ∨ rest = [])) := by
    intro order hperm
    rw [← boundaryOf_perm h hperm]
    exact attributeValue_eq_iff htype (h.of_perm hperm)
  constructor
  · intro hall
    by_contra hnot
    obtain ⟨hex, hlen, hquoted⟩ : (¬∀ p ∈ ps, ¬p.IsBoundary) ∧ ps.length ≠ 1 ∧
        ¬∀ p ∈ ps, p.value.IsQuoted := by
      simpa only [not_or] using hnot
    simp only [not_forall, not_not, exists_prop] at hex hquoted
    obtain ⟨b, hbmem, hb⟩ := hex
    obtain ⟨p, hpmem, hp⟩ := hquoted
    -- the order in which an unquoted parameter comes first
    obtain ⟨l₁, l₂, rfl⟩ := List.append_of_mem hpmem
    have hcond := (hone _ List.perm_middle.symm).1 (hall _ List.perm_middle.symm)
    rcases Classical.em p.IsBoundary with hpb | hpb
    · obtain ⟨-, hlast⟩ := hcond [] p (l₁ ++ l₂) rfl hpb
      refine hlen ?_
      have hnil := congrArg List.length (hlast.resolve_left hp)
      rw [List.length_append, List.length_nil] at hnil
      rw [List.length_append, List.length_cons]
      omega
    · have hrest : b ∈ l₁ ++ l₂ := by
        rcases List.mem_cons.1 (List.perm_middle.subset hbmem) with rfl | hrest
        · exact absurd hb hpb
        · exact hrest
      obtain ⟨r₁, r₂, hr⟩ := List.append_of_mem hrest
      obtain ⟨hfront, -⟩ := hcond (p :: r₁) b r₂ (by rw [hr]; rfl) hb
      exact hp (hfront p List.mem_cons_self)
  · rintro (hnone | hlen | hquoted) order hperm
    · refine (hone order hperm).2 fun front b rest heq hb ↦ absurd hb (hnone b (hperm.subset ?_))
      rw [heq]
      simp
    · refine (hone order hperm).2 fun front b rest heq _ ↦ ?_
      have hlength := hperm.length_eq
      rw [heq, hlen, List.length_append, List.length_cons] at hlength
      obtain rfl : front = [] := List.length_eq_zero_iff.1 (by omega)
      exact ⟨by simp, Or.inr (List.length_eq_zero_iff.1 (by omega))⟩
    · refine (hone order hperm).2 fun front b rest heq _ ↦ ?_
      have hmem : ∀ p ∈ front ++ b :: rest, p.value.IsQuoted := fun p hp ↦
        hquoted p (hperm.subset (heq ▸ hp))
      exact ⟨fun p hp ↦ hmem p (by simp [hp]), Or.inl (hmem b (by simp))⟩

/-- A quoted boundary between two quoted parameters, in another order. -/
theorem forall_perm_attributeValue_quoted :
    (parseBoundryHeader (headerText (lit "multipart/form-data")
      [⟨lit "Boundary", .quoted (lit "x")⟩, ⟨lit "a", .quoted (lit "; y")⟩])).attributeValue
        (lit "boundary") = some (lit "x") := by
  have hlegal : LegalParameters
      [⟨lit "a", .quoted (lit "; y")⟩, ⟨lit "Boundary", .quoted (lit "x")⟩] :=
    ⟨List.forall_mem_cons.2 ⟨by decide +kernel, List.forall_mem_singleton.2 (by decide +kernel)⟩,
      List.forall_mem_cons.2 ⟨⟨by decide, by decide +kernel, by decide⟩,
        List.forall_mem_singleton.2 ⟨by decide, by decide +kernel, by decide⟩⟩, by decide +kernel⟩
  exact (forall_perm_attributeValue_iff (lit "multipart/form-data")
    ⟨by decide, by decide +kernel⟩ _ hlegal).2
      (Or.inr (Or.inr (List.forall_mem_cons.2 ⟨trivial, List.forall_mem_singleton.2 trivial⟩)))
      _ (List.Perm.swap _ _ _)

/-- An unquoted boundary takes in the parameter behind it. -/
theorem attributeValue_boundary_first :
    LegalParameters [⟨lit "boundary", .token (lit "x")⟩, ⟨lit "charset", .token (lit "y")⟩] ∧
      (parseBoundryHeader (headerText (lit "multipart/form-data")
        [⟨lit "boundary", .token (lit "x")⟩, ⟨lit "charset", .token (lit "y")⟩])).attributeValue
          (lit "boundary") ≠
        boundaryOf [⟨lit "boundary", .token (lit "x")⟩, ⟨lit "charset", .token (lit "y")⟩] := by
  have hlegal : LegalParameters
      [⟨lit "boundary", .token (lit "x")⟩, ⟨lit "charset", .token (lit "y")⟩] :=
    ⟨List.forall_mem_cons.2 ⟨by decide +kernel, List.forall_mem_singleton.2 (by decide +kernel)⟩,
      List.forall_mem_cons.2 ⟨⟨by decide, by decide +kernel⟩,
        List.forall_mem_singleton.2 ⟨by decide, by decide +kernel⟩⟩, by decide +kernel⟩
  refine ⟨hlegal, ?_⟩
  decide +kernel

end Camlispp
