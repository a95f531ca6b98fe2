import Camlispp.Json.Meaning

/-!
# The texts of a JSON value

Which texts the reader takes for which value, without a reader: `Spells P v u` says that `u` is a
text of `v`. White space may stand before every token, strings may be escaped in any way, numbers
may have a sign, and there is no bound on the nesting.

`value_sound` and `value_spells` compare this with the reader. What it returns is spelled by what it
consumed; and a text of a value without fractions is read as this value, whatever stands behind it.
Only digits, or a dot or an exponent, must not stand behind a number. Together with `read_eq` this
is `accepted_wellFormed`.

## What each result rests on

* `value_sound` is by induction on the depth, with one lemma for each rule (`sound_string`,
  `sound_number`, `sound_commas`, `sound_enclosed`, `sound_pair`).
* `value_spells` is by induction on the text, with one lemma for each form of a value (`value_str`,
  `value_int`, `value_obj`, `value_arr`, and the three keywords). What stands behind the text
  matters only for an integer (`Stops`).
* `number_spelled` is the only place where the parser of real numbers is asked: it refuses digits
  that no dot and no exponent follows.

A value with a fraction is left out of the second half: what the library makes of its text is not
said.
-/

open Bytes

namespace Camlispp

namespace Json

/-! ### Texts -/

/-- White space. -/
def Blank (w : Bytes) : Prop := ∀ b ∈ w, isSpace b = true

/-- The texts of an integer that 64 bits can hold, with or without a sign. -/
inductive IntText : ℤ → Bytes → Prop
  | plain {ds : Bytes} (nonempty : ds ≠ []) (digits : ∀ d ∈ ds, isDigit d = true)
      (bound : decimalValue ds < 2 ^ 64) : IntText (decimalValue ds) ds
  | plus {ds : Bytes} (nonempty : ds ≠ []) (digits : ∀ d ∈ ds, isDigit d = true)
      (bound : decimalValue ds < 2 ^ 63) : IntText (decimalValue ds) (43 :: ds)
  | minus {ds : Bytes} (nonempty : ds ≠ []) (digits : ∀ d ∈ ds, isDigit d = true)
      (bound : decimalValue ds ≤ 2 ^ 63) : IntText (-(decimalValue ds : ℤ)) (45 :: ds)

/-- What follows the first of several texts that have commas between them. -/
inductive CommaTail : List Bytes → Bytes → Prop
  | nil : CommaTail [] []
  | cons {w u t : Bytes} {us : List Bytes} (blank : Blank w) (tail : CommaTail us t) :
      CommaTail (u :: us) (w ++ 44 :: (u ++ t))

/-- Texts with commas between them. -/
def Commas : List Bytes → Bytes → Prop
  | [], s => s = []
  | u :: us, s => ∃ t, s = u ++ t ∧ CommaTail us t

/-- A member of an object, as it is written. -/
structure MemberText where
  /-- What stands before the name. -/
  blank : Bytes
  /-- What stands between the quotes. -/
  body : Bytes
  /-- What stands before the colon. -/
  blank' : Bytes
  /-- The value. -/
  value : Json
  /-- What stands behind the colon. -/
  text : Bytes

/-- The member. -/
def MemberText.member (x : MemberText) : Bytes × Json := (substituteEscChars x.body, x.value)

/-- Its text. -/
def MemberText.bytes (x : MemberText) : Bytes :=
  x.blank ++ 34 :: (x.body ++ 34 :: (x.blank' ++ 58 :: x.text))

/-- The parts around the value are as they should be. -/
structure MemberText.Legal (x : MemberText) : Prop where
  blank : Blank x.blank
  body : isBody x.body = true
  blank' : Blank x.blank'

/-- **The texts of a value.** -/
inductive Spells (P : RealParser) : Json → Bytes → Prop
  | str {w r : Bytes} (blank : Blank w) (body : isBody r = true) :
      Spells P (str (substituteEscChars r)) (w ++ 34 :: (r ++ [34]))
  | real {w u r x : Bytes} (blank : Blank w) (h : P.parse (u ++ r) = some (x, r)) :
      Spells P (real x) (w ++ u)
  | int {w u : Bytes} {n : ℤ} (blank : Blank w) (h : IntText n u) : Spells P (int n) (w ++ u)
  | obj {w u w' : Bytes} {xs : List MemberText} (blank : Blank w)
      (legal : ∀ x ∈ xs, x.Legal) (values : ∀ x ∈ xs, Spells P x.value x.text)
      (commas : Commas (xs.map MemberText.bytes) u) (blank' : Blank w') :
      Spells P (obj (xs.map MemberText.member)) (w ++ 123 :: (u ++ (w' ++ [125])))
  | arr {w u w' : Bytes} {xs : List (Json × Bytes)} (blank : Blank w)
      (values : ∀ x ∈ xs, Spells P x.1 x.2) (commas : Commas (xs.map Prod.snd) u)
      (blank' : Blank w') : Spells P (arr (xs.map Prod.fst)) (w ++ 91 :: (u ++ (w' ++ [93])))
  | true {w : Bytes} (blank : Blank w) : Spells P (bool true) (w ++ lit "true")
  | false {w : Bytes} (blank : Blank w) : Spells P (bool false) (w ++ lit "false")
  | null {w : Bytes} (blank : Blank w) : Spells P null (w ++ lit "null")

/-- Values without fractions. -/
inductive NoReal : Json → Prop
  | obj {ms : List (Bytes × Json)} (h : ∀ m ∈ ms, NoReal m.2) : NoReal (obj ms)
  | arr {vs : List Json} (h : ∀ v ∈ vs, NoReal v) : NoReal (arr vs)
  | str (s : Bytes) : NoReal (str s)
  | bool (b : Bool) : NoReal (bool b)
  | int (n : ℤ) : NoReal (int n)
  | null : NoReal null

/-! ### What the reader accepts -/

theorem foldl_hexToNum {ds : Bytes} (hds : ∀ d ∈ ds, isDigit d = true) :
    ds.foldl (fun n b ↦ 10 * n + hexToNum b) 0 = decimalValue ds := by
  refine List.foldl_ext _ _ _ fun n d hd ↦ ?_
  have hdigit := hds d hd
  rw [isDigit, Bool.and_eq_true, decide_eq_true_eq, decide_eq_true_eq] at hdigit
  rw [hexToNum, if_pos hdigit]

/-- The digits that a decimal number takes. -/
theorem uintParser_eq_some {max n : ℕ} {t r : Bytes}
    (h : uintParser isDigit 10 t.length max t = some (n, r)) :
    ∃ ds, t = ds ++ r ∧ ds ≠ [] ∧ (∀ d ∈ ds, isDigit d = true) ∧ n = decimalValue ds ∧ n ≤ max := by
  obtain ⟨ds, q, ht, hds, hlen, hq⟩ := exists_digits isDigit t.length t
  have hparse := uintParser_append hds hlen hq 10 max
  rw [← ht, h, foldl_hexToNum hds] at hparse
  split_ifs at hparse with hnum
  obtain ⟨rfl, rfl⟩ := Prod.mk.inj (Option.some.inj hparse)
  rw [not_or, not_lt] at hnum
  exact ⟨ds, ht, hnum.1, hds, rfl, hnum.2⟩

theorem int64P_eq_some {t r : Bytes} {n : ℤ} (h : int64P t = some (n, r)) :
    ∃ u, t = u ++ r ∧ IntText n u := by
  unfold int64P at h
  split at h
  · obtain ⟨⟨k, r'⟩, hk, heq⟩ := Option.map_eq_some_iff.1 h
    obtain ⟨rfl, rfl⟩ := Prod.mk.inj heq
    obtain ⟨ds, rfl, hne, hds, rfl, hmax⟩ := uintParser_eq_some hk
    exact ⟨45 :: ds, rfl, .minus hne hds hmax⟩
  · obtain ⟨⟨k, r'⟩, hk, heq⟩ := Option.map_eq_some_iff.1 h
    obtain ⟨rfl, rfl⟩ := Prod.mk.inj heq
    obtain ⟨ds, rfl, hne, hds, rfl, hmax⟩ := uintParser_eq_some hk
    exact ⟨43 :: ds, rfl, .plus hne hds (by omega)⟩
  · obtain ⟨⟨k, r'⟩, hk, heq⟩ := Option.map_eq_some_iff.1 h
    obtain ⟨rfl, rfl⟩ := Prod.mk.inj heq
    obtain ⟨ds, rfl, hne, hds, rfl, hmax⟩ := uintParser_eq_some hk
    exact ⟨ds, rfl, .plain hne hds (by omega)⟩

theorem uint64P_eq_some {t r : Bytes} {n : ℤ} (h : uint64P t = some (n, r)) :
    ∃ u, t = u ++ r ∧ IntText n u := by
  obtain ⟨⟨k, r'⟩, hk, heq⟩ := Option.map_eq_some_iff.1 h
  obtain ⟨rfl, rfl⟩ := Prod.mk.inj heq
  obtain ⟨ds, rfl, hne, hds, rfl, hmax⟩ := uintParser_eq_some hk
  exact ⟨ds, rfl, .plain hne hds (by omega)⟩

/-- White space in front of a token. -/
def Behind {α : Type} (S : α → Bytes → Prop) (a : α) (u : Bytes) : Prop :=
  ∃ w v, u = w ++ v ∧ Blank w ∧ S a v

theorem sound_skipped {α : Type} {p : Peg UInt8 α} {S : α → Bytes → Prop}
    (h : ∀ t a r, p t = some (a, r) → ∃ u, t = u ++ r ∧ S a u) :
    Reads.Sound (ε := Bytes) (Reads.token (skipped p)) (Behind S) := by
  intro t a r hp
  obtain ⟨u, hu, hS⟩ := h _ a r (Except.ok.inj hp)
  refine ⟨t.takeWhile isSpace ++ u, ?_, t.takeWhile isSpace, u, rfl, fun b hb ↦ ?_, hS⟩
  · rw [List.append_assoc, ← hu, List.takeWhile_append_dropWhile]
  · exact List.mem_takeWhile_imp hb

theorem sound_chP (c : UInt8) :
    Reads.Sound (ε := Bytes) (Reads.token (chP c)) (Behind fun _ u ↦ u = [c]) := by
  refine sound_skipped fun t a r h ↦ ⟨[c], ?_, rfl⟩
  rcases t with - | ⟨b, t⟩
  · cases h
  · rw [Peg.satisfy] at h
    split_ifs at h with hb
    obtain ⟨rfl, rfl⟩ := Prod.mk.inj (Option.some.inj h)
    rw [of_decide_eq_true hb]
    rfl

theorem sound_strP (s : Bytes) :
    Reads.Sound (ε := Bytes) (Reads.token (strP s)) (Behind fun _ u ↦ u = s) := by
  refine sound_skipped fun t a r h ↦ ⟨s, ?_, rfl⟩
  obtain ⟨x, hx, -⟩ := Peg.text_eq_some h
  rw [Peg.literal] at hx
  split_ifs at hx with hpre
  obtain ⟨-, rfl⟩ := Prod.mk.inj (Option.some.inj hx)
  exact (List.prefix_iff_eq_append.1 (List.isPrefixOf_iff_prefix.1 hpre)).symm

/-- The text of a string. -/
def StrText (x u : Bytes) : Prop :=
  ∃ v, isBody v = true ∧ x = substituteEscChars v ∧ u = 34 :: (v ++ [34])

theorem sound_string : Reads.Sound Meaning.string (Behind StrText) := by
  refine Reads.Sound.map ((sound_skipped fun t u r h ↦ ?_).mono fun a u h ↦ h)
  obtain ⟨v, hv, rfl, ht⟩ := stringText_eq_some_iff.1 h
  exact ⟨34 :: (v ++ [34]), ht, v, hv, getStrText_quoted v, rfl⟩

variable {P : RealParser}

theorem sound_number : Reads.Sound (Meaning.number P) (Spells P) := by
  refine Reads.Sound.alt ?_ (Reads.Sound.alt ?_ ?_)
  · have hreal : Reads.Sound (ε := Bytes) (Reads.token (skipped P.parse))
        (Behind fun x u ↦ ∃ r, P.parse (u ++ r) = some (x, r)) := by
      refine sound_skipped fun t x r h ↦ ?_
      obtain ⟨u, rfl⟩ := P.takes h
      exact ⟨u, rfl, r, h⟩
    refine Reads.Sound.map (hreal.mono ?_)
    rintro x _ ⟨w, u, rfl, hw, r, hr⟩
    exact .real hw hr
  · refine Reads.Sound.map ((sound_skipped fun t n r h ↦ int64P_eq_some h).mono ?_)
    rintro n _ ⟨w, u, rfl, hw, hu⟩
    exact .int hw hu
  · refine Reads.Sound.map ((sound_skipped fun t n r h ↦ uint64P_eq_some h).mono ?_)
    rintro n _ ⟨w, u, rfl, hw, hu⟩
    exact .int hw hu

section Entries

variable {β : Type} {q : Meaning.Rule β} {S : β → Bytes → Prop}

/-- Entries, their texts, and how the texts are put together. -/
def EntryTexts (S : β → Bytes → Prop) (J : List Bytes → Bytes → Prop) (bs : List β) (u : Bytes) :
    Prop :=
  ∃ xs : List (β × Bytes), bs = xs.map Prod.fst ∧ (∀ x ∈ xs, S x.1 x.2) ∧ J (xs.map Prod.snd) u

/-- **Entries with commas between them.** -/
theorem sound_commas (hq : Reads.Sound q S) :
    Reads.Sound (Meaning.commas q) (EntryTexts S Commas) := by
  have hcomma : Reads.Sound (Reads.map Prod.snd (Reads.seq (Reads.token (chP 44)) q)) fun b u ↦
      ∃ w v, u = w ++ 44 :: v ∧ Blank w ∧ S b v := by
    refine Reads.Sound.map (((sound_chP 44).seq hq).mono ?_)
    rintro ⟨c, b⟩ _ ⟨_, v, rfl, ⟨w, _, rfl, hw, rfl⟩, hv⟩
    exact ⟨w, v, by simp, hw, hv⟩
  have hstar : Reads.Sound (Reads.star (Reads.map Prod.snd (Reads.seq (Reads.token (chP 44)) q)))
      (EntryTexts S CommaTail) := by
    refine hcomma.star ⟨[], rfl, by simp, .nil⟩ ?_
    rintro b bs _ t ⟨w, v, rfl, hw, hv⟩ ⟨xs, rfl, hxs, ht⟩
    refine ⟨(b, v) :: xs, rfl, List.forall_mem_cons.2 ⟨hv, hxs⟩, ?_⟩
    rw [List.append_assoc, List.cons_append]
    exact .cons hw ht
  refine Reads.Sound.map ((hq.seq hstar).mono ?_)
  rintro ⟨b, bs⟩ _ ⟨u, t, rfl, hu, xs, rfl, hxs, ht⟩
  exact ⟨(b, u) :: xs, rfl, List.forall_mem_cons.2 ⟨hu, hxs⟩, t, rfl, ht⟩

/-- An object or an array. -/
theorem sound_enclosed (hq : Reads.Sound q S) (opening closing : UInt8) (reason : Bytes) :
    Reads.Sound (Meaning.enclosed opening closing q reason) fun bs s ↦
      ∃ w u w', s = w ++ opening :: (u ++ (w' ++ [closing])) ∧ Blank w ∧ Blank w' ∧
        EntryTexts S Commas bs u := by
  refine Reads.Sound.map ((((sound_chP opening).seq (sound_commas hq).opt).seq
    ((sound_chP closing).orThrow reason)).mono ?_)
  rintro ⟨⟨a, x⟩, c⟩ _ ⟨_, _, rfl, ⟨_, u, rfl, ⟨w, _, rfl, hw, rfl⟩, hx⟩, w', _, rfl, hw', rfl⟩
  obtain ⟨rfl, rfl⟩ | ⟨bs, rfl, xs, rfl, hxs, hu⟩ := hx
  · exact ⟨w, [], w', by simp, hw, hw', [], rfl, by simp, rfl⟩
  · exact ⟨w, u, w', by simp, hw, hw', xs, rfl, hxs, hu⟩

end Entries

/-- The text of a member. -/
def PairText (P : RealParser) (m : Bytes × Json) (u : Bytes) : Prop :=
  ∃ x : MemberText, x.member = m ∧ x.bytes = u ∧ x.Legal ∧ Spells P x.value x.text

theorem sound_pair {value : Meaning.Rule Json} (h : Reads.Sound value (Spells P)) :
    Reads.Sound (Meaning.pair value) (PairText P) := by
  refine Reads.Sound.map (((sound_string.seq ((sound_chP 58).orThrow _)).seq
    (h.orThrow _)).mono ?_)
  rintro ⟨⟨name, c⟩, v⟩ _ ⟨_, u, rfl, ⟨_, _, rfl, ⟨w, _, rfl, hw, r, hr, hname, rfl⟩,
    w', _, rfl, hw', rfl⟩, hu⟩
  refine ⟨⟨w, r, w', v, u⟩, ?_, ?_, ⟨hw, hr, hw'⟩, hu⟩
  · exact Prod.ext hname.symm rfl
  · simp [MemberText.bytes]

/-- The members of an object, put back together. -/
theorem exists_memberTexts {xs : List ((Bytes × Json) × Bytes)}
    (h : ∀ x ∈ xs, PairText P x.1 x.2) :
    ∃ ys : List MemberText, ys.map MemberText.member = xs.map Prod.fst ∧
      ys.map MemberText.bytes = xs.map Prod.snd ∧
      ∀ y ∈ ys, y.Legal ∧ Spells P y.value y.text := by
  induction xs with
  | nil => exact ⟨[], rfl, rfl, by simp⟩
  | cons x xs ih =>
    obtain ⟨y, hmember, hbytes, hy⟩ := h x List.mem_cons_self
    obtain ⟨ys, hmembers, hbytes', hys⟩ := ih fun z hz ↦ h z (List.mem_cons_of_mem _ hz)
    refine ⟨y :: ys, ?_, ?_, List.forall_mem_cons.2 ⟨hy, hys⟩⟩
    · rw [List.map_cons, List.map_cons, hmember, hmembers]
    · rw [List.map_cons, List.map_cons, hbytes, hbytes']

/-- **What the reader accepts is a text of what it returns**, by induction on the depth. -/
theorem value_sound (P : RealParser) (depth : ℕ) :
    Reads.Sound (Meaning.value P depth) (Spells P) := by
  induction depth with
  | zero =>
    intro t v r h
    cases h
  | succ depth ih =>
    refine Reads.Sound.alt ?_ (sound_number.alt (Reads.Sound.alt ?_ (Reads.Sound.alt ?_
      (Reads.Sound.alt ?_ (Reads.Sound.alt ?_ ?_)))))
    · refine Reads.Sound.map (sound_string.mono ?_)
      rintro x _ ⟨w, _, rfl, hw, r, hr, rfl, rfl⟩
      exact .str hw hr
    · refine Reads.Sound.map ((sound_enclosed (sound_pair ih) 123 125 _).mono ?_)
      rintro ms _ ⟨w, u, w', rfl, hw, hw', xs, rfl, hxs, hu⟩
      obtain ⟨ys, hmembers, hbytes, hys⟩ := exists_memberTexts hxs
      rw [← hmembers]
      exact .obj hw (fun y hy ↦ (hys y hy).1) (fun y hy ↦ (hys y hy).2) (hbytes ▸ hu) hw'
    · refine Reads.Sound.map ((sound_enclosed ih 91 93 _).mono ?_)
      rintro vs _ ⟨w, u, w', rfl, hw, hw', xs, rfl, hxs, hu⟩
      exact .arr hw hxs hu hw'
    · refine Reads.Sound.map ((sound_strP _).mono ?_)
      rintro x _ ⟨w, _, rfl, hw, rfl⟩
      exact .true hw
    · refine Reads.Sound.map ((sound_strP _).mono ?_)
      rintro x _ ⟨w, _, rfl, hw, rfl⟩
      exact .false hw
    · refine Reads.Sound.map ((sound_strP _).mono ?_)
      rintro x _ ⟨w, _, rfl, hw, rfl⟩
      exact .null hw

/-! ### What the reader reads -/

theorem skipped_blank {α : Type} {w : Bytes} (hw : Blank w) (p : Peg UInt8 α) (t : Bytes) :
    skipped p (w ++ t) = skipped p t := by
  rw [skipped, skipped, List.dropWhile_append_of_pos hw]

theorem skipped_cons {α : Type} {b : UInt8} (hb : isSpace b = false) (p : Peg UInt8 α)
    (t : Bytes) : skipped p (b :: t) = p (b :: t) := by
  rw [skipped, List.dropWhile_cons_of_neg (by simp [hb])]

/-- White space in front does not matter. -/
def Skips {α : Type} (q : Meaning.Rule α) : Prop := ∀ w t, Blank w → q (w ++ t) = q t

section Skips

variable {α β : Type} {q q' : Meaning.Rule α}

theorem skips_token (p : Peg UInt8 α) : Skips (Reads.token (skipped p)) := fun _ t hw ↦
  congrArg Except.ok (skipped_blank hw p t)

theorem Skips.map (h : Skips q) (f : α → β) : Skips (Reads.map f q) := fun w t hw ↦ by
  rw [Reads.map, Reads.map, h w t hw]

theorem Skips.seq (h : Skips q) (r : Meaning.Rule β) : Skips (Reads.seq q r) :=
  fun w t hw ↦ by rw [Reads.seq, Reads.seq, h w t hw]

theorem Skips.alt (h : Skips q) (h' : Skips q') : Skips (Reads.alt q q') := by
  intro w t hw
  rw [Reads.alt, Reads.alt, h w t hw, h' w t hw]

theorem skips_value (P : RealParser) (depth : ℕ) : Skips (Meaning.value P depth) := by
  rcases depth with - | depth
  · exact fun _ _ _ ↦ rfl
  · have hnumber : Skips (Meaning.number P) :=
      ((skips_token _).map _).alt (((skips_token _).map _).alt ((skips_token _).map _))
    exact (((skips_token _).map _).map _).alt (hnumber.alt
      (((((skips_token _).seq _).seq _).map _).map _ |>.alt
        (((((skips_token _).seq _).seq _).map _).map _ |>.alt
          (((skips_token _).map _).alt (((skips_token _).map _).alt ((skips_token _).map _))))))

end Skips

/-- A rule does not match a text that begins with `b`. -/
def Refuses {α : Type} (q : Meaning.Rule α) (b : UInt8) : Prop := ∀ t, q (b :: t) = .ok none

section Refuses

variable {α β : Type} {q q' : Meaning.Rule α} {b : UInt8}

theorem Refuses.map (h : Refuses q b) (f : α → β) : Refuses (Reads.map f q) b := fun t ↦ by
  rw [Reads.map, h t]

theorem Refuses.seq (h : Refuses q b) (r : Meaning.Rule β) : Refuses (Reads.seq q r) b :=
  fun t ↦ Reads.seq_of_none (h t) r

theorem Refuses.alt (h : Refuses q b) (h' : Refuses q' b) : Refuses (Reads.alt q q') b :=
  fun t ↦ (Reads.alt_of_none (h t) q').trans (h' t)

theorem refuses_token {p : Peg UInt8 α} (hb : isSpace b = false) (h : ∀ t, p (b :: t) = none) :
    Refuses (Reads.token (skipped p)) b := fun t ↦ by
  rw [Reads.token, skipped_cons hb, h t]

theorem refuses_chP {c : UInt8} (hb : isSpace b = false) (hc : b ≠ c) :
    Refuses (Reads.token (chP c)) b :=
  refuses_token hb fun t ↦ by simp [Peg.satisfy, hc]

theorem refuses_strP {c : UInt8} {s : Bytes} (hb : isSpace b = false) (hc : b ≠ c) :
    Refuses (Reads.token (strP (c :: s))) b :=
  refuses_token hb fun t ↦ by simp [Peg.text, Peg.literal, hc.symm]

theorem refuses_string (hb : isSpace b = false) (h34 : b ≠ 34) : Refuses Meaning.string b :=
  Refuses.map (refuses_token hb fun t ↦ by
    simp [stringText, Peg.text, Peg.seq, Peg.literal_singleton, h34]) _

theorem uintParser_cons {b : UInt8} (hb : isDigit b = false) (k max : ℕ) (t : Bytes) :
    uintParser isDigit 10 k max (b :: t) = none := by
  have hnone : ∀ d ∈ ([] : Bytes), isDigit d = true := fun d hd ↦ absurd hd List.not_mem_nil
  have hend : ([] : Bytes).length = k ∨ ∀ c, (b :: t).head? = some c → isDigit c = false := by
    refine Or.inr fun c hc ↦ ?_
    obtain rfl := Option.some.inj hc
    exact hb
  have h := uintParser_append hnone (Nat.zero_le k) hend 10 max
  rw [List.nil_append] at h
  rw [h, if_pos (Or.inl rfl)]

theorem int64P_cons {b : UInt8} (h45 : b ≠ 45) (h43 : b ≠ 43) (t : Bytes) :
    int64P (b :: t) = (uintParser isDigit 10 (b :: t).length (2 ^ 63 - 1) (b :: t)).map
      fun x ↦ ((x.1 : ℤ), x.2) := by
  rw [int64P]
  · exact fun _ h ↦ absurd (List.cons.inj h).1 h45
  · exact fun _ h ↦ absurd (List.cons.inj h).1 h43

theorem refuses_number (P : RealParser) (hb : isSpace b = false) (hdigit : isDigit b = false)
    (h43 : b ≠ 43) (h45 : b ≠ 45) (h46 : b ≠ 46) : Refuses (Meaning.number P) b := by
  refine Refuses.alt (Refuses.map (refuses_token hb fun t ↦ P.starts hdigit h43 h45 h46) _)
    (Refuses.alt (Refuses.map (refuses_token hb fun t ↦ ?_) _)
      (Refuses.map (refuses_token hb fun t ↦ ?_) _))
  · rw [int64P_cons h45 h43, uintParser_cons hdigit, Option.map_none]
  · rw [uint64P, uintParser_cons hdigit, Option.map_none]

theorem refuses_enclosed {opening : UInt8} (hb : isSpace b = false) (ho : b ≠ opening)
    (closing : UInt8) (q : Meaning.Rule α) (reason : Bytes) :
    Refuses (Meaning.enclosed opening closing q reason) b :=
  (((refuses_chP hb ho).seq _).seq _).map _

end Refuses

/-- What may stand behind a number. -/
def Stops (r : Bytes) : Prop :=
  ∀ c, r.head? = some c → isDigit c = false ∧ c ≠ 46 ∧ c ≠ 101 ∧ c ≠ 69

theorem stops_cons {c : UInt8} (hc : isDigit c = false ∧ c ≠ 46 ∧ c ≠ 101 ∧ c ≠ 69) (r : Bytes) :
    Stops (c :: r) := by
  intro d hd
  obtain rfl := Option.some.inj hd
  exact hc

theorem stops_space {c : UInt8} (hc : isSpace c = true) :
    isDigit c = false ∧ c ≠ 46 ∧ c ≠ 101 ∧ c ≠ 69 := by
  simp only [isSpace, isDigit, Bool.or_eq_true, Bool.and_eq_true, decide_eq_true_eq,
    Bool.and_eq_false_iff, decide_eq_false_iff_not, UInt8.le_iff_toNat_le, ← UInt8.toNat_inj,
    UInt8.reduceToNat, ne_eq] at *
  omega

theorem stops_blank {w r : Bytes} (hw : Blank w) (hr : Stops r) : Stops (w ++ r) := by
  rcases w with - | ⟨c, w⟩
  · exact hr
  · exact stops_cons (stops_space (hw c List.mem_cons_self)) _

variable {P : RealParser}

theorem isSpace_of_isDigit {d : UInt8} (hd : isDigit d = true) : isSpace d = false := by
  refine Bool.eq_false_iff.2 fun h ↦ ?_
  rw [(stops_space h).1] at hd
  cases hd

/-- Where no fraction stands, one of the two integer parsers decides. -/
theorem number_cons {b : UInt8} {s : Bytes} (hb : isSpace b = false)
    (hreal : P.parse (b :: s) = none) :
    Meaning.number P (b :: s) =
      .ok (((int64P (b :: s)).or (uint64P (b :: s))).map fun x ↦ (int x.1, x.2)) := by
  simp only [Meaning.number, Reads.alt, Reads.map, Reads.token, skipped_cons hb, hreal]
  rcases int64P (b :: s) with - | x
  · rcases uint64P (b :: s) with - | y
    · rfl
    · rfl
  · rfl

/-- The digits of a number, up to what stands behind it. -/
theorem uintParser_digits {ds r : Bytes} (nonempty : ds ≠ []) (digits : ∀ d ∈ ds, isDigit d = true)
    (hr : Stops r) (max : ℕ) :
    uintParser isDigit 10 (ds ++ r).length max (ds ++ r) =
      if max < decimalValue ds then none else some (decimalValue ds, r) := by
  rw [uintParser_append digits (by simp) (Or.inr fun c hc ↦ (hr c hc).1), foldl_hexToNum digits]
  simp [nonempty]

/-- **Integers are read**, by the first of the two parsers that they fit. -/
theorem number_spelled {n : ℤ} {u r : Bytes} (h : IntText n u) (hr : Stops r) :
    Meaning.number P (u ++ r) = .ok (some (int n, r)) := by
  obtain @⟨ds, nonempty, digits, bound⟩ | @⟨ds, nonempty, digits, bound⟩ |
    @⟨ds, nonempty, digits, bound⟩ := h
  · have hreal := (P.strict nonempty digits hr).1
    have hparse := uintParser_digits nonempty digits hr
    obtain ⟨d, ds, rfl⟩ := List.exists_cons_of_ne_nil nonempty
    have hd := digits d List.mem_cons_self
    have h45 : d ≠ 45 := fun h ↦ absurd (h ▸ hd) (by decide)
    have h43 : d ≠ 43 := fun h ↦ absurd (h ▸ hd) (by decide)
    rw [List.cons_append] at hreal hparse ⊢
    rw [number_cons (isSpace_of_isDigit hd) hreal, int64P_cons h45 h43, uint64P, hparse, hparse,
      if_neg (show ¬2 ^ 64 - 1 < decimalValue (d :: ds) by omega)]
    split_ifs
    · rfl
    · rfl
  · have hreal := (P.strict nonempty digits hr).2 43 (by decide)
    have hparse := uintParser_digits nonempty digits hr (2 ^ 63 - 1)
    rw [if_neg (by omega)] at hparse
    have hint : int64P (43 :: (ds ++ r)) = some ((decimalValue ds : ℤ), r) := by
      rw [int64P, hparse]
      rfl
    rw [List.cons_append, number_cons (by decide) hreal, hint]
    rfl
  · have hreal := (P.strict nonempty digits hr).2 45 (by decide)
    have hparse := uintParser_digits nonempty digits hr (2 ^ 63)
    rw [if_neg (by omega)] at hparse
    have hint : int64P (45 :: (ds ++ r)) = some (-(decimalValue ds : ℤ), r) := by
      rw [int64P, hparse]
      rfl
    rw [List.cons_append, number_cons (by decide) hreal, hint]
    rfl

section Entries

variable {β : Type} {q : Meaning.Rule β}

theorem CommaTail.stops {us : List Bytes} {t r : Bytes} (h : CommaTail us t) (hr : Stops r) :
    Stops (t ++ r) := by
  rcases h with - | ⟨blank, tail⟩
  · exact hr
  · rw [List.append_assoc]
    exact stops_blank blank (stops_cons (by decide) _)

/-- A token in front of which white space may stand. -/
theorem token_chP {w : Bytes} (hw : Blank w) {c : UInt8} (hc : isSpace c = false) (t : Bytes) :
    Reads.token (ε := Bytes) (chP c) (w ++ c :: t) = .ok (some (c, t)) := by
  rw [chP, Reads.token, skipped_blank hw, skipped_cons hc]
  simp [Peg.satisfy]

theorem token_chP_ne {w : Bytes} (hw : Blank w) {b c : UInt8} (hb : isSpace b = false)
    (hc : b ≠ c) (t : Bytes) : Reads.token (ε := Bytes) (chP c) (w ++ b :: t) = .ok none := by
  rw [chP, Reads.token, skipped_blank hw, skipped_cons hb]
  simp [Peg.satisfy, hc]

/-- **Entries behind a comma**, by induction on how their texts are put together. -/
theorem star_spelled {xs : List (β × Bytes)} {t r : Bytes} (ht : CommaTail (xs.map Prod.snd) t)
    (hr : Stops r) (hend : Reads.token (ε := Bytes) (chP 44) r = .ok none)
    (hq : ∀ x ∈ xs, ∀ r, Stops r → q (x.2 ++ r) = .ok (some (x.1, r))) {n : ℕ}
    (hn : t.length ≤ n) :
    Reads.starFuel (Reads.map Prod.snd (Reads.seq (Reads.token (chP 44)) q)) n (t ++ r) =
      .ok (some (xs.map Prod.fst, r)) := by
  induction xs generalizing t n with
  | nil =>
    cases ht
    rcases n with - | n
    · rfl
    · rw [List.nil_append, Reads.starFuel, Reads.map, Reads.seq_of_none hend]
      rfl
  | cons x xs ih =>
    obtain - | @⟨w, -, s, -, blank, tail⟩ := ht
    rw [List.length_append, List.length_cons, List.length_append] at hn
    obtain ⟨n, rfl⟩ : ∃ m, n = m + 1 := ⟨n - 1, by omega⟩
    have hx := hq x List.mem_cons_self (s ++ r) (tail.stops hr)
    have hrest := ih tail (fun y hy ↦ hq y (List.mem_cons_of_mem _ hy))
      (show s.length ≤ n by omega)
    have htext : w ++ 44 :: (x.2 ++ s) ++ r = w ++ 44 :: (x.2 ++ (s ++ r)) := by simp
    rw [htext, Reads.starFuel,
      Reads.map_of_some (Reads.seq_of_some (token_chP blank (by decide) _) hx)]
    exact Reads.map_of_some hrest _

/-- **An object or an array is read**, if its entries are. -/
theorem enclosed_spelled (opening closing : UInt8) {u w' : Bytes} {xs : List (β × Bytes)}
    (ho : isSpace opening = false) (hc : isSpace closing = false)
    (hclosing : isDigit closing = false ∧ closing ≠ 46 ∧ closing ≠ 101 ∧ closing ≠ 69)
    (hcomma : closing ≠ 44) (hcommas : Commas (xs.map Prod.snd) u) (hw' : Blank w')
    (hskip : Skips q) (hnone : Refuses q closing)
    (hq : ∀ x ∈ xs, ∀ r, Stops r → q (x.2 ++ r) = .ok (some (x.1, r))) (reason r : Bytes) :
    Meaning.enclosed opening closing q reason (opening :: (u ++ (w' ++ [closing])) ++ r) =
      .ok (some (xs.map Prod.fst, r)) := by
  have htext : opening :: (u ++ (w' ++ [closing])) ++ r =
      [] ++ opening :: (u ++ (w' ++ closing :: r)) := by simp
  have hopen := token_chP (w := []) (by intro b hb; cases hb) ho (u ++ (w' ++ closing :: r))
  have hclose := Reads.orThrow_of_some (token_chP hw' hc r) reason
  have hstop : Stops (w' ++ closing :: r) := stops_blank hw' (stops_cons hclosing r)
  rw [htext]
  rcases xs with - | ⟨x, xs⟩
  · obtain rfl : u = [] := hcommas
    have hentries : Meaning.commas q (w' ++ closing :: r) = .ok none := by
      rw [Meaning.commas, Reads.map, Reads.seq, hskip w' _ hw', hnone r]
    exact Reads.map_of_some (Reads.seq_of_some (Reads.seq_of_some hopen
      (Reads.opt_of_none hentries)) hclose) _
  · obtain ⟨t, rfl, ht⟩ := hcommas
    rw [List.append_assoc] at hopen ⊢
    have hx := hq x List.mem_cons_self _ (ht.stops hstop)
    have hstar : Reads.star (Reads.map Prod.snd (Reads.seq (Reads.token (chP 44)) q))
        (t ++ (w' ++ closing :: r)) = .ok (some (xs.map Prod.fst, w' ++ closing :: r)) :=
      star_spelled ht hstop (token_chP_ne hw' hc hcomma r)
        (fun y hy ↦ hq y (List.mem_cons_of_mem _ hy)) (by simp)
    have hentries : Meaning.commas q (x.2 ++ (t ++ (w' ++ closing :: r))) =
        .ok (some (x.1 :: xs.map Prod.fst, w' ++ closing :: r)) :=
      Reads.map_of_some (Reads.seq_of_some hx hstar) _
    exact Reads.map_of_some (Reads.seq_of_some (Reads.seq_of_some hopen
      (Reads.opt_of_some hentries)) hclose) _

theorem Commas.length_le {us : List Bytes} {u v : Bytes} (h : Commas us u) (hv : v ∈ us) :
    v.length ≤ u.length := by
  have htail : ∀ {us t}, CommaTail us t → ∀ v ∈ us, v.length ≤ t.length := by
    intro us t ht
    induction ht with
    | nil => exact fun v hv ↦ absurd hv List.not_mem_nil
    | @cons w u t us _ _ ih =>
      intro v hv
      rw [List.length_append, List.length_cons, List.length_append]
      rcases List.mem_cons.1 hv with rfl | hv
      · omega
      · have := ih v hv
        omega
  rcases us with - | ⟨u', us⟩
  · cases hv
  · obtain ⟨t, rfl, ht⟩ := h
    rw [List.length_append]
    rcases List.mem_cons.1 hv with rfl | hv
    · omega
    · have := htail ht v hv
      omega

end Entries

theorem string_spelled {w r : Bytes} (hw : Blank w) (hr : isBody r = true) (t : Bytes) :
    Meaning.string (w ++ 34 :: (r ++ 34 :: t)) = .ok (some (substituteEscChars r, t)) := by
  have htext : stringText (34 :: (r ++ 34 :: t)) = some (34 :: (r ++ [34]), t) :=
    stringText_eq_some_iff.2 ⟨r, hr, rfl, by simp⟩
  rw [Meaning.string, Reads.map, Reads.token, string_, skipped_blank hw,
    skipped_cons (by decide), htext]
  simp only [getStrText_quoted]

theorem token_literal {c : UInt8} (hc : isSpace c = false) (s t : Bytes) :
    Reads.token (ε := Bytes) (strP (c :: s)) (c :: (s ++ t)) = .ok (some (c :: s, t)) := by
  rw [Reads.token, strP, skipped_cons hc]
  exact congrArg Except.ok (Peg.text_of_some (u := c :: s) (Peg.literal_append (c :: s) t))

/-- A byte that no token begins with. -/
theorem refuses_value (P : RealParser) (depth : ℕ) {b : UInt8} (hspace : isSpace b = false)
    (hdigit : isDigit b = false)
    (hnot : b ∉ ([34, 43, 45, 46, 123, 91, 116, 102, 110] : Bytes)) :
    Refuses (Meaning.value P depth) b := by
  have hne : ∀ c ∈ ([34, 43, 45, 46, 123, 91, 116, 102, 110] : Bytes), b ≠ c :=
    fun c hc h ↦ hnot (h ▸ hc)
  rcases depth with - | depth
  · exact fun _ ↦ rfl
  · exact ((refuses_string hspace (hne 34 (by decide))).map _).alt
      ((refuses_number P hspace hdigit (hne 43 (by decide)) (hne 45 (by decide))
        (hne 46 (by decide))).alt
      (((refuses_enclosed hspace (hne 123 (by decide)) _ _ _).map _).alt
      (((refuses_enclosed hspace (hne 91 (by decide)) _ _ _).map _).alt
      (((refuses_strP hspace (hne 116 (by decide))).map _).alt
      (((refuses_strP hspace (hne 102 (by decide))).map _).alt
      ((refuses_strP hspace (hne 110 (by decide))).map _))))))

/-- **A member is read**, if its value is. -/
theorem pair_spelled {value : Meaning.Rule Json} {x : MemberText} (hx : x.Legal) {r : Bytes}
    (h : value (x.text ++ r) = .ok (some (x.value, r))) :
    Meaning.pair value (x.bytes ++ r) = .ok (some (x.member, r)) := by
  have htext : x.bytes ++ r =
      x.blank ++ 34 :: (x.body ++ 34 :: (x.blank' ++ 58 :: (x.text ++ r))) := by
    simp [MemberText.bytes]
  have hcolon := Reads.orThrow_of_some (token_chP hx.blank' (show isSpace 58 = false by decide)
    (x.text ++ r)) (lit "no colon in pair")
  rw [htext]
  exact Reads.map_of_some (Reads.seq_of_some (Reads.seq_of_some
    (string_spelled hx.blank hx.body _) hcolon) (Reads.orThrow_of_some h _)) _

theorem keyword_alts {b : UInt8} (hspace : isSpace b = false) (hdigit : isDigit b = false)
    (hnot : b ∉ ([34, 43, 45, 46, 123, 91] : Bytes)) (depth : ℕ) (t : Bytes) :
    Meaning.value P (depth + 1) (b :: t) =
      Reads.alt (.map (fun _ ↦ bool true) (.token (strP (lit "true"))))
        (.alt (.map (fun _ ↦ bool false) (.token (strP (lit "false"))))
          (.map (fun _ ↦ null) (.token (strP (lit "null"))))) (b :: t) := by
  have hne : ∀ c ∈ ([34, 43, 45, 46, 123, 91] : Bytes), b ≠ c := fun c hc h ↦ hnot (h ▸ hc)
  refine (Reads.alt_of_none ((refuses_string hspace (hne 34 (by decide))).map _ _) _).trans ?_
  refine (Reads.alt_of_none (refuses_number P hspace hdigit (hne 43 (by decide))
    (hne 45 (by decide)) (hne 46 (by decide)) _) _).trans ?_
  refine (Reads.alt_of_none ((refuses_enclosed hspace (hne 123 (by decide)) _ _ _).map _ _)
    _).trans ?_
  exact Reads.alt_of_none ((refuses_enclosed hspace (hne 91 (by decide)) _ _ _).map _ _) _

/-- What a number begins with. -/
theorem IntText.exists_cons {n : ℤ} {u : Bytes} (h : IntText n u) :
    ∃ b s, u = b :: s ∧ isSpace b = false ∧ b ≠ 34 := by
  obtain @⟨ds, nonempty, digits, bound⟩ | @⟨ds, nonempty, digits, bound⟩ |
    @⟨ds, nonempty, digits, bound⟩ := h
  · obtain ⟨d, ds, rfl⟩ := List.exists_cons_of_ne_nil nonempty
    have hd := digits d List.mem_cons_self
    exact ⟨d, ds, rfl, isSpace_of_isDigit hd, fun h ↦ absurd (h ▸ hd) (by decide)⟩
  · exact ⟨43, ds, rfl, by decide, by decide⟩
  · exact ⟨45, ds, rfl, by decide, by decide⟩

/-! ### A value of each form -/

section Forms

variable {depth : ℕ} {w u w' : Bytes} (hw : Blank w) (r : Bytes)

include hw

theorem value_str {s : Bytes} (hs : isBody s = true) :
    Meaning.value P (depth + 1) (w ++ 34 :: (s ++ [34]) ++ r) =
      .ok (some (str (substituteEscChars s), r)) := by
  have htext : w ++ 34 :: (s ++ [34]) ++ r = w ++ 34 :: (s ++ 34 :: r) := by simp
  rw [htext]
  exact Reads.alt_of_some (Reads.map_of_some (string_spelled hw hs r) _) _

theorem value_int {n : ℤ} (h : IntText n u) {r : Bytes} (hr : Stops r) :
    Meaning.value P (depth + 1) (w ++ u ++ r) = .ok (some (int n, r)) := by
  obtain ⟨b, s, rfl, hspace, h34⟩ := h.exists_cons
  rw [List.append_assoc, skips_value P _ w _ hw]
  refine (Reads.alt_of_none ((refuses_string hspace h34).map _ _) _).trans ?_
  exact Reads.alt_of_some (number_spelled h hr) _

/-- An object, if its members are read with one level less. -/
theorem value_obj {xs : List MemberText} (hcommas : Commas (xs.map MemberText.bytes) u)
    (hw' : Blank w') (hmember : ∀ x ∈ xs, ∀ r, Stops r →
      Meaning.pair (Meaning.value P depth) (x.bytes ++ r) = .ok (some (x.member, r))) :
    Meaning.value P (depth + 1) (w ++ 123 :: (u ++ (w' ++ [125])) ++ r) =
      .ok (some (obj (xs.map MemberText.member), r)) := by
  rw [List.append_assoc, skips_value P _ w _ hw]
  have hcommas' : Commas ((xs.map fun x ↦ (x.member, x.bytes)).map Prod.snd) u := by
    rwa [List.map_map]
  have hmembers : ∀ x ∈ xs.map fun x ↦ (x.member, x.bytes), ∀ r, Stops r →
      Meaning.pair (Meaning.value P depth) (x.2 ++ r) = .ok (some (x.1, r)) :=
    List.forall_mem_map.2 hmember
  have henclosed := enclosed_spelled 123 125 (by decide) (by decide) (by decide) (by decide)
    hcommas' hw' ((((skips_token _).map _).seq _).seq _ |>.map _)
    ((((refuses_string (by decide) (by decide)).seq _).seq _).map _) hmembers
    (lit "not an object") r
  rw [List.map_map] at henclosed
  refine (Reads.alt_of_none ((refuses_string (by decide) (by decide)).map _ _) _).trans ?_
  refine (Reads.alt_of_none (refuses_number P (by decide) (by decide) (by decide) (by decide)
    (by decide) _) _).trans ?_
  exact Reads.alt_of_some (Reads.map_of_some henclosed _) _

/-- An array, if its elements are read with one level less. -/
theorem value_arr {xs : List (Json × Bytes)} (hcommas : Commas (xs.map Prod.snd) u)
    (hw' : Blank w') (helement : ∀ x ∈ xs, ∀ r, Stops r →
      Meaning.value P depth (x.2 ++ r) = .ok (some (x.1, r))) :
    Meaning.value P (depth + 1) (w ++ 91 :: (u ++ (w' ++ [93])) ++ r) =
      .ok (some (arr (xs.map Prod.fst), r)) := by
  rw [List.append_assoc, skips_value P _ w _ hw]
  have henclosed := enclosed_spelled 91 93 (by decide) (by decide)
    (by decide) (by decide) hcommas hw' (skips_value P depth)
    (refuses_value P depth (by decide) (by decide) (by decide)) helement (lit "not an array") r
  refine (Reads.alt_of_none ((refuses_string (by decide) (by decide)).map _ _) _).trans ?_
  refine (Reads.alt_of_none (refuses_number P (by decide) (by decide) (by decide) (by decide)
    (by decide) _) _).trans ?_
  refine (Reads.alt_of_none ((refuses_enclosed (by decide) (by decide) _ _ _).map _ _) _).trans ?_
  exact Reads.alt_of_some (Reads.map_of_some henclosed _) _

theorem value_true : Meaning.value P (depth + 1) (w ++ lit "true" ++ r) =
    .ok (some (bool true, r)) := by
  rw [List.append_assoc, skips_value P _ w _ hw]
  refine (keyword_alts (by decide) (by decide) (by decide) depth _).trans ?_
  exact Reads.alt_of_some (Reads.map_of_some (token_literal (by decide) (lit "rue") r) _) _

theorem value_false : Meaning.value P (depth + 1) (w ++ lit "false" ++ r) =
    .ok (some (bool false, r)) := by
  rw [List.append_assoc, skips_value P _ w _ hw]
  refine (keyword_alts (by decide) (by decide) (by decide) depth _).trans ?_
  refine (Reads.alt_of_none ((refuses_strP (by decide) (by decide)).map _ _) _).trans ?_
  exact Reads.alt_of_some (Reads.map_of_some (token_literal (by decide) (lit "alse") r) _) _

theorem value_null : Meaning.value P (depth + 1) (w ++ lit "null" ++ r) =
    .ok (some (null, r)) := by
  rw [List.append_assoc, skips_value P _ w _ hw]
  refine (keyword_alts (by decide) (by decide) (by decide) depth _).trans ?_
  refine (Reads.alt_of_none ((refuses_strP (by decide) (by decide)).map _ _) _).trans ?_
  refine (Reads.alt_of_none ((refuses_strP (by decide) (by decide)).map _ _) _).trans ?_
  exact Reads.map_of_some (token_literal (by decide) (lit "ull") r) _

end Forms

/-- **Every text of a value without fractions is read as this value**, by induction on the text. -/
theorem value_spells {v : Json} {u : Bytes} (h : Spells P v u) (hv : NoReal v) {depth : ℕ}
    (hdepth : u.length < depth) {r : Bytes} (hr : ∀ n, v = int n → Stops r) :
    Meaning.value P depth (u ++ r) = .ok (some (v, r)) := by
  induction h generalizing depth r with
  | real blank h => cases hv
  | str blank body =>
    obtain ⟨depth, rfl⟩ : ∃ m, depth = m + 1 := ⟨depth - 1, by omega⟩
    exact value_str blank r body
  | @int w u n blank h =>
    obtain ⟨depth, rfl⟩ : ∃ m, depth = m + 1 := ⟨depth - 1, by omega⟩
    exact value_int blank h (hr n rfl)
  | @obj w u w' xs blank legal values commas blank' ih =>
    obtain ⟨depth, rfl⟩ : ∃ m, depth = m + 1 := ⟨depth - 1, by omega⟩
    refine value_obj blank r commas blank' fun x hx r hr ↦ ?_
    have hlen := commas.length_le (List.mem_map_of_mem (f := MemberText.bytes) hx)
    have hx' : NoReal x.value := by
      cases hv with
      | obj h => exact h x.member (List.mem_map_of_mem hx)
    refine pair_spelled (legal x hx) (ih x hx hx' ?_ fun _ _ ↦ hr)
    simp only [MemberText.bytes, List.length_append, List.length_cons, List.length_nil]
      at hlen hdepth
    omega
  | @arr w u w' xs blank values commas blank' ih =>
    obtain ⟨depth, rfl⟩ : ∃ m, depth = m + 1 := ⟨depth - 1, by omega⟩
    refine value_arr blank r commas blank' fun x hx r hr ↦ ?_
    have hlen := commas.length_le (List.mem_map_of_mem (f := Prod.snd) hx)
    have hx' : NoReal x.1 := by
      cases hv with
      | arr h => exact h x.1 (List.mem_map_of_mem hx)
    refine ih x hx hx' ?_ fun _ _ ↦ hr
    simp only [List.length_append, List.length_cons, List.length_nil] at hdepth
    omega
  | true blank =>
    obtain ⟨depth, rfl⟩ : ∃ m, depth = m + 1 := ⟨depth - 1, by omega⟩
    exact value_true blank r
  | false blank =>
    obtain ⟨depth, rfl⟩ : ∃ m, depth = m + 1 := ⟨depth - 1, by omega⟩
    exact value_false blank r
  | null blank =>
    obtain ⟨depth, rfl⟩ : ∃ m, depth = m + 1 := ⟨depth - 1, by omega⟩
    exact value_null blank r

/-- What is returned is spelled by what was consumed. -/
theorem exists_spells_of_denoted {t : Bytes} {v : Json} (h : denoted P t = some v) :
    ∃ u r, t = u ++ r ∧ Spells P v u := by
  rw [denoted] at h
  rcases hvalue : Meaning.value P (t.length + 1) t with reason | - | ⟨v', r⟩
  · rw [hvalue] at h
    cases h
  · rw [hvalue] at h
    cases h
  · rw [hvalue] at h
    obtain rfl := Option.some.inj h
    obtain ⟨u, ht, hu⟩ := value_sound P _ hvalue
    exact ⟨u, r, ht, hu⟩

theorem denoted_of_spells {v : Json} {u r : Bytes} (hu : Spells P v u) (hv : NoReal v)
    (hr : ∀ n, v = int n → Stops r) : denoted P (u ++ r) = some v := by
  have hlen : u.length < (u ++ r).length + 1 := by
    rw [List.length_append]
    omega
  rw [denoted, value_spells hu hv hlen hr]

end Json

end Camlispp
