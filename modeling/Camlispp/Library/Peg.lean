import Mathlib.Data.List.Basic
import Mathlib.Data.List.TakeWhile
import Mathlib.Tactic.Linarith

/-!
# Parsing expression grammars

Recognizers with a result over an arbitrary alphabet: ordered choice, greedy repetition, and
look-ahead, as in a PEG. A parser either fails or returns a result and what is left of the input;
a failed parser leaves the input where it was.

Repetition is total by fuel: `many` runs with as much fuel as there is input, which is enough for
any parser that consumes at least one symbol when it succeeds (`Consumes 1`). Under that condition
it satisfies its unfolding equations `many_of_none` and `many_of_some`, and these are all that the
proofs about particular grammars use. `many_append` is the form most of them need: a repetition of
a one-symbol parser consumes exactly the stretch on which each position lets it through.

The rules come in three families, and a proof about a grammar uses one of each:

* what a parser makes of a text of the right form (`seq_of_some`, `alt_of_none`, `many_append`);
* what a text looks like that a parser accepted (`text_of_some`, `Consumes`);
* what holds of every result (`Gives`, `forall_mem_many`).

Nothing here depends on a particular program.
-/

universe u v w

/-- A parser over the alphabet `σ` with results in `α`. -/
abbrev Peg (σ : Type u) (α : Type v) := List σ → Option (α × List σ)

namespace Peg

variable {σ : Type u} {α : Type v} {β : Type w}

/-! ### The operators -/

/-- One symbol of a class. -/
def satisfy (f : σ → Bool) : Peg σ σ
  | [] => none
  | c :: s => if f c then some (c, s) else none

/-- A fixed string. -/
def literal [BEq σ] (p : List σ) : Peg σ Unit := fun s ↦
  if p.isPrefixOf s then some ((), s.drop p.length) else none

/-- `p >> q`. -/
def seq (p : Peg σ α) (q : Peg σ β) : Peg σ (α × β) := fun s ↦
  (p s).bind fun x ↦ (q x.2).map fun y ↦ ((x.1, y.1), y.2)

/-- A parser with its result transformed. -/
def map (f : α → β) (p : Peg σ α) : Peg σ β := fun s ↦ (p s).map fun x ↦ (f x.1, x.2)

/-- `p | q`: the first alternative that matches. -/
def alt (p q : Peg σ α) : Peg σ α := fun s ↦ (p s).or (q s)

/-- `-p`. -/
def opt (p : Peg σ α) : Peg σ (Option α) := fun s ↦
  match p s with
  | none => some (none, s)
  | some (a, r) => some (some a, r)

/-- `p - q`: `p`, where `q` does not match. -/
def diff (p : Peg σ α) (q : Peg σ β) : Peg σ α := fun s ↦ if (q s).isSome then none else p s

/-- `p - q`, as parsers that look at how much was matched have it: `p`, unless `q` matches at least
as much. -/
def butNot (p : Peg σ α) (q : Peg σ β) : Peg σ α := fun s ↦
  match p s, q s with
  | some (a, r), some (_, r') => if r.length < r'.length then some (a, r) else none
  | x, _ => x

/-- A parser without its result. -/
def void (p : Peg σ α) : Peg σ Unit := map (fun _ ↦ ()) p

/-- The input that a parser consumes. -/
def text (p : Peg σ α) : Peg σ (List σ) := fun s ↦
  (p s).map fun x ↦ (s.take (s.length - x.2.length), x.2)

/-- At most `fuel` repetitions. -/
def manyFuel (p : Peg σ α) : ℕ → List σ → List α × List σ
  | 0, s => ([], s)
  | fuel + 1, s =>
    match p s with
    | none => ([], s)
    | some (a, r) => (a :: (manyFuel p fuel r).1, (manyFuel p fuel r).2)

/-- `*p`, greedy; never fails. -/
def many (p : Peg σ α) : Peg σ (List α) := fun s ↦ some (manyFuel p s.length s)

/-- `+p`. -/
def many1 (p : Peg σ α) : Peg σ (List α) := map (fun x ↦ x.1 :: x.2) (seq p (many p))

/-! ### Parsers that never fail -/

theorem isSome_many (p : Peg σ α) (s : List σ) : (many p s).isSome = true := rfl

theorem isSome_opt (p : Peg σ α) (s : List σ) : (opt p s).isSome = true := by
  rw [opt]
  rcases p s with - | x
  · rfl
  · rfl

theorem isSome_map (f : α → β) (p : Peg σ α) (s : List σ) : (map f p s).isSome = (p s).isSome := by
  rw [map, Option.isSome_map]

/-- What follows and never fails does not matter. -/
theorem isSome_seq {q : Peg σ β} (hq : ∀ s, (q s).isSome = true) (p : Peg σ α) (s : List σ) :
    (seq p q s).isSome = (p s).isSome := by
  rw [seq]
  rcases p s with - | x
  · rfl
  · rw [Option.bind_some, Option.isSome_map, hq, Option.isSome_some]

/-! ### How much a parser consumes -/

/-- On success at least `n` symbols are consumed. -/
def Consumes (n : ℕ) (p : Peg σ α) : Prop :=
  ∀ ⦃s a r⦄, p s = some (a, r) → r.length + n ≤ s.length

theorem Consumes.mono {m n : ℕ} {p : Peg σ α} (h : Consumes n p) (hmn : m ≤ n) : Consumes m p := by
  intro s a r hp
  have := h hp
  omega

theorem consumes_satisfy (f : σ → Bool) : Consumes 1 (satisfy f) := by
  intro s a r h
  cases s with
  | nil => cases h
  | cons c s =>
    rw [satisfy] at h
    split_ifs at h
    obtain ⟨-, rfl⟩ := Prod.mk.inj (Option.some.inj h)
    simp

theorem consumes_literal [BEq σ] [LawfulBEq σ] (p : List σ) : Consumes p.length (literal p) := by
  intro s a r h
  rw [literal] at h
  split_ifs at h with hp
  obtain ⟨-, rfl⟩ := Prod.mk.inj (Option.some.inj h)
  have := (List.isPrefixOf_iff_prefix.1 hp).length_le
  simp only [List.length_drop]
  omega

theorem Consumes.seq {m n : ℕ} {p : Peg σ α} {q : Peg σ β} (hp : Consumes m p)
    (hq : Consumes n q) : Consumes (m + n) (seq p q) := by
  intro s a r h
  obtain ⟨x, hx, hxy⟩ := Option.bind_eq_some_iff.1 h
  obtain ⟨y, hy, hr⟩ := Option.map_eq_some_iff.1 hxy
  obtain ⟨-, rfl⟩ := Prod.mk.inj hr
  have h₁ := hp hx
  have h₂ := hq hy
  omega

theorem Consumes.map {n : ℕ} {p : Peg σ α} (hp : Consumes n p) (f : α → β) :
    Consumes n (map f p) := by
  intro s a r h
  obtain ⟨x, hx, hr⟩ := Option.map_eq_some_iff.1 h
  obtain ⟨-, rfl⟩ := Prod.mk.inj hr
  exact hp hx

theorem Consumes.diff {n : ℕ} {p : Peg σ α} (hp : Consumes n p) (q : Peg σ β) :
    Consumes n (diff p q) := by
  intro s a r h
  rw [Peg.diff] at h
  split_ifs at h
  exact hp h

theorem Consumes.alt {n : ℕ} {p q : Peg σ α} (hp : Consumes n p) (hq : Consumes n q) :
    Consumes n (alt p q) := by
  intro s a r h
  rcases Option.or_eq_some_iff.1 h with h' | ⟨-, h'⟩
  · exact hp h'
  · exact hq h'

theorem Consumes.opt {n : ℕ} {p : Peg σ α} (hp : Consumes n p) : Consumes 0 (opt p) := by
  intro s a r h
  rw [Peg.opt] at h
  rcases hs : p s with - | ⟨b, t⟩
  · rw [hs] at h
    obtain ⟨-, rfl⟩ := Prod.mk.inj (Option.some.inj h)
    omega
  · rw [hs] at h
    obtain ⟨-, rfl⟩ := Prod.mk.inj (Option.some.inj h)
    have := hp hs
    omega

/-! ### Repetition -/

/-- With a parser that always consumes, fuel beyond the length of the input changes nothing. -/
theorem manyFuel_eq {p : Peg σ α} (hp : Consumes 1 p) :
    ∀ {m n : ℕ} {s : List σ}, s.length ≤ m → s.length ≤ n → manyFuel p m s = manyFuel p n s := by
  intro m
  induction m with
  | zero =>
    intro n s hm _
    obtain rfl : s = [] := List.length_eq_zero_iff.1 (by omega)
    cases n with
    | zero => rfl
    | succ n =>
      rcases hs : p [] with - | ⟨a, r⟩
      · simp [manyFuel, hs]
      · exact absurd (hp hs) (by simp)
  | succ m ih =>
    intro n s hm hn
    rcases hs : p s with - | ⟨a, r⟩
    · cases n with
      | zero => simp [manyFuel, hs]
      | succ n => simp [manyFuel, hs]
    · have hlt := hp hs
      cases n with
      | zero => exact absurd hlt (by omega)
      | succ n => simp [manyFuel, hs, ih (show r.length ≤ m by omega) (show r.length ≤ n by omega)]

theorem many_of_none {p : Peg σ α} {s : List σ} (h : p s = none) : many p s = some ([], s) := by
  cases s with
  | nil => rfl
  | cons c s => simp [many, manyFuel, h]

theorem many_of_some {p : Peg σ α} (hp : Consumes 1 p) {s r t : List σ} {a : α} {as : List α}
    (h : p s = some (a, r)) (hr : many p r = some (as, t)) : many p s = some (a :: as, t) := by
  have hlt := hp h
  obtain ⟨n, hn⟩ : ∃ n, s.length = n + 1 := ⟨s.length - 1, by omega⟩
  have hfuel : manyFuel p n r = (as, t) :=
    (manyFuel_eq hp (by omega) le_rfl).trans (Option.some.inj hr)
  rw [many, hn, manyFuel, h]
  simp [hfuel]

theorem many1_of_none {p : Peg σ α} {s : List σ} (h : p s = none) : many1 p s = none := by
  simp [many1, map, seq, h]

theorem many1_of_many {p : Peg σ α} (hp : Consumes 1 p) {s t : List σ} {a : α} {as : List α}
    (h : many p s = some (a :: as, t)) : many1 p s = some (a :: as, t) := by
  rcases hs : p s with - | ⟨b, r⟩
  · rw [many_of_none hs] at h
    cases h
  · have hr : many p r = some ((manyFuel p r.length r).1, (manyFuel p r.length r).2) := rfl
    rw [many_of_some hp hs hr] at h
    obtain ⟨h₁, h₂⟩ := Prod.mk.inj (Option.some.inj h)
    obtain ⟨rfl, hbs⟩ := List.cons.inj h₁
    simp [many1, map, seq, hs, hr, hbs, h₂]

/-- **A stretch of single symbols.** If the parser takes the next symbol at every position of `u`
and fails behind it, repeating it consumes exactly `u`. -/
theorem many_append {p : Peg σ σ} (hp : Consumes 1 p) {u t : List σ}
    (hu : ∀ u₁ c u₂, u = u₁ ++ c :: u₂ → p (c :: (u₂ ++ t)) = some (c, u₂ ++ t))
    (ht : p t = none) : many p (u ++ t) = some (u, t) := by
  induction u with
  | nil => exact many_of_none ht
  | cons c u ih =>
    refine many_of_some hp (hu [] c u rfl) (ih fun u₁ d u₂ h ↦ ?_)
    exact hu (c :: u₁) d u₂ (by rw [h, List.cons_append])

/-- Repeating a symbol class takes the longest run of it. -/
theorem many_satisfy (f : σ → Bool) (s : List σ) :
    many (satisfy f) s = some (s.takeWhile f, s.dropWhile f) := by
  have hsplit : s.takeWhile f ++ s.dropWhile f = s := List.takeWhile_append_dropWhile
  have hrun : many (satisfy f) (s.takeWhile f ++ s.dropWhile f) =
      some (s.takeWhile f, s.dropWhile f) := by
    refine many_append (consumes_satisfy f) (fun u₁ c u₂ h ↦ ?_) ?_
    · have hc : f c = true :=
        List.mem_takeWhile_imp (h ▸ List.mem_append_right u₁ List.mem_cons_self)
      simp [satisfy, hc]
    · rcases hd : s.dropWhile f with - | ⟨c, t⟩
      · rfl
      · have hc : f c = false := by
          have := List.head?_dropWhile_not f s
          rw [hd] at this
          simpa using this
        simp [satisfy, hc]
  rwa [hsplit] at hrun

theorem many1_satisfy (f : σ → Bool) (s : List σ) :
    many1 (satisfy f) s =
      if s.takeWhile f = [] then none else some (s.takeWhile f, s.dropWhile f) := by
  cases s with
  | nil => simp [many1, map, seq, satisfy]
  | cons c s =>
    by_cases hc : f c
    · simp [many1, map, seq, satisfy, hc, many_satisfy]
    · simp [many1, map, seq, satisfy, hc]

/-- **Invariant rule for repetition.** A property of the remaining input that each round keeps, and
under which each result satisfies `P`, gives `P` for all results. -/
theorem forall_mem_many {p : Peg σ α} {Q : List σ → Prop} {P : α → Prop}
    (hstep : ∀ ⦃s a r⦄, Q s → p s = some (a, r) → P a ∧ Q r) {s r : List σ} {as : List α}
    (hs : Q s) (h : many p s = some (as, r)) : (∀ a ∈ as, P a) ∧ Q r := by
  have key : ∀ n s, Q s → (∀ a ∈ (manyFuel p n s).1, P a) ∧ Q (manyFuel p n s).2 := by
    intro n
    induction n with
    | zero => exact fun s hs ↦ ⟨fun a ha ↦ absurd ha List.not_mem_nil, hs⟩
    | succ n ih =>
      intro s hs
      rcases hp : p s with - | ⟨a, t⟩
      · simpa [manyFuel, hp] using hs
      · obtain ⟨ha, ht⟩ := hstep hs hp
        obtain ⟨has, hr⟩ := ih t ht
        simp only [manyFuel, hp]
        exact ⟨List.forall_mem_cons.2 ⟨ha, has⟩, hr⟩
  have hfuel := key s.length s hs
  rwa [Option.some.inj h] at hfuel

/-- Every result satisfies `P`. -/
def Gives (p : Peg σ α) (P : α → Prop) : Prop := ∀ ⦃s a r⦄, p s = some (a, r) → P a

theorem gives_satisfy (f : σ → Bool) : Gives (satisfy f) fun c ↦ f c = true := by
  intro s c r h
  cases s with
  | nil => cases h
  | cons b s =>
    rw [satisfy] at h
    split_ifs at h with hb
    obtain ⟨rfl, -⟩ := Prod.mk.inj (Option.some.inj h)
    exact hb

theorem gives_true (p : Peg σ α) : Gives p fun _ ↦ True := fun _ _ _ _ ↦ trivial

theorem Gives.map {p : Peg σ α} {f : α → β} {P : β → Prop} (h : Gives p fun a ↦ P (f a)) :
    Gives (map f p) P := by
  intro s b r hb
  obtain ⟨x, hx, hr⟩ := Option.map_eq_some_iff.1 hb
  obtain ⟨rfl, rfl⟩ := Prod.mk.inj hr
  exact h hx

theorem Gives.diff {p : Peg σ α} {P : α → Prop} (hp : Gives p P) (q : Peg σ β) :
    Gives (diff p q) P := by
  intro s a r h
  rw [Peg.diff] at h
  split_ifs at h
  exact hp h

theorem Gives.seq {p : Peg σ α} {q : Peg σ β} {P : α → Prop} {Q : β → Prop} (hp : Gives p P)
    (hq : Gives q Q) : Gives (seq p q) fun x ↦ P x.1 ∧ Q x.2 := by
  intro s x r hx
  obtain ⟨y, hy, hyx⟩ := Option.bind_eq_some_iff.1 hx
  obtain ⟨z, hz, hr⟩ := Option.map_eq_some_iff.1 hyx
  obtain ⟨rfl, rfl⟩ := Prod.mk.inj hr
  exact ⟨hp hy, hq hz⟩

theorem Gives.opt {p : Peg σ α} {P : α → Prop} (hp : Gives p P) :
    Gives (opt p) fun x ↦ ∀ a ∈ x, P a := by
  intro s x r hx a ha
  rw [Peg.opt] at hx
  split at hx
  · obtain ⟨rfl, -⟩ := Prod.mk.inj (Option.some.inj hx)
    cases ha
  · next hs =>
    obtain ⟨rfl, -⟩ := Prod.mk.inj (Option.some.inj hx)
    obtain rfl := Option.some.inj ha
    exact hp hs

theorem Gives.many {p : Peg σ α} {P : α → Prop} (hp : Gives p P) :
    Gives (many p) fun as ↦ ∀ a ∈ as, P a := fun _ _ _ h ↦
  (forall_mem_many (Q := fun _ ↦ True) (fun _ _ _ _ ha ↦ ⟨hp ha, trivial⟩) trivial h).1

theorem Gives.many1 {p : Peg σ α} {P : α → Prop} (hp : Gives p P) :
    Gives (many1 p) fun as ↦ ∀ a ∈ as, P a :=
  Gives.map fun _ _ _ h ↦ List.forall_mem_cons.2 (hp.seq hp.many h)

theorem consumes_many {p : Peg σ α} (hp : Consumes 1 p) : Consumes 0 (many p) := by
  have key : ∀ n s, (manyFuel p n s).2.length ≤ s.length := by
    intro n
    induction n with
    | zero => exact fun s ↦ le_rfl
    | succ n ih =>
      intro s
      rcases hs : p s with - | ⟨a, r⟩
      · simp [manyFuel, hs]
      · have h₁ := ih r
        have h₂ := hp hs
        simp only [manyFuel, hs]
        omega
  intro s a r h
  obtain ⟨-, rfl⟩ := Prod.mk.inj (Option.some.inj h)
  exact key _ _

theorem consumes_many1 {p : Peg σ α} (hp : Consumes 1 p) : Consumes 1 (many1 p) :=
  Consumes.map (hp.seq (consumes_many hp)) _

/-! ### Consumed input -/

theorem text_of_some {p : Peg σ α} {u r : List σ} {a : α} (h : p (u ++ r) = some (a, r)) :
    text p (u ++ r) = some (u, r) := by
  rw [text, h, Option.map_some, List.length_append, Nat.add_sub_cancel, List.take_left]

theorem text_eq_some {p : Peg σ α} {s u r : List σ} (h : text p s = some (u, r)) :
    ∃ a, p s = some (a, r) ∧ u = s.take (s.length - r.length) := by
  obtain ⟨⟨a, r'⟩, hp, heq⟩ := Option.map_eq_some_iff.1 h
  obtain ⟨rfl, rfl⟩ := Prod.mk.inj heq
  exact ⟨a, hp, rfl⟩

/-! ### Fixed strings -/

theorem literal_append [BEq σ] [LawfulBEq σ] (p s : List σ) :
    literal p (p ++ s) = some ((), s) := by
  simp [literal]

theorem literal_eq_none [BEq σ] [LawfulBEq σ] {p s : List σ} (h : ¬p <+: s) :
    literal p s = none := by
  rw [literal, if_neg]
  simpa using h

theorem literal_singleton [DecidableEq σ] (c b : σ) (s : List σ) :
    literal [c] (b :: s) = if b = c then some ((), s) else none := by
  by_cases h : b = c
  · rw [if_pos h, h]
    exact literal_append [c] s
  · rw [if_neg h]
    refine literal_eq_none fun hpre ↦ h ?_
    obtain ⟨t, ht⟩ := hpre
    exact (List.cons.inj ht).1.symm

end Peg
