import Mathlib.Data.Set.Finite.Basic

/-!
# Walks that follow a pointer

`next` leads from a place to another one, or nowhere. `walk next n a` is the place that `n` steps
from `a` lead to. Among finitely many places a walk ends exactly if it comes to no place twice
(`exists_walk_eq_none_iff`): a walk that returns goes round for ever, and one that does not runs out
of places.

Of the places only those that some step leads to need be finite in number: this is what
`exists_walk_eq_none_iff` asks for. A walk that returns is shown never to end by going round
(`isSome_walk_of_return`); one that does not return would list ever more places.

## What the result rests on

* `walk_add`: walks are put together, so a place that is met again is met again and again.
* The places of a walk that does not return are all different, and lie in a finite set, so there is
  a bound on their number.

Nothing here depends on a particular program.
-/

universe u

namespace Walk

variable {α : Type u} (next : α → Option α)

/-- The place `n` steps away. -/
def walk : ℕ → α → Option α
  | 0, a => some a
  | n + 1, a => (next a).bind (walk n)

variable {next}

theorem walk_add (m n : ℕ) (a : α) : walk next (m + n) a = (walk next m a).bind (walk next n) := by
  induction m generalizing a with
  | zero => rw [Nat.zero_add]; rfl
  | succ m ih =>
    rw [Nat.succ_add]
    show (next a).bind (walk next (m + n)) = ((next a).bind (walk next m)).bind (walk next n)
    rw [Option.bind_assoc]
    exact congrArg _ (funext ih)

theorem walk_succ (n : ℕ) (a : α) : walk next (n + 1) a = (walk next n a).bind next := by
  have hone : walk next 1 = next := funext fun b ↦ Option.bind_fun_some (next b)
  rw [walk_add, hone]

/-- A walk that has ended stays so. -/
theorem walk_eq_none_of_le {m n : ℕ} (h : m ≤ n) {a : α} (hm : walk next m a = none) :
    walk next n a = none := by
  obtain ⟨k, rfl⟩ := Nat.exists_eq_add_of_le h
  rw [walk_add, hm, Option.bind_none]

/-- The walk from `a` comes to no place twice. -/
def NoReturn (next : α → Option α) (a : α) : Prop :=
  ∀ ⦃i j c⦄, walk next i a = some c → walk next j a = some c → i = j

/-- A walk that returns to where it was never ends. -/
theorem isSome_walk_of_return {a : α} {d : ℕ} (hd : 0 < d) (h : walk next d a = some a) (n : ℕ) :
    (walk next n a).isSome = true := by
  have hround : ∀ k, walk next (k * d) a = some a := by
    intro k
    induction k with
    | zero => rw [Nat.zero_mul]; rfl
    | succ k ih => rw [Nat.succ_mul, walk_add, ih, Option.bind_some, h]
  rw [Option.isSome_iff_ne_none]
  intro hnone
  have hlate := walk_eq_none_of_le (Nat.le_mul_of_pos_right n hd) hnone
  rw [hround n] at hlate
  cases hlate

theorem noReturn_of_walk_eq_none {a : α} {n : ℕ} (h : walk next n a = none) :
    NoReturn next a := by
  have hlt : ∀ ⦃i j c⦄, walk next i a = some c → walk next j a = some c → ¬i < j := by
    intro i j c hi hj hij
    obtain ⟨d, rfl⟩ := Nat.exists_eq_add_of_le hij.le
    rw [walk_add, hi, Option.bind_some] at hj
    -- from place `c` the walk returns to it, so it cannot have ended there
    have hmore := isSome_walk_of_return (show 0 < d by omega) hj n
    have hend := walk_eq_none_of_le (Nat.le_add_left n i) h
    rw [walk_add, hi, Option.bind_some] at hend
    rw [hend] at hmore
    cases hmore
  exact fun i j c hi hj ↦ le_antisymm (not_lt.1 (hlt hj hi)) (not_lt.1 (hlt hi hj))

/-- **A walk among finitely many places ends exactly if it does not return.** -/
theorem exists_walk_eq_none_iff (hfin : {c | ∃ b, next b = some c}.Finite) (a : α) :
    (∃ n, walk next n a = none) ↔ NoReturn next a := by
  constructor
  · rintro ⟨n, hn⟩
    exact noReturn_of_walk_eq_none hn
  · intro hno
    by_contra hnever
    have hsome : ∀ n, ∃ c, walk next n a = some c := fun n ↦
      Option.ne_none_iff_exists'.1 fun h ↦ hnever ⟨n, h⟩
    choose place hplace using hsome
    have hinj : Function.Injective place := fun i j hij ↦
      hno (hplace i) ((hplace j).trans (congrArg some hij.symm))
    -- every place but the first is one that `next` leads to
    have hrange : Set.range place ⊆ insert a {c | ∃ b, next b = some c} := by
      rintro c ⟨n, rfl⟩
      cases n with
      | zero => exact Or.inl (Option.some.inj (hplace 0)).symm
      | succ n =>
        refine Or.inr ⟨place n, ?_⟩
        rw [← hplace (n + 1), walk_succ, hplace n, Option.bind_some]
    exact Set.infinite_range_of_injective hinj ((hfin.insert a).subset hrange)

end Walk
