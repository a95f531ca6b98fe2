import Mathlib.Data.List.Basic

/-!
# Computations that may end with an error

`Avoids e x` says that a computation in `Except` does not end with the error `e`; it may succeed or
end with another. `Yields x p a` says that it succeeds exactly if `p` holds, and then with `a`.
`Ensures x P` says that whatever it succeeds with satisfies `P`. `Below x y` compares computations
that run on fuel: what `x` came back with, `y` comes back with.
The rules follow the way such computations are put together: a result, a sequence, and the two loops
over a list.

`foldlM_eq_error_iff` goes the other way: from the fact that a loop failed to the round that did,
and to the state in which it was entered.

Nothing here depends on a particular program.
-/

universe u v w

namespace Except

variable {ε : Type u} {α β : Type v} {e : ε}

/-! ### Avoiding an error -/

/-- The computation does not end with the error `e`. -/
def Avoids (e : ε) (x : Except ε α) : Prop := x ≠ .error e

theorem avoids_ok (a : α) : Avoids e (.ok a) := fun h ↦ by cases h

/-- What follows need only avoid the error from the results that come up. -/
theorem Avoids.bind {x : Except ε α} {f : α → Except ε β} (hx : x.Avoids e)
    (hf : ∀ a, x = .ok a → (f a).Avoids e) : (x >>= f).Avoids e := by
  rcases x with e' | a
  · exact fun h ↦ hx (congrArg Except.error (Except.error.inj h))
  · exact hf a rfl

/-- A loop avoids the error if no round raises it. -/
theorem Avoids.foldlM {γ : Type w} {f : α → γ → Except ε α} {l : List γ}
    (hf : ∀ a, ∀ c ∈ l, (f a c).Avoids e) (a : α) : (l.foldlM f a).Avoids e := by
  induction l generalizing a with
  | nil => exact avoids_ok a
  | cons c l ih =>
    rw [List.foldlM_cons]
    exact (hf a c List.mem_cons_self).bind fun a' _ ↦
      ih (fun a c hc ↦ hf a c (List.mem_cons_of_mem _ hc)) a'

theorem Avoids.mapM {γ : Type w} {f : γ → Except ε α} (hf : ∀ c, (f c).Avoids e) (l : List γ) :
    (l.mapM f).Avoids e := by
  induction l with
  | nil => exact avoids_ok []
  | cons c l ih =>
    rw [List.mapM_cons]
    exact (hf c).bind fun a _ ↦ ih.bind fun as _ ↦ avoids_ok _

/-! ### What a computation comes to -/

theorem eq_ok_of_toOption {x : Except ε α} {a : α} (h : x.toOption = some a) : x = .ok a := by
  rcases x with e | a'
  · cases h
  · exact congrArg Except.ok (Option.some.inj h)

/-! ### Where an error comes from -/

theorem bind_eq_error_iff {x : Except ε α} {f : α → Except ε β} :
    (x >>= f) = .error e ↔ x = .error e ∨ ∃ a, x = .ok a ∧ f a = .error e := by
  rcases x with e' | a
  · refine ⟨fun h ↦ Or.inl (congrArg Except.error (Except.error.inj h)), fun h ↦ ?_⟩
    rcases h with h | ⟨a, h, -⟩
    · exact congrArg Except.error (Except.error.inj h)
    · cases h
  · refine ⟨fun h ↦ Or.inr ⟨a, rfl, h⟩, fun h ↦ ?_⟩
    rcases h with h | ⟨a', h, hf⟩
    · cases h
    · obtain rfl := Except.ok.inj h
      exact hf

/-- **A loop fails where a round fails** that the rounds in front of it lead to. -/
theorem foldlM_eq_error_iff {γ : Type w} {f : α → γ → Except ε α} {l : List γ} {a : α} :
    l.foldlM f a = .error e ↔ ∃ before c after a', l = before ++ c :: after ∧
      before.foldlM f a = .ok a' ∧ f a' c = .error e := by
  constructor
  · intro h
    induction l generalizing a with
    | nil => cases h
    | cons c l ih =>
      rw [List.foldlM_cons] at h
      rcases bind_eq_error_iff.1 h with hone | ⟨a₁, hok, hrest⟩
      · exact ⟨[], c, l, a, rfl, rfl, hone⟩
      · obtain ⟨before, d, after, a', rfl, hbefore, hfail⟩ := ih hrest
        refine ⟨c :: before, d, after, a', rfl, ?_, hfail⟩
        rw [List.foldlM_cons, hok]
        exact hbefore
  · rintro ⟨before, c, after, a', rfl, hbefore, hfail⟩
    rw [List.foldlM_append, hbefore]
    show (c :: after).foldlM f a' = .error e
    rw [List.foldlM_cons, hfail]
    rfl

/-! ### Succeeding on a condition -/

/-- A loop comes to its end if every round does. -/
theorem exists_foldlM_eq_ok {γ : Type w} {f : α → γ → Except ε α} {l : List γ}
    (hf : ∀ a, ∀ c ∈ l, ∃ b, f a c = .ok b) (a : α) : ∃ b, l.foldlM f a = .ok b := by
  induction l generalizing a with
  | nil => exact ⟨a, rfl⟩
  | cons c l ih =>
    obtain ⟨b, hb⟩ := hf a c List.mem_cons_self
    rw [List.foldlM_cons, hb]
    exact ih (fun a c hc ↦ hf a c (List.mem_cons_of_mem _ hc)) b

/-- The computation succeeds exactly if `p` holds, and then with `a`. -/
def Yields (x : Except ε α) (p : Prop) (a : α) : Prop := ∀ b, x = .ok b ↔ p ∧ b = a

variable {x : Except ε α} {p q : Prop} {a : α}

theorem yields_ok (a : α) : Yields (.ok a : Except ε α) True a := fun _ ↦
  ⟨fun h ↦ ⟨trivial, (Except.ok.inj h).symm⟩, fun h ↦ congrArg _ h.2.symm⟩

theorem yields_error (e : ε) (a : α) : Yields (.error e) False a := fun _ ↦
  ⟨fun h ↦ (by cases h), fun h ↦ h.1.elim⟩

theorem Yields.congr (h : Yields x p a) (hpq : p ↔ q) : Yields x q a := by
  intro b
  rw [h b, hpq]

/-- The value counts only if the condition holds. -/
theorem Yields.congr_value {b : α} (h : Yields x p a) (hab : p → a = b) : Yields x p b := by
  intro c
  rw [h c]
  exact and_congr_right fun hp ↦ by rw [hab hp]

theorem Yields.eq_ok (h : Yields x p a) (hp : p) : x = .ok a := (h a).2 ⟨hp, rfl⟩

theorem Yields.exists_iff (h : Yields x p a) : (∃ b, x = .ok b) ↔ p :=
  ⟨fun ⟨b, hb⟩ ↦ ((h b).1 hb).1, fun hp ↦ ⟨a, h.eq_ok hp⟩⟩

/-- What follows need only be known about the one result that comes up. -/
theorem Yields.bind {f : α → Except ε β} {b : β} (hx : Yields x p a) (hf : Yields (f a) q b) :
    Yields (x >>= f) (p ∧ q) b := by
  intro c
  rcases x with e | a'
  · refine ⟨fun h ↦ (by cases h), fun h ↦ ?_⟩
    exact absurd (hx.eq_ok h.1.1) (by simp)
  · obtain ⟨hp, rfl⟩ := (hx a').1 rfl
    rw [and_iff_right hp]
    exact hf c

theorem Yields.mapM {γ : Type w} {f : γ → Except ε α} {P : γ → Prop} {g : γ → α}
    (hf : ∀ c, Yields (f c) (P c) (g c)) (l : List γ) :
    Yields (l.mapM f) (∀ c ∈ l, P c) (l.map g) := by
  induction l with
  | nil => exact (yields_ok []).congr (by simp)
  | cons c l ih =>
    rw [List.mapM_cons]
    refine ((hf c).bind (ih.bind (yields_ok (g c :: l.map g)))).congr ?_
    rw [and_true, List.forall_mem_cons]

theorem Yields.foldlM {γ : Type w} {f : α → γ → Except ε α} {P : γ → Prop} {g : α → γ → α}
    (hf : ∀ a c, Yields (f a c) (P c) (g a c)) (l : List γ) (a : α) :
    Yields (l.foldlM f a) (∀ c ∈ l, P c) (l.foldl g a) := by
  induction l generalizing a with
  | nil => exact (yields_ok a).congr (by simp)
  | cons c l ih =>
    rw [List.foldlM_cons]
    refine ((hf a c).bind (ih (g a c))).congr ?_
    rw [List.forall_mem_cons]

/-! ### What a success satisfies -/

/-- Whatever the computation succeeds with satisfies `P`. -/
def Ensures (x : Except ε α) (P : α → Prop) : Prop := ∀ a, x = .ok a → P a

theorem ensures_ok {P : α → Prop} {a : α} (h : P a) : Ensures (.ok a : Except ε α) P :=
  fun _ hb ↦ Except.ok.inj hb ▸ h

theorem Ensures.bind {f : α → Except ε β} {P : α → Prop} {Q : β → Prop} (hx : x.Ensures P)
    (hf : ∀ a, P a → (f a).Ensures Q) : (x >>= f).Ensures Q := by
  rcases x with e | a
  · exact fun b hb ↦ by cases hb
  · exact hf a (hx a rfl)

/-- A loop keeps what every round keeps. -/
theorem Ensures.foldlM {γ : Type w} {f : α → γ → Except ε α} {l : List γ} {P : α → Prop}
    (hf : ∀ a, ∀ c ∈ l, P a → (f a c).Ensures P) {a : α} (h : P a) :
    (l.foldlM f a).Ensures P := by
  induction l generalizing a with
  | nil => exact ensures_ok h
  | cons c l ih =>
    rw [List.foldlM_cons]
    exact (hf a c List.mem_cons_self h).bind fun a' ha' ↦
      ih (fun a c hc ↦ hf a c (List.mem_cons_of_mem _ hc)) ha'

/-! ### More fuel -/

/-- What the first computation came back with, the second comes back with. -/
def Below (x y : Except ε (Option α)) : Prop := ∀ a, x = .ok (some a) → y = .ok (some a)

theorem Below.refl (x : Except ε (Option α)) : Below x x := fun _ h ↦ h

theorem below_none (y : Except ε (Option α)) : Below (.ok none) y := fun _ h ↦ by cases h

theorem Below.ite {c : Prop} [Decidable c] {x y x' y' : Except ε (Option α)} (h : Below x x')
    (h' : Below y y') : Below (if c then x else y) (if c then x' else y') := by
  split_ifs
  · exact h
  · exact h'

/-- Two sequences that differ in what follows. -/
theorem Below.bind {f g : α → Except ε (Option β)} (x : Except ε α)
    (h : ∀ a, Below (f a) (g a)) : Below (x >>= f) (x >>= g) := by
  rcases x with e | a
  · exact .refl _
  · exact h a

/-- Two sequences that differ in the first part as well, and are of no use after it ran out. -/
theorem Below.bind_option {x y : Except ε (Option α)} {f g : Option α → Except ε (Option β)}
    (hxy : Below x y) (hnone : f none = .ok none) (h : ∀ a, Below (f (some a)) (g (some a))) :
    Below (x >>= f) (y >>= g) := by
  rcases x with e | - | a
  · exact fun b hb ↦ by cases hb
  · change Below (f none) _
    rw [hnone]
    exact below_none _
  · rw [hxy a rfl]
    exact h a

end Except
