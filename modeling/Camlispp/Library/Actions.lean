import Camlispp.Library.Peg

/-!
# Parsers with semantic actions

A grammar whose rules carry actions is two things at once: a recognizer, and a program that the
recognizer drives. `Scan` is the program: an action changes a state as soon as its rule matches,
and **what it did stays done** when the surrounding rule fails to match afterwards and another
alternative is tried; an action may also throw. `Reads` is what one wants to reason about: a parser
that changes nothing and returns what it read.

`Follows raise I F p q` relates the two. From every state with the invariant `I`, the program `p`
throws `raise d` where `q` throws `d`, and nothing else; it leaves the state **untouched** where `q`
does not match; and otherwise it ends in a state that `F` relates to the old one and to what `q`
read. The relation goes through every operator (`Follows.seq`, `Follows.alt`, `Follows.star`, …), so
that for a grammar only its tokens and the invariant need an argument.

`Sound q S` says what `q` accepts, in terms of the consumed stretch of input, and goes through the
operators as well.
-/

universe u v w x

variable {ε δ : Type u} {σ : Type v} {τ : Type w} {α β γ : Type x}

/-- A parser with actions on a state: it throws, or leaves a state and either matches, with what is
left of the input, or does not. -/
abbrev Scan (ε : Type u) (σ : Type v) (τ : Type w) := σ → List τ → Except ε (σ × Option (List τ))

/-- A parser that returns what it read: it throws, does not match, or returns a result and what is
left of the input. -/
abbrev Reads (ε : Type u) (τ : Type w) (α : Type x) := List τ → Except ε (Option (α × List τ))

namespace Scan

/-- `p[f]`: a token with an action. -/
def token (p : Peg τ α) (f : σ → α → Except ε σ) : Scan ε σ τ := fun s t ↦
  match p t with
  | none => .ok (s, none)
  | some (a, r) =>
    match f s a with
    | .error e => .error e
    | .ok s' => .ok (s', some r)

/-- `p >> q`. -/
def seq (p q : Scan ε σ τ) : Scan ε σ τ := fun s t ↦
  match p s t with
  | .error e => .error e
  | .ok (s, none) => .ok (s, none)
  | .ok (s, some r) => q s r

/-- `p | q`. -/
def alt (p q : Scan ε σ τ) : Scan ε σ τ := fun s t ↦
  match p s t with
  | .error e => .error e
  | .ok (s, none) => q s t
  | .ok (s, some r) => .ok (s, some r)

/-- `!p`. -/
def opt (p : Scan ε σ τ) : Scan ε σ τ := fun s t ↦
  match p s t with
  | .error e => .error e
  | .ok (s, none) => .ok (s, some t)
  | .ok (s, some r) => .ok (s, some r)

/-- `p | eps_p[f]`, where the action `f` throws `e`. -/
def orThrow (p : Scan ε σ τ) (e : ε) : Scan ε σ τ := fun s t ↦
  match p s t with
  | .error e => .error e
  | .ok (_, none) => .error e
  | .ok (s, some r) => .ok (s, some r)

/-- At most `fuel` repetitions. -/
def starFuel (p : Scan ε σ τ) : ℕ → Scan ε σ τ
  | 0, s, t => .ok (s, some t)
  | fuel + 1, s, t =>
    match p s t with
    | .error e => .error e
    | .ok (s, none) => .ok (s, some t)
    | .ok (s, some r) => starFuel p fuel s r

/-- `*p`. -/
def star (p : Scan ε σ τ) : Scan ε σ τ := fun s t ↦ starFuel p t.length s t

end Scan

namespace Reads

/-- A token. -/
def token (p : Peg τ α) : Reads ε τ α := fun t ↦ .ok (p t)

/-- A parser with its result transformed. -/
def map (f : α → β) (p : Reads ε τ α) : Reads ε τ β := fun t ↦
  match p t with
  | .error e => .error e
  | .ok none => .ok none
  | .ok (some (a, r)) => .ok (some (f a, r))

/-- One parser behind another. -/
def seq (p : Reads ε τ α) (q : Reads ε τ β) : Reads ε τ (α × β) := fun t ↦
  match p t with
  | .error e => .error e
  | .ok none => .ok none
  | .ok (some (a, r)) => map (fun b ↦ (a, b)) q r

/-- The first alternative that matches. -/
def alt (p q : Reads ε τ α) : Reads ε τ α := fun t ↦
  match p t with
  | .error e => .error e
  | .ok none => q t
  | .ok (some x) => .ok (some x)

/-- A parser, or nothing. -/
def opt (p : Reads ε τ α) : Reads ε τ (Option α) := fun t ↦
  match p t with
  | .error e => .error e
  | .ok none => .ok (some (none, t))
  | .ok (some (a, r)) => .ok (some (some a, r))

/-- A parser that has to match. -/
def orThrow (p : Reads ε τ α) (e : ε) : Reads ε τ α := fun t ↦
  match p t with
  | .error e => .error e
  | .ok none => .error e
  | .ok (some x) => .ok (some x)

/-- At most `fuel` repetitions. -/
def starFuel (p : Reads ε τ α) : ℕ → Reads ε τ (List α)
  | 0, t => .ok (some ([], t))
  | fuel + 1, t =>
    match p t with
    | .error e => .error e
    | .ok none => .ok (some ([], t))
    | .ok (some (a, r)) => map (a :: ·) (starFuel p fuel) r

/-- Greedy repetition. -/
def star (p : Reads ε τ α) : Reads ε τ (List α) := fun t ↦ starFuel p t.length t

/-! ### What the operators return -/

theorem map_of_some {p : Reads ε τ α} {t r : List τ} {a : α} (h : p t = .ok (some (a, r)))
    (f : α → β) : map f p t = .ok (some (f a, r)) := by
  rw [map, h]

theorem seq_of_some {p : Reads ε τ α} {q : Reads ε τ β} {t r u : List τ} {a : α} {b : β}
    (hp : p t = .ok (some (a, r))) (hq : q r = .ok (some (b, u))) :
    seq p q t = .ok (some ((a, b), u)) := by
  rw [seq, hp]
  exact map_of_some hq _

theorem seq_of_none {p : Reads ε τ α} {t : List τ} (hp : p t = .ok none) (q : Reads ε τ β) :
    seq p q t = .ok none := by
  rw [seq, hp]

theorem alt_of_some {p : Reads ε τ α} {t : List τ} {x : α × List τ} (hp : p t = .ok (some x))
    (q : Reads ε τ α) : alt p q t = .ok (some x) := by
  rw [alt, hp]

theorem alt_of_none {p : Reads ε τ α} {t : List τ} (hp : p t = .ok none) (q : Reads ε τ α) :
    alt p q t = q t := by
  rw [alt, hp]

theorem opt_of_some {p : Reads ε τ α} {t r : List τ} {a : α} (hp : p t = .ok (some (a, r))) :
    opt p t = .ok (some (some a, r)) := by
  rw [opt, hp]

theorem opt_of_none {p : Reads ε τ α} {t : List τ} (hp : p t = .ok none) :
    opt p t = .ok (some (none, t)) := by
  rw [opt, hp]

theorem orThrow_of_some {p : Reads ε τ α} {t : List τ} {x : α × List τ} (hp : p t = .ok (some x))
    (e : ε) : orThrow p e t = .ok (some x) := by
  rw [orThrow, hp]

theorem map_eq_some {p : Reads ε τ α} {f : α → β} {t r : List τ} {b : β}
    (h : map f p t = .ok (some (b, r))) : ∃ a, p t = .ok (some (a, r)) ∧ b = f a := by
  rw [map] at h
  rcases hp : p t with e | - | ⟨a, r'⟩
  · rw [hp] at h
    cases h
  · rw [hp] at h
    cases h
  · rw [hp] at h
    obtain ⟨rfl, rfl⟩ := Prod.mk.inj (Option.some.inj (Except.ok.inj h))
    exact ⟨a, rfl, rfl⟩

/-- A repetition always matches. -/
theorem starFuel_ne_none {p : Reads ε τ α} (n : ℕ) (t : List τ) : starFuel p n t ≠ .ok none := by
  induction n generalizing t with
  | zero => exact fun h ↦ by cases h
  | succ n ih =>
    rw [starFuel]
    rcases p t with e | - | ⟨a, r⟩
    · exact fun h ↦ by cases h
    · exact fun h ↦ by cases h
    · show map (a :: ·) (starFuel p n) r ≠ .ok none
      intro h
      rw [map] at h
      rcases hrest : starFuel p n r with e | - | ⟨as, u⟩
      · rw [hrest] at h
        cases h
      · exact ih r hrest
      · rw [hrest] at h
        cases h

theorem star_ne_none {p : Reads ε τ α} (t : List τ) : star p t ≠ .ok none := starFuel_ne_none _ t

theorem opt_ne_none {p : Reads ε τ α} (t : List τ) : opt p t ≠ .ok none := by
  rw [opt]
  rcases p t with e | - | ⟨a, r⟩
  · exact fun h ↦ by cases h
  · exact fun h ↦ by cases h
  · exact fun h ↦ by cases h

theorem orThrow_ne_none {p : Reads ε τ α} {e : ε} (t : List τ) : orThrow p e t ≠ .ok none := by
  rw [orThrow]
  rcases p t with e | - | ⟨a, r⟩
  · exact fun h ↦ by cases h
  · exact fun h ↦ by cases h
  · exact fun h ↦ by cases h

end Reads

/-! ### Actions and results -/

section Follows

variable {raise : δ → ε} {I J : σ → Prop}

/-- The program `p` does with the state what `q` says it read. -/
def Follows (raise : δ → ε) (I : σ → Prop) (F : σ → α → σ → Prop) (p : Scan ε σ τ)
    (q : Reads δ τ α) : Prop :=
  ∀ s t, I s → match q t with
    | .error d => p s t = .error (raise d)
    | .ok none => p s t = .ok (s, none)
    | .ok (some (a, r)) => ∃ s', p s t = .ok (s', some r) ∧ F s a s'

/-- The states that a sequence of results leads through. -/
inductive Iterates (F : σ → α → σ → Prop) : σ → List α → σ → Prop
  | nil (s : σ) : Iterates F s [] s
  | cons {s s' s'' : σ} {a : α} {as : List α} (head : F s a s') (tail : Iterates F s' as s'') :
      Iterates F s (a :: as) s''

theorem Follows.of_error {F : σ → α → σ → Prop} {p : Scan ε σ τ} {q : Reads δ τ α}
    (h : Follows raise I F p q) {s : σ} (hs : I s) {t : List τ} {d : δ} (hq : q t = .error d) :
    p s t = .error (raise d) := by
  have := h s t hs
  rwa [hq] at this

theorem Follows.of_none {F : σ → α → σ → Prop} {p : Scan ε σ τ} {q : Reads δ τ α}
    (h : Follows raise I F p q) {s : σ} (hs : I s) {t : List τ} (hq : q t = .ok none) :
    p s t = .ok (s, none) := by
  have := h s t hs
  rwa [hq] at this

theorem Follows.of_some {F : σ → α → σ → Prop} {p : Scan ε σ τ} {q : Reads δ τ α}
    (h : Follows raise I F p q) {s : σ} (hs : I s) {t r : List τ} {a : α}
    (hq : q t = .ok (some (a, r))) : ∃ s', p s t = .ok (s', some r) ∧ F s a s' := by
  have := h s t hs
  rwa [hq] at this

/-- A token, with an action that succeeds. -/
theorem follows_token {F : σ → α → σ → Prop} {f : σ → α → Except ε σ} (p : Peg τ α)
    (hf : ∀ s t a r, I s → p t = some (a, r) → ∃ s', f s a = .ok s' ∧ F s a s') :
    Follows raise I F (Scan.token p f) (Reads.token p) := by
  intro s t hs
  rw [Reads.token, Scan.token]
  rcases hp : p t with - | ⟨a, r⟩
  · rfl
  · obtain ⟨s', hs', hF⟩ := hf s t a r hs hp
    exact ⟨s', by simp only [hs'], hF⟩

theorem Follows.map {F : σ → α → σ → Prop} {G : σ → β → σ → Prop} {f : α → β} {p : Scan ε σ τ}
    {q : Reads δ τ α} (h : Follows raise I F p q) (hG : ∀ s a s', I s → F s a s' → G s (f a) s') :
    Follows raise I G p (Reads.map f q) := by
  intro s t hs
  rw [Reads.map]
  rcases hq : q t with d | - | ⟨a, r⟩
  · exact h.of_error hs hq
  · exact h.of_none hs hq
  · obtain ⟨s', hp, hF⟩ := h.of_some hs hq
    exact ⟨s', hp, hG s a s' hs hF⟩

theorem Follows.mono {F G : σ → α → σ → Prop} {p : Scan ε σ τ} {q : Reads δ τ α}
    (h : Follows raise I F p q) (hI : ∀ s, J s → I s)
    (hG : ∀ s a s', J s → F s a s' → G s a s') : Follows raise J G p q := by
  intro s t hs
  rcases hq : q t with d | - | ⟨a, r⟩
  · exact h.of_error (hI s hs) hq
  · exact h.of_none (hI s hs) hq
  · obtain ⟨s', hp, hF⟩ := h.of_some (hI s hs) hq
    exact ⟨s', hp, hG s a s' hs hF⟩

/-- A sequence. Its second part always matches, or its first part does nothing: otherwise the state
would not be as it was where the sequence does not match. -/
theorem Follows.seq {F : σ → α → σ → Prop} {G : σ → β → σ → Prop} {p p' : Scan ε σ τ}
    {q : Reads δ τ α} {q' : Reads δ τ β} (h : Follows raise I F p q) (h' : Follows raise J G p' q')
    (hJ : ∀ s a s', I s → F s a s' → J s')
    (hmatch : (∀ t, q' t ≠ .ok none) ∨ ∀ s a s', F s a s' → s' = s) :
    Follows raise I (fun s x s'' ↦ ∃ s', F s x.1 s' ∧ G s' x.2 s'') (Scan.seq p p')
      (Reads.seq q q') := by
  intro s t hs
  rw [Reads.seq, Scan.seq]
  rcases hq : q t with d | - | ⟨a, r⟩
  · rw [h.of_error hs hq]
  · rw [h.of_none hs hq]
  · obtain ⟨s', hp, hF⟩ := h.of_some hs hq
    have hs' := hJ s a s' hs hF
    rw [hp]
    simp only [Reads.map]
    rcases hq' : q' r with d | - | ⟨b, u⟩
    · exact h'.of_error hs' hq'
    · rcases hmatch with htotal | hsame
      · exact absurd hq' (htotal r)
      · obtain rfl := hsame s a s' hF
        exact h'.of_none hs' hq'
    · obtain ⟨s'', hp', hG⟩ := h'.of_some hs' hq'
      exact ⟨s'', hp', s', hF, hG⟩

theorem Follows.alt {F : σ → α → σ → Prop} {p p' : Scan ε σ τ} {q q' : Reads δ τ α}
    (h : Follows raise I F p q) (h' : Follows raise I F p' q') :
    Follows raise I F (Scan.alt p p') (Reads.alt q q') := by
  intro s t hs
  rw [Reads.alt, Scan.alt]
  rcases hq : q t with d | - | ⟨a, r⟩
  · rw [h.of_error hs hq]
  · rw [h.of_none hs hq]
    exact h' s t hs
  · obtain ⟨s', hp, hF⟩ := h.of_some hs hq
    rw [hp]
    exact ⟨s', rfl, hF⟩

theorem Follows.opt {F : σ → α → σ → Prop} {p : Scan ε σ τ} {q : Reads δ τ α}
    (h : Follows raise I F p q) :
    Follows raise I (fun s x s' ↦ Iterates F s x.toList s') (Scan.opt p) (Reads.opt q) := by
  intro s t hs
  rw [Reads.opt, Scan.opt]
  rcases hq : q t with d | - | ⟨a, r⟩
  · rw [h.of_error hs hq]
  · rw [h.of_none hs hq]
    exact ⟨s, rfl, .nil s⟩
  · obtain ⟨s', hp, hF⟩ := h.of_some hs hq
    rw [hp]
    exact ⟨s', rfl, .cons hF (.nil s')⟩

theorem Follows.orThrow {F : σ → α → σ → Prop} {p : Scan ε σ τ} {q : Reads δ τ α}
    (h : Follows raise I F p q) (d : δ) :
    Follows raise I F (Scan.orThrow p (raise d)) (Reads.orThrow q d) := by
  intro s t hs
  rw [Reads.orThrow, Scan.orThrow]
  rcases hq : q t with d | - | ⟨a, r⟩
  · rw [h.of_error hs hq]
  · rw [h.of_none hs hq]
  · obtain ⟨s', hp, hF⟩ := h.of_some hs hq
    rw [hp]
    exact ⟨s', rfl, hF⟩

/-- **Repetition**, by induction on the fuel: every round keeps the invariant. -/
theorem Follows.star {F : σ → α → σ → Prop} {p : Scan ε σ τ} {q : Reads δ τ α}
    (h : Follows raise I F p q) (hI : ∀ s a s', I s → F s a s' → I s') :
    Follows raise I (Iterates F) (Scan.star p) (Reads.star q) := by
  have key : ∀ n, Follows raise I (Iterates F) (Scan.starFuel p n) (Reads.starFuel q n) := by
    intro n
    induction n with
    | zero => exact fun s t _ ↦ ⟨s, rfl, .nil s⟩
    | succ n ih =>
      intro s t hs
      rw [Reads.starFuel, Scan.starFuel]
      rcases hq : q t with d | - | ⟨a, r⟩
      · rw [h.of_error hs hq]
      · rw [h.of_none hs hq]
        exact ⟨s, rfl, .nil s⟩
      · obtain ⟨s', hp, hF⟩ := h.of_some hs hq
        have hs' := hI s a s' hs hF
        rw [hp]
        simp only [Reads.map]
        rcases hrest : Reads.starFuel q n r with d | - | ⟨as, u⟩
        · exact ih.of_error hs' hrest
        · exact absurd hrest (Reads.starFuel_ne_none n r)
        · obtain ⟨s'', hp', hrun⟩ := ih.of_some hs' hrest
          exact ⟨s'', hp', .cons hF hrun⟩
  exact fun s t hs ↦ key t.length s t hs

end Follows

/-! ### What is accepted -/

namespace Reads

/-- What `q` consumed for a result `a` is described by `S a`. -/
def Sound (q : Reads ε τ α) (S : α → List τ → Prop) : Prop :=
  ∀ ⦃t a r⦄, q t = .ok (some (a, r)) → ∃ u, t = u ++ r ∧ S a u

variable {S : α → List τ → Prop} {T : β → List τ → Prop}

theorem Sound.map {q : Reads ε τ α} {f : α → β} (h : Sound q fun a u ↦ T (f a) u) :
    Sound (map f q) T := by
  intro t b r hq
  obtain ⟨a, ha, rfl⟩ := map_eq_some hq
  exact h ha

theorem Sound.mono {S' : α → List τ → Prop} {q : Reads ε τ α} (h : Sound q S)
    (hS : ∀ a u, S a u → S' a u) : Sound q S' := by
  intro t a r hq
  obtain ⟨u, ht, hu⟩ := h hq
  exact ⟨u, ht, hS a u hu⟩

theorem Sound.seq {p : Reads ε τ α} {q : Reads ε τ β} (hp : Sound p S) (hq : Sound q T) :
    Sound (seq p q) fun x u ↦ ∃ u₁ u₂, u = u₁ ++ u₂ ∧ S x.1 u₁ ∧ T x.2 u₂ := by
  intro t x r h
  rw [Reads.seq] at h
  rcases hpt : p t with e | - | ⟨a, r'⟩
  · rw [hpt] at h
    cases h
  · rw [hpt] at h
    cases h
  · rw [hpt] at h
    obtain ⟨b, hb, rfl⟩ := map_eq_some h
    obtain ⟨u₁, rfl, hu₁⟩ := hp hpt
    obtain ⟨u₂, rfl, hu₂⟩ := hq hb
    exact ⟨u₁ ++ u₂, (List.append_assoc _ _ _).symm, u₁, u₂, rfl, hu₁, hu₂⟩

theorem Sound.alt {p q : Reads ε τ α} (hp : Sound p S) (hq : Sound q S) : Sound (alt p q) S := by
  intro t a r h
  rw [Reads.alt] at h
  rcases hpt : p t with e | - | x
  · rw [hpt] at h
    cases h
  · rw [hpt] at h
    exact hq h
  · rw [hpt] at h
    obtain rfl := Option.some.inj (Except.ok.inj h)
    exact hp hpt

theorem Sound.opt {p : Reads ε τ α} (hp : Sound p S) :
    Sound (opt p) fun x u ↦ (x = none ∧ u = []) ∨ ∃ a, x = some a ∧ S a u := by
  intro t x r h
  rw [Reads.opt] at h
  rcases hpt : p t with e | - | ⟨a, r'⟩
  · rw [hpt] at h
    cases h
  · rw [hpt] at h
    obtain ⟨rfl, rfl⟩ := Prod.mk.inj (Option.some.inj (Except.ok.inj h))
    exact ⟨[], rfl, Or.inl ⟨rfl, rfl⟩⟩
  · rw [hpt] at h
    obtain ⟨rfl, rfl⟩ := Prod.mk.inj (Option.some.inj (Except.ok.inj h))
    obtain ⟨u, ht, hu⟩ := hp hpt
    exact ⟨u, ht, Or.inr ⟨a, rfl, hu⟩⟩

theorem Sound.orThrow {p : Reads ε τ α} (hp : Sound p S) (e : ε) : Sound (orThrow p e) S := by
  intro t a r h
  rw [Reads.orThrow] at h
  rcases hpt : p t with e | - | x
  · rw [hpt] at h
    cases h
  · rw [hpt] at h
    cases h
  · rw [hpt] at h
    obtain rfl := Option.some.inj (Except.ok.inj h)
    exact hp hpt

/-- **Repetition**: any description of lists that holds of the empty one and is kept by one more
element in front. -/
theorem Sound.star {p : Reads ε τ α} (hp : Sound p S) {L : List α → List τ → Prop}
    (hnil : L [] []) (hcons : ∀ a as u v, S a u → L as v → L (a :: as) (u ++ v)) :
    Sound (star p) L := by
  have key : ∀ n, Sound (starFuel p n) L := by
    intro n
    induction n with
    | zero =>
      intro t as r h
      obtain ⟨rfl, rfl⟩ := Prod.mk.inj (Option.some.inj (Except.ok.inj h))
      exact ⟨[], rfl, hnil⟩
    | succ n ih =>
      intro t as r h
      rw [starFuel] at h
      rcases hpt : p t with e | - | ⟨a, r'⟩
      · rw [hpt] at h
        cases h
      · rw [hpt] at h
        obtain ⟨rfl, rfl⟩ := Prod.mk.inj (Option.some.inj (Except.ok.inj h))
        exact ⟨[], rfl, hnil⟩
      · rw [hpt] at h
        obtain ⟨as', has, rfl⟩ := map_eq_some h
        obtain ⟨u, rfl, hu⟩ := hp hpt
        obtain ⟨v, rfl, hv⟩ := ih has
        exact ⟨u ++ v, (List.append_assoc _ _ _).symm, hcons a as' u v hu hv⟩
  exact fun t as r h ↦ key t.length h

end Reads
