import Mathlib.Data.List.Basic

/-!
# Machines that read a stream

A machine takes one element at a time and each time says yes, no, or that it needs more. `feed`
runs it over a list and stops at the first definite answer; `readAll` runs it over a stream that
arrives in pieces. `readAll_eq_some_iff` says that the pieces do not matter.

What a machine does is described state by state, by rules that take off the beginning of the input:
one element (`feed_cons_of_more`, `accepts_expect`), or a text up to a delimiter (`Collects`). The
rules for `feed` say how the run goes on behind a text of the right form, whatever the answer will
be; those for `Accepts` say in addition that no other text is accepted. The states of a loop are
indexed by the text it has collected, so the rule of the loop has no accumulator of its own. What
holds in every state before an answer is proved step by step (`invariant_of_feed`).

## Two kinds of rules

`feed` is about **some** text of a form: a run over it comes to a certain state. `Accepts` is about
**every** text: what is accepted has the form. A grammar for a machine needs both, and the second
kind gives the first by `accepts_of_feed`. That a machine gives one answer (`Accepts.unique`) makes
the reading of a text unique without an argument about the grammar.

Nothing here depends on a particular program.
-/

universe u v

/-- An answer: yes, no, or not yet. -/
inductive Tribool
  | tt
  | ff
  | indeterminate
deriving DecidableEq

namespace Machine

variable {σ : Type u} {α : Type v} (step : σ → α → Tribool × σ)

/-- Run to the first definite answer: the answer, the state, and the input that is left. -/
def feed : σ → List α → Tribool × σ × List α
  | s, [] => (.indeterminate, s, [])
  | s, a :: w =>
    match step s a with
    | (.indeterminate, s) => feed s w
    | (.tt, s) => (.tt, s, w)
    | (.ff, s) => (.ff, s, w)

/-- Run over pieces: the state of the machine when it says yes. -/
def readAll : σ → List (List α) → Option σ
  | _, [] => none
  | s, piece :: pieces =>
    match feed step s piece with
    | (.indeterminate, s, _) => readAll s pieces
    | (.tt, s, _) => some s
    | (.ff, _, _) => none

/-- From `s` the machine says yes in `s'`, with `rest` left of `w`. -/
def Accepts (s : σ) (w : List α) (s' : σ) (rest : List α) : Prop :=
  feed step s w = (.tt, s', rest)

variable {step} {s s₁ s' : σ} {a : α} {w rest : List α}

theorem accepts_of_feed (h : (feed step s w).1 = .tt) :
    Accepts step s w (feed step s w).2.1 (feed step s w).2.2 := Prod.ext h rfl

/-! ### One step -/

theorem not_accepts_nil : ¬Accepts step s [] s' rest := by
  rintro ⟨⟩

theorem feed_cons_of_more (h : step s a = (.indeterminate, s₁)) :
    feed step s (a :: w) = feed step s₁ w := by
  rw [feed, h]

theorem feed_cons_of_ff (h : step s a = (.ff, s₁)) : feed step s (a :: w) = (.ff, s₁, w) := by
  rw [feed, h]

theorem accepts_cons_of_more (h : step s a = (.indeterminate, s₁)) :
    Accepts step s (a :: w) s' rest ↔ Accepts step s₁ w s' rest := by
  rw [Accepts, feed_cons_of_more h]
  rfl

theorem accepts_cons_of_tt (h : step s a = (.tt, s₁)) :
    Accepts step s (a :: w) s' rest ↔ s' = s₁ ∧ rest = w := by
  rw [Accepts, feed, h]
  simp only [Prod.mk.injEq, true_and]
  exact and_congr eq_comm eq_comm

theorem not_accepts_cons_of_ff (h : (step s a).1 = .ff) : ¬Accepts step s (a :: w) s' rest := by
  intro hacc
  rcases hstep : step s a with ⟨r, s₁⟩
  rw [hstep] at h
  subst h
  rw [Accepts, feed, hstep] at hacc
  cases hacc

/-! ### Pieces -/

/-- A definite answer does not depend on what comes later, and without one the run goes on. -/
theorem feed_append (s : σ) (u w : List α) :
    feed step s (u ++ w) =
      match feed step s u with
      | (.indeterminate, s, _) => feed step s w
      | (.tt, s, rest) => (.tt, s, rest ++ w)
      | (.ff, s, rest) => (.ff, s, rest ++ w) := by
  induction u generalizing s with
  | nil => rfl
  | cons a u ih =>
    rw [List.cons_append, feed, feed]
    rcases step s a with ⟨_ | _ | _, s₁⟩
    · rfl
    · rfl
    · exact ih s₁

/-- **The division into pieces does not matter.** -/
theorem readAll_eq_some_iff {pieces : List (List α)} :
    readAll step s pieces = some s' ↔ ∃ rest, Accepts step s pieces.flatten s' rest := by
  induction pieces generalizing s with
  | nil => exact ⟨fun h ↦ (by cases h), fun ⟨_, h⟩ ↦ absurd h not_accepts_nil⟩
  | cons piece pieces ih =>
    rw [readAll, List.flatten_cons]
    simp only [Accepts, feed_append]
    rcases feed step s piece with ⟨_ | _ | _, s₁, rest⟩
    · simp
    · simp
    · exact ih

/-- The state and the rest are determined by the input. -/
theorem Accepts.unique {s'' : σ} {rest' : List α} (h : Accepts step s w s' rest)
    (h' : Accepts step s w s'' rest') : s' = s'' ∧ rest = rest' := by
  have heq := h.symm.trans h'
  simpa using heq

/-! ### Invariants -/

/-- **What every step keeps, a run keeps** as long as there is no answer. -/
theorem invariant_of_feed {I : σ → Prop}
    (hstep : ∀ {s a s₁}, I s → step s a = (.indeterminate, s₁) → I s₁) (hs : I s)
    (h : feed step s w = (.indeterminate, s', rest)) : I s' := by
  induction w generalizing s with
  | nil =>
    cases h
    exact hs
  | cons a w ih =>
    rcases hsa : step s a with ⟨_ | _ | _, s₁⟩
    · rw [feed, hsa] at h
      cases h
    · rw [feed, hsa] at h
      cases h
    · rw [feed_cons_of_more hsa] at h
      exact ih (hstep hs hsa) h

/-! ### Rules -/

/-- A state that expects one element. -/
theorem accepts_expect (c : α) (hc : step s c = (.indeterminate, s₁))
    (hne : ∀ a, a ≠ c → (step s a).1 = .ff) :
    Accepts step s w s' rest ↔ ∃ u, w = c :: u ∧ Accepts step s₁ u s' rest := by
  constructor
  · intro h
    rcases w with - | ⟨a, w⟩
    · exact absurd h not_accepts_nil
    · by_cases hac : a = c
      · subst hac
        exact ⟨w, rfl, (accepts_cons_of_more hc).1 h⟩
      · exact absurd h (not_accepts_cons_of_ff (hne a hac))
  · rintro ⟨u, rfl, h⟩
    exact (accepts_cons_of_more hc).2 h

/-- A loop that collects a text up to the delimiter `c`. `loop t` is its state with `t` collected,
and `next t` where it leaves with `t`. -/
structure Collects (step : σ → α → Tribool × σ) (loop next : List α → σ) (P : α → Prop) (c : α) :
    Prop where
  exit : ∀ t, step (loop t) c = (.indeterminate, next t)
  push : ∀ t a, a ≠ c → P a → step (loop t) a = (.indeterminate, loop (t ++ [a]))
  fail : ∀ t a, a ≠ c → ¬P a → (step (loop t) a).1 = .ff

section Collects

variable {loop next : List α → σ} {P : α → Prop} {c : α}

/-- Inside the loop. -/
theorem Collects.feed_append (h : Collects step loop next P c) {u : List α}
    (hu : ∀ a ∈ u, a ≠ c ∧ P a) (t v : List α) :
    feed step (loop t) (u ++ v) = feed step (loop (t ++ u)) v := by
  induction u generalizing t with
  | nil => rw [List.append_nil, List.nil_append]
  | cons a u ih =>
    obtain ⟨⟨hac, hP⟩, hu⟩ := List.forall_mem_cons.1 hu
    rw [List.cons_append, feed_cons_of_more (h.push t a hac hP), ih hu, List.append_assoc]
    rfl

theorem Collects.feed (h : Collects step loop next P c) {u : List α}
    (hu : ∀ a ∈ u, a ≠ c ∧ P a) (t v : List α) :
    feed step (loop t) (u ++ c :: v) = feed step (next (t ++ u)) v := by
  rw [h.feed_append hu, feed_cons_of_more (h.exit _)]

/-- **What a loop accepts.** -/
theorem Collects.accepts_iff (h : Collects step loop next P c) (t : List α) :
    Accepts step (loop t) w s' rest ↔
      ∃ u v, w = u ++ c :: v ∧ (∀ a ∈ u, a ≠ c ∧ P a) ∧ Accepts step (next (t ++ u)) v s' rest := by
  constructor
  · intro hw
    induction w generalizing t with
    | nil => exact absurd hw not_accepts_nil
    | cons a w ih =>
      by_cases hac : a = c
      · subst hac
        rw [accepts_cons_of_more (h.exit t)] at hw
        exact ⟨[], w, rfl, by simp, by rwa [List.append_nil]⟩
      · by_cases hP : P a
        · rw [accepts_cons_of_more (h.push t a hac hP)] at hw
          obtain ⟨u, v, rfl, hu, hv⟩ := ih (t ++ [a]) hw
          refine ⟨a :: u, v, rfl, ?_, by simpa using hv⟩
          simpa using ⟨⟨hac, hP⟩, hu⟩
        · exact absurd hw (not_accepts_cons_of_ff (h.fail t a hac hP))
  · rintro ⟨u, v, rfl, hu, hv⟩
    rw [Accepts, h.feed hu]
    exact hv

end Collects

/-- A loop that must collect something, with a first state of its own. -/
structure CollectsSome (step : σ → α → Tribool × σ) (s : σ) (loop next : List α → σ) (P : α → Prop)
    (c : α) : Prop extends Collects step loop next P c where
  delimiter : ¬P c
  first : ∀ a, P a → step s a = (.indeterminate, loop [a])
  none : ∀ a, ¬P a → (step s a).1 = .ff

section CollectsSome

variable {loop next : List α → σ} {P : α → Prop} {c : α}

/-- Inside the loop, with something collected. -/
theorem CollectsSome.feed_append (h : CollectsSome step s loop next P c) {u : List α} (hne : u ≠ [])
    (hu : ∀ a ∈ u, P a) (v : List α) :
    feed step s (u ++ v) = feed step (loop u) v := by
  obtain ⟨a, u, rfl⟩ := List.exists_cons_of_ne_nil hne
  obtain ⟨hP, hu⟩ := List.forall_mem_cons.1 hu
  have hu' : ∀ b ∈ u, b ≠ c ∧ P b := fun b hb ↦ ⟨fun hbc ↦ h.delimiter (hbc ▸ hu b hb), hu b hb⟩
  rw [List.cons_append, feed_cons_of_more (h.first a hP), h.toCollects.feed_append hu']
  rfl

theorem CollectsSome.feed (h : CollectsSome step s loop next P c) {u : List α} (hne : u ≠ [])
    (hu : ∀ a ∈ u, P a) (v : List α) :
    feed step s (u ++ c :: v) = feed step (next u) v := by
  rw [h.feed_append hne hu, feed_cons_of_more (h.exit _)]

theorem CollectsSome.accepts_iff (h : CollectsSome step s loop next P c) :
    Accepts step s w s' rest ↔
      ∃ u v, u ≠ [] ∧ (∀ a ∈ u, P a) ∧ w = u ++ c :: v ∧ Accepts step (next u) v s' rest := by
  constructor
  · intro hw
    rcases w with - | ⟨a, w⟩
    · exact absurd hw not_accepts_nil
    · by_cases hP : P a
      · rw [accepts_cons_of_more (h.first a hP), h.toCollects.accepts_iff] at hw
        obtain ⟨u, v, rfl, hu, hv⟩ := hw
        refine ⟨a :: u, v, by simp, ?_, rfl, hv⟩
        exact List.forall_mem_cons.2 ⟨hP, fun b hb ↦ (hu b hb).2⟩
      · exact absurd hw (not_accepts_cons_of_ff (h.none a hP))
  · rintro ⟨u, v, hne, hu, rfl, hv⟩
    rw [Accepts, h.feed hne hu]
    exact hv

end CollectsSome

end Machine
