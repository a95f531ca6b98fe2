import Mathlib.Data.List.Induction

/-!
# Runs

A machine whose step may not be possible, and its runs as lists of actions. Facts about a run that
mention what happened on the way are proved by `run_induction`, which hands the step the actions so
far; `Sometime` is what was true in one of the states of a run.

`run_append_eq_some_iff` cuts a run in two, and `run_concat_eq_some_iff` takes its last action off;
an invariant with no memory is the special case in which the actions so far are not mentioned.

What was true at some time is not lost when the run goes on (`Sometime.mono`), and the rest of the
run from there on is known, too (`Sometime.exists_run`). So a statement about the end of an
operation can be about the state in which it looked something up.

Nothing here depends on a particular program.
-/

namespace Runs

variable {σ α : Type*} (step : σ → α → Option σ)

/-- The state after a sequence of actions, if each was possible. -/
def run (s : σ) (as : List α) : Option σ := as.foldlM step s

variable {step} {s s₀ s' : σ} {as : List α}

@[simp] theorem run_nil : run step s [] = some s := rfl

theorem run_append_eq_some_iff {bs : List α} :
    run step s (as ++ bs) = some s' ↔ ∃ m, run step s as = some m ∧ run step m bs = some s' := by
  rw [run, List.foldlM_append, Option.bind_eq_bind, Option.bind_eq_some_iff]
  rfl

theorem run_concat_eq_some_iff {a : α} :
    run step s (as ++ [a]) = some s' ↔ ∃ m, run step s as = some m ∧ step m a = some s' := by
  have hone : ∀ m, run step m [a] = step m a := fun m ↦ by
    rw [run, List.foldlM_cons]
    exact bind_pure _
  rw [run_append_eq_some_iff]
  simp only [hone]

/-- **Induction over runs**, with the actions so far at hand. -/
theorem run_induction {P : List α → σ → Prop} (hnil : P [] s₀)
    (hstep : ∀ {as : List α} {a : α} {s s' : σ}, run step s₀ as = some s → P as s →
      step s a = some s' → P (as ++ [a]) s') :
    ∀ {as s}, run step s₀ as = some s → P as s := by
  intro as
  induction as using List.reverseRecOn with
  | nil =>
    intro s h
    exact Option.some.inj h ▸ hnil
  | append_singleton as a ih =>
    intro s h
    obtain ⟨m, hm, hs⟩ := run_concat_eq_some_iff.1 h
    exact hstep hm (ih hm) hs

variable (step s₀) in
/-- In one of the states of the run. -/
def Sometime (as : List α) (P : σ → Prop) : Prop :=
  ∃ before s, before <+: as ∧ run step s₀ before = some s ∧ P s

variable {P : σ → Prop}

theorem sometime_of_run (h : run step s₀ as = some s) (hs : P s) : Sometime step s₀ as P :=
  ⟨as, s, List.prefix_rfl, h, hs⟩

theorem Sometime.mono {bs : List α} (h : Sometime step s₀ as P) (hpre : as <+: bs) :
    Sometime step s₀ bs P := by
  obtain ⟨before, s, hbefore, hrun, hs⟩ := h
  exact ⟨before, s, hbefore.trans hpre, hrun, hs⟩

theorem Sometime.imp {Q : σ → Prop} (h : Sometime step s₀ as P)
    (himp : ∀ s before, run step s₀ before = some s → P s → Q s) : Sometime step s₀ as Q := by
  obtain ⟨before, s, hbefore, hrun, hs⟩ := h
  exact ⟨before, s, hbefore, hrun, himp s before hrun hs⟩

/-- From what was true on the way, the run goes on to its end. -/
theorem Sometime.exists_run (h : Sometime step s₀ as P) (hrun : run step s₀ as = some s) :
    Sometime step s₀ as fun m ↦ P m ∧ ∃ rest, run step m rest = some s := by
  obtain ⟨before, m, ⟨rest, rfl⟩, hm, hP⟩ := h
  obtain ⟨m', hm', hrest⟩ := run_append_eq_some_iff.1 hrun
  obtain rfl := Option.some.inj (hm.symm.trans hm')
  exact ⟨before, m, List.prefix_append before rest, hm, hP, rest, hrest⟩

end Runs
