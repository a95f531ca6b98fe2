import Mathlib.Data.List.Induction
import Mathlib.Data.Set.Lattice
import Mathlib.Logic.Function.Basic

/-!
# Gossip

Nodes that each hold a set, and flows between them: one node hands another what it holds and a
filter lets through. Whatever the order, nothing is lost and nothing made up (`subset_flows`,
`flows_subset`), and an element comes along every walk whose hops the rounds repeat
(`mem_flows_flatten`).

The filter belongs to the flow, so that a channel may refuse some elements for good; a hop of an
element is a flow whose filter lets it through. `Within` counts the hops. The rounds may hold other
flows as well, and may go through their own in any order: a round has each hop at least once, and
what was carried before it is not lost.

Nothing here depends on a particular program.
-/

namespace Gossip

variable {ι α : Type*}

/-- One node hands another what a filter lets through. -/
structure Flow (ι α : Type*) where
  source : ι
  target : ι
  filter : Set α

section

variable [DecidableEq ι]

/-- What the nodes hold after a flow. -/
def flow (K : ι → Set α) (f : Flow ι α) : ι → Set α :=
  Function.update K f.target (K f.target ∪ K f.source ∩ f.filter)

/-- What the nodes hold after several flows. -/
def flows (K : ι → Set α) (fs : List (Flow ι α)) : ι → Set α := fs.foldl flow K

variable {K : ι → Set α} {f : Flow ι α} {fs : List (Flow ι α)} {i : ι} {x : α}

theorem flow_target (K : ι → Set α) (f : Flow ι α) :
    flow K f f.target = K f.target ∪ K f.source ∩ f.filter := Function.update_self _ _ _

theorem flow_of_ne (h : i ≠ f.target) : flow K f i = K i := Function.update_of_ne h _ _

theorem flows_append (fs gs : List (Flow ι α)) : flows K (fs ++ gs) = flows (flows K fs) gs :=
  List.foldl_append

/-- **Nothing is lost.** -/
theorem subset_flows (fs : List (Flow ι α)) (K : ι → Set α) (i : ι) : K i ⊆ flows K fs i := by
  induction fs generalizing K with
  | nil => exact subset_rfl
  | cons f fs ih =>
    refine Set.Subset.trans ?_ (ih (flow K f))
    rcases eq_or_ne i f.target with rfl | hne
    · rw [flow_target]
      exact Set.subset_union_left
    · rw [flow_of_ne hne]

/-- **Nothing is made up.** -/
theorem flows_subset (fs : List (Flow ι α)) {K : ι → Set α} {U : Set α} (hK : ∀ i, K i ⊆ U)
    (i : ι) : flows K fs i ⊆ U := by
  induction fs generalizing K with
  | nil => exact hK i
  | cons f fs ih =>
    refine ih fun j ↦ ?_
    rcases eq_or_ne j f.target with rfl | hne
    · rw [flow_target]
      exact Set.union_subset (hK _) (Set.inter_subset_left.trans (hK _))
    · rw [flow_of_ne hne]
      exact hK j

/-- What a flow lets through arrives, whatever happens before and after it. -/
theorem mem_flows (hf : f ∈ fs) (hx : x ∈ K f.source) (hfilter : x ∈ f.filter) :
    x ∈ flows K fs f.target := by
  obtain ⟨before, after, rfl⟩ := List.append_of_mem hf
  rw [flows_append]
  refine subset_flows after _ _ ?_
  rw [flow_target]
  exact Or.inr ⟨subset_flows before K _ hx, hfilter⟩

end

/-- One hop from a node to another is among the flows, and lets the element through. -/
def Hop (fs : List (Flow ι α)) (x : α) (i j : ι) : Prop :=
  ∃ f ∈ fs, f.source = i ∧ f.target = j ∧ x ∈ f.filter

/-- A walk of at most so many hops. -/
inductive Within (E : ι → ι → Prop) (i : ι) : ℕ → ι → Prop
  | here (n : ℕ) : Within E i n i
  | hop {n : ℕ} {j k : ι} (h : Within E i n j) (hop : E j k) : Within E i (n + 1) k

/-- **Rounds carry an element along a walk**, one hop a round, if each round has the flows of the
hops among its own, in any order. -/
theorem mem_flows_flatten [DecidableEq ι] {K : ι → Set α} {fs : List (Flow ι α)} {x : α} {i : ι}
    (hx : x ∈ K i) {rounds : List (List (Flow ι α))} (hrounds : ∀ r ∈ rounds, fs ⊆ r) {j : ι}
    (hwalk : Within (Hop fs x) i rounds.length j) : x ∈ flows K rounds.flatten j := by
  induction rounds using List.reverseRecOn generalizing j with
  | nil =>
    cases hwalk
    exact hx
  | append_singleton rounds r ih =>
    rw [List.flatten_append, List.flatten_singleton, flows_append]
    rw [List.length_append, List.length_singleton] at hwalk
    have hprev := fun r hr ↦ hrounds r (List.mem_append_left _ hr)
    cases hwalk with
    | here => exact subset_flows r _ _ (ih hprev (.here _))
    | hop h hop =>
      obtain ⟨f, hf, rfl, rfl, hfilter⟩ := hop
      exact mem_flows (hrounds r (by simp) hf) (ih hprev h) hfilter

end Gossip
