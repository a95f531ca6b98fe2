import Mathlib.Data.List.Basic
import Mathlib.Data.List.Pairwise
import Mathlib.Order.Lattice
import Mathlib.Tactic.Linarith

/-!
# Paging through an ordered collection

A client reads a strictly increasing list page by page, by an **inclusive cursor**: a page is the
first `n + 1` elements that are not below the cursor; the first `n` of them are shown, and the last,
if there is one, is the cursor of the next request. The list may grow between requests, by elements
anywhere in the order.

`pages_spec` is what such a client is promised: what it is shown is strictly increasing, contains
everything that was there at the first request, and nothing that is not there at the last. If the
list stops growing the client comes to an end (`exists_pages`), and over a list that never changes
it needs exactly `max 1 ⌈len / n⌉` requests (`length_pages`).

## What the result rests on

* `bounded_getElem`: bounding by the element at a position leaves what stands from there on, so the
  cursor loses nothing and repeats nothing.
* `pages_last` and `pages_more` are the two ways a page can end. Both `pages_spec` and
  `exists_pages` are inductions that use them, and never look into a page.

That the cursor is inclusive matters: an element that is added right in front of it is not shown,
but the cursor itself always is. Nothing here depends on a particular program.
-/

universe u

namespace Paging

variable {κ : Type u} [LinearOrder κ]

/-! ### Bounded lists -/

/-- The elements that are not below the cursor. -/
def bounded : Option κ → List κ → List κ
  | none, l => l
  | some c, l => l.dropWhile (· < c)

/-- Not below the cursor. -/
def NotBelow (c : Option κ) (k : κ) : Prop := ∀ c' ∈ c, c' ≤ k

theorem bounded_suffix (c : Option κ) (l : List κ) : bounded c l <:+ l := by
  cases c with
  | none => exact List.suffix_rfl
  | some c => exact List.dropWhile_suffix _

theorem pairwise_bounded {l : List κ} (hl : l.Pairwise (· < ·)) (c : Option κ) :
    (bounded c l).Pairwise (· < ·) := hl.sublist (bounded_suffix c l).sublist

theorem mem_bounded_iff {l : List κ} (hl : l.Pairwise (· < ·)) {c : Option κ} {k : κ} :
    k ∈ bounded c l ↔ k ∈ l ∧ NotBelow c k := by
  cases c with
  | none => simp [bounded, NotBelow]
  | some c =>
    simp only [bounded, NotBelow, Option.mem_some_iff, forall_eq']
    induction l with
    | nil => simp
    | cons a l ih =>
      obtain ⟨ha, hl⟩ := List.pairwise_cons.1 hl
      by_cases hac : a < c
      · rw [List.dropWhile_cons_of_pos (by simpa using hac), ih hl, List.mem_cons]
        refine ⟨fun h ↦ ⟨Or.inr h.1, h.2⟩, fun h ↦ ⟨h.1.resolve_left fun hk ↦ ?_, h.2⟩⟩
        exact absurd hac (not_lt.2 (hk ▸ h.2))
      · rw [List.dropWhile_cons_of_neg (by simpa using hac)]
        refine ⟨fun h ↦ ⟨h, ?_⟩, And.left⟩
        rcases List.mem_cons.1 h with rfl | hk
        · exact not_lt.1 hac
        · exact le_trans (not_lt.1 hac) (le_of_lt (ha k hk))

/-- **The cursor cuts where it was taken.** Bounding by the element at a position leaves what stands
from that position on. -/
theorem bounded_getElem {l m : List κ} (hl : l.Pairwise (· < ·)) (hm : m <:+ l) {n : ℕ} {c : κ}
    (hc : m[n]? = some c) : bounded (some c) l = m.drop n := by
  obtain ⟨t, rfl⟩ := hm
  obtain ⟨hn, hcn⟩ := List.getElem?_eq_some_iff.1 hc
  have hsplit : t ++ m = (t ++ m.take n) ++ c :: m.drop (n + 1) := by
    rw [List.append_assoc, ← hcn, List.getElem_cons_drop, List.take_append_drop]
  have hbelow : ∀ k ∈ t ++ m.take n, decide (k < c) = true := by
    intro k hk
    rw [hsplit] at hl
    exact decide_eq_true ((List.pairwise_append.1 hl).2.2 k hk c List.mem_cons_self)
  rw [bounded, hsplit, List.dropWhile_append_of_pos hbelow,
    List.dropWhile_cons_of_neg (by simp), ← hcn, List.getElem_cons_drop]

/-! ### Pages -/

/-- One page: what is shown, and the next cursor. -/
def page (n : ℕ) (c : Option κ) (l : List κ) : List κ × Option κ :=
  ((bounded c l).take n, (bounded c l)[n]?)

/-- The cursor is the last of `n + 1` elements, if there are as many. -/
theorem getLast?_take {α : Type u} (m : List α) (n : ℕ) :
    (if (m.take (n + 1)).length > n then (m.take (n + 1)).getLast? else none) = m[n]? := by
  by_cases hn : n < m.length
  · have hlen : (m.take (n + 1)).length = n + 1 := by
      rw [List.length_take]
      omega
    rw [if_pos (by omega), List.getLast?_eq_getElem?, hlen, Nat.add_sub_cancel,
      List.getElem?_take_of_lt (Nat.lt_succ_self n)]
  · rw [if_neg (by rw [List.length_take]; omega), List.getElem?_eq_none (not_lt.1 hn)]

variable (n : ℕ) (l : ℕ → List κ)

/-- What a client is shown from request `i` on, where `l i` is the list at that request. -/
def pages : ℕ → ℕ → Option κ → Option (List (List κ))
  | 0, _, _ => none
  | fuel + 1, i, c =>
    match page n c (l i) with
    | (shown, some c') => (pages fuel (i + 1) (some c')).map (shown :: ·)
    | (shown, none) => some [shown]

variable {n l}

theorem pages_last {fuel i : ℕ} {c : Option κ} (h : (bounded c (l i))[n]? = none) :
    pages n l (fuel + 1) i c = some [(bounded c (l i)).take n] := by
  rw [pages, page, h]

theorem pages_more {fuel i : ℕ} {c : Option κ} {c' : κ} (h : (bounded c (l i))[n]? = some c') :
    pages n l (fuel + 1) i c =
      (pages n l fuel (i + 1) (some c')).map ((bounded c (l i)).take n :: ·) := by
  rw [pages, page, h]

theorem bounded_length_le {c : Option κ} {m : List κ} (h : (bounded c m)[n]? = none) :
    (bounded c m).take n = bounded c m :=
  List.take_of_length_le (List.getElem?_eq_none_iff.1 h)

/-- A page with a cursor, and what the cursor leaves for the next one. -/
theorem take_append_bounded {c : Option κ} {c' : κ} {m : List κ} (hm : m.Pairwise (· < ·))
    (hc : (bounded c m)[n]? = some c') :
    (bounded c m).take n ++ bounded (some c') m = bounded c m := by
  rw [bounded_getElem hm (bounded_suffix c m) hc, List.take_append_drop]

/-- What is on a page stands between its own cursor and the next one. -/
theorem mem_of_mem_page {c : Option κ} {c' k : κ} {m : List κ} (hm : m.Pairwise (· < ·))
    (hc : (bounded c m)[n]? = some c') (hk : k ∈ (bounded c m).take n) :
    k ∈ m ∧ NotBelow c k ∧ k < c' := by
  obtain ⟨hkm, hck⟩ := (mem_bounded_iff hm).1 (List.mem_of_mem_take hk)
  refine ⟨hkm, hck, ?_⟩
  have hpair := pairwise_bounded hm c
  rw [← take_append_bounded hm hc] at hpair
  have hc' : c' ∈ bounded (some c') m := by
    refine (mem_bounded_iff hm).2 ⟨(bounded_suffix c m).subset (List.mem_of_getElem? hc), ?_⟩
    intro d hd
    obtain rfl := Option.some.inj hd
    exact le_rfl
  exact (List.pairwise_append.1 hpair).2.2 k hk c' hc'

/-- **What a client is shown**, whatever is added in the meantime. -/
theorem pages_spec (hsorted : ∀ i, (l i).Pairwise (· < ·)) (hgrow : ∀ i, l i ⊆ l (i + 1)) :
    ∀ {fuel i : ℕ} {c : Option κ} {ps : List (List κ)}, pages n l fuel i c = some ps →
      ps ≠ [] ∧ ps.flatten.Pairwise (· < ·) ∧ (∀ k ∈ ps.flatten, NotBelow c k) ∧
        (∀ k ∈ l i, NotBelow c k → k ∈ ps.flatten) ∧
        ∀ k ∈ ps.flatten, k ∈ l (i + (ps.length - 1)) := by
  have hgrow' : ∀ i j, l i ⊆ l (i + j) := by
    intro i j
    induction j with
    | zero => exact List.Subset.refl _
    | succ j ih => exact List.Subset.trans ih (hgrow _)
  intro fuel
  induction fuel with
  | zero => exact fun h ↦ by cases h
  | succ fuel ih =>
    intro i c ps h
    rcases hc : (bounded c (l i))[n]? with - | c'
    · -- the last page shows all that is left
      rw [pages_last hc, bounded_length_le hc] at h
      obtain rfl := Option.some.inj h
      simp only [List.flatten_cons, List.flatten_nil, List.append_nil, List.length_singleton]
      refine ⟨by simp, pairwise_bounded (hsorted i) c, fun k hk ↦ ?_, fun k hk hck ↦ ?_,
        fun k hk ↦ ?_⟩
      · exact ((mem_bounded_iff (hsorted i)).1 hk).2
      · exact (mem_bounded_iff (hsorted i)).2 ⟨hk, hck⟩
      · exact (bounded_suffix c (l i)).subset hk
    · rw [pages_more hc] at h
      obtain ⟨rest, hrest, rfl⟩ := Option.map_eq_some_iff.1 h
      obtain ⟨hne, hpair, hlow, hall, hend⟩ := ih hrest
      have hsplit := take_append_bounded (hsorted i) hc
      have hc' : NotBelow c c' :=
        ((mem_bounded_iff (hsorted i)).1 (List.mem_of_getElem? hc)).2
      simp only [List.flatten_cons, List.length_cons, Nat.add_sub_cancel]
      refine ⟨by simp, ?_, fun k hk ↦ ?_, fun k hk hck ↦ ?_, fun k hk ↦ ?_⟩
      · refine List.pairwise_append.2 ⟨(pairwise_bounded (hsorted i) c).sublist
          (List.take_sublist _ _), hpair, fun a ha b hb ↦ ?_⟩
        exact lt_of_lt_of_le (mem_of_mem_page (hsorted i) hc ha).2.2 (hlow b hb c' rfl)
      · rcases List.mem_append.1 hk with hk | hk
        · exact (mem_of_mem_page (hsorted i) hc hk).2.1
        · exact fun d hd ↦ le_trans (hc' d hd) (hlow k hk c' rfl)
      · -- what is not shown now is not below the next cursor
        have hkb := (mem_bounded_iff (hsorted i)).2 ⟨hk, hck⟩
        rw [← hsplit] at hkb
        rcases List.mem_append.1 hkb with hk' | hk'
        · exact List.mem_append_left _ hk'
        · have hnot := ((mem_bounded_iff (hsorted i)).1 hk').2
          exact List.mem_append_right _ (hall k (hgrow i hk) hnot)
      · have hlen : 0 < rest.length := List.length_pos_of_ne_nil hne
        rw [show i + rest.length = i + 1 + (rest.length - 1) by omega]
        rcases List.mem_append.1 hk with hk | hk
        · exact hgrow' (i + 1) _ (hgrow i (mem_of_mem_page (hsorted i) hc hk).1)
        · exact hend k hk

/-- Over a list that does not change, the number of requests is known. -/
theorem length_pages (hn : 0 < n) {m : List κ} (hm : m.Pairwise (· < ·)) :
    ∀ {len i : ℕ} {c : Option κ}, (∀ j, i ≤ j → l j = m) → (bounded c m).length = len →
      ∀ fuel, len < fuel →
        ∃ ps, pages n l fuel i c = some ps ∧ ps.length = max 1 ((len + n - 1) / n) := by
  intro len
  induction len using Nat.strong_induction_on with
  | _ len ih =>
    intro i c hl hlen fuel hfuel
    obtain ⟨fuel, rfl⟩ : ∃ f, fuel = f + 1 := ⟨fuel - 1, by omega⟩
    have hli := hl i le_rfl
    rcases hc : (bounded c m)[n]? with - | c'
    · refine ⟨_, pages_last (by rw [hli, hc]), ?_⟩
      have hle : len ≤ n := hlen ▸ List.getElem?_eq_none_iff.1 hc
      have hdiv : (len + n - 1) / n ≤ 1 := by
        rw [Nat.div_le_iff_le_mul_add_pred hn]
        omega
      simp [hdiv]
    · have hlt : n < len := by
        obtain ⟨h, -⟩ := List.getElem?_eq_some_iff.1 hc
        omega
      have hnext : (bounded (some c') m).length = len - n := by
        rw [bounded_getElem hm (bounded_suffix c m) hc, List.length_drop, hlen]
      obtain ⟨ps, hps, hpslen⟩ := ih (len - n) (by omega) (i := i + 1) (c := some c')
        (fun j hj ↦ hl j (by omega)) hnext fuel (by omega)
      refine ⟨_, by rw [pages_more (by rw [hli, hc]), hps]; rfl, ?_⟩
      -- a page of `n` and what is left
      have hdiv : (len + n - 1) / n = (len - n + n - 1) / n + 1 := by
        rw [show len + n - 1 = (len - n + n - 1) + n by omega, Nat.add_div_right _ hn]
      have hone : 1 ≤ (len - n + n - 1) / n := by
        rw [Nat.le_div_iff_mul_le hn]
        omega
      rw [List.length_cons, hpslen, hdiv]
      omega

/-- A client of a list that stops growing comes to an end. -/
theorem exists_pages (hn : 0 < n) (hsorted : ∀ i, (l i).Pairwise (· < ·)) {N : ℕ}
    (hconst : ∀ i, N ≤ i → l i = l N) : ∀ (i : ℕ) (c : Option κ),
      ∃ fuel ps, pages n l fuel i c = some ps := by
  have hlate : ∀ i, N ≤ i → ∀ c, ∃ fuel ps, pages n l fuel i c = some ps := by
    intro i hi c
    obtain ⟨ps, hps, -⟩ := length_pages hn (hsorted N) (i := i) (c := c)
      (fun j hj ↦ hconst j (by omega)) rfl _ (Nat.lt_succ_self _)
    exact ⟨_, ps, hps⟩
  -- before that, by induction on the requests still to come
  have key : ∀ d i c, N - i = d → ∃ fuel ps, pages n l fuel i c = some ps := by
    intro d
    induction d with
    | zero => exact fun i c hd ↦ hlate i (by omega) c
    | succ d ih =>
      intro i c hd
      rcases hc : (bounded c (l i))[n]? with - | c'
      · exact ⟨1, _, pages_last hc⟩
      · obtain ⟨fuel, ps, hps⟩ := ih (i + 1) (some c') (by omega)
        exact ⟨fuel + 1, _, by rw [pages_more hc, hps]; rfl⟩
  exact fun i c ↦ key _ i c rfl

end Paging
