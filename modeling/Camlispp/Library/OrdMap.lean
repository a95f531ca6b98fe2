import Mathlib.Data.List.Basic
import Mathlib.Data.List.Pairwise
import Mathlib.Order.Lattice

/-!
# Ordered maps

`std::map` over a linearly ordered key type: the list of its entries in iteration order, with the
fact that the keys are **strictly increasing** as a field, so that a map with a repeated or
misplaced key cannot be built.

* `assign` is `m[k] = v`, which replaces the value of a key that is already there;
* `insert` is `m.insert({k, v})`, which keeps it;
* `collect` inserts the pairs of a list, so that the first value for a key is kept;
* `lowerBound` is the iteration from `m.lower_bound(k)` to `m.end()`.

Each operation is characterized by what `find` returns afterwards (`find_assign`, `find_insert`)
or by which keys it passes over (`keys_lowerBound`), and later proofs use only these.

Two maps with the same lookups are the same (`ext_find`), so that an equation between maps is proved
by looking up. The list of the entries is used only where their order is the point: in
`keys_lowerBound`, and where a map is listed.

Nothing here depends on a particular program.
-/

universe u v

/-- An ordered map: its entries, in strictly increasing order of the keys. -/
structure OrdMap (κ : Type u) (ν : Type v) [LinearOrder κ] where
  /-- The entries, in iteration order. -/
  entries : List (κ × ν)
  /-- The keys are strictly increasing. -/
  sorted : entries.Pairwise fun a b ↦ a.1 < b.1

namespace OrdMap

variable {κ : Type u} {ν : Type v} [LinearOrder κ]

instance [DecidableEq ν] : DecidableEq (OrdMap κ ν) := fun m m' ↦
  decidable_of_iff (m.entries = m'.entries) (by cases m; cases m'; simp)

/-! ### The operations -/

/-- The map without entries. -/
def empty : OrdMap κ ν := ⟨[], List.Pairwise.nil⟩

/-- The keys, in iteration order. -/
def keys (m : OrdMap κ ν) : List κ := m.entries.map Prod.fst

/-- The value stored under a key. -/
def find (m : OrdMap κ ν) (k : κ) : Option ν := (m.entries.find? fun e ↦ e.1 = k).map Prod.snd

/-- Sorted insertion; `f old new` says what becomes of a key that is already there. -/
def upsert (f : ν → ν → ν) (k : κ) (x : ν) : List (κ × ν) → List (κ × ν)
  | [] => [(k, x)]
  | (k', x') :: es =>
    if k < k' then (k, x) :: (k', x') :: es
    else if k = k' then (k, f x' x) :: es
    else (k', x') :: upsert f k x es

theorem fst_mem_of_mem_upsert {f : ν → ν → ν} {k : κ} {x : ν} {es : List (κ × ν)} {e : κ × ν}
    (h : e ∈ upsert f k x es) : e.1 = k ∨ e ∈ es := by
  induction es with
  | nil => exact Or.inl (by simp_all [upsert])
  | cons e' es ih =>
    obtain ⟨k', x'⟩ := e'
    rw [upsert] at h
    split_ifs at h with h₁ h₂
    · rcases List.mem_cons.1 h with rfl | h'
      · exact Or.inl rfl
      · exact Or.inr h'
    · rcases List.mem_cons.1 h with rfl | h'
      · exact Or.inl rfl
      · exact Or.inr (List.mem_cons_of_mem _ h')
    · rcases List.mem_cons.1 h with rfl | h'
      · exact Or.inr List.mem_cons_self
      · exact (ih h').imp_right (List.mem_cons_of_mem _)

theorem sorted_upsert (f : ν → ν → ν) (k : κ) (x : ν) {es : List (κ × ν)}
    (h : es.Pairwise fun a b ↦ a.1 < b.1) :
    (upsert f k x es).Pairwise fun a b ↦ a.1 < b.1 := by
  induction es with
  | nil => exact List.pairwise_singleton _ _
  | cons e es ih =>
    obtain ⟨k', x'⟩ := e
    obtain ⟨hhead, htail⟩ := List.pairwise_cons.1 h
    rw [upsert]
    split_ifs with h₁ h₂
    · refine List.pairwise_cons.2 ⟨fun a ha ↦ ?_, h⟩
      rcases List.mem_cons.1 ha with rfl | ha'
      · exact h₁
      · exact lt_trans h₁ (hhead a ha')
    · subst h₂
      exact List.pairwise_cons.2 ⟨hhead, htail⟩
    · refine List.pairwise_cons.2 ⟨fun a ha ↦ ?_, ih htail⟩
      rcases fst_mem_of_mem_upsert ha with hk | ha'
      · exact hk ▸ lt_of_le_of_ne (not_lt.1 h₁) (Ne.symm h₂)
      · exact hhead a ha'

/-- `m[k] = x`. -/
def assign (m : OrdMap κ ν) (k : κ) (x : ν) : OrdMap κ ν :=
  ⟨upsert (fun _ new ↦ new) k x m.entries, sorted_upsert _ k x m.sorted⟩

/-- `m.insert({k, x})`: the first value inserted under a key stays. -/
def insert (m : OrdMap κ ν) (k : κ) (x : ν) : OrdMap κ ν :=
  ⟨upsert (fun old _ ↦ old) k x m.entries, sorted_upsert _ k x m.sorted⟩

/-- Pairs inserted one after the other into an empty map. -/
def collect (ps : List (κ × ν)) : OrdMap κ ν := ps.foldl (fun m p ↦ m.insert p.1 p.2) empty

/-- The entries from `m.lower_bound(k)` on. -/
def lowerBound (m : OrdMap κ ν) (k : κ) : List (κ × ν) := m.entries.dropWhile fun e ↦ e.1 < k

/-! ### Looking up -/

@[simp] theorem find_empty (k : κ) : (empty : OrdMap κ ν).find k = none := rfl

@[simp] theorem keys_empty : (empty : OrdMap κ ν).keys = [] := rfl

theorem pairwise_keys (m : OrdMap κ ν) : m.keys.Pairwise (· < ·) :=
  List.pairwise_map.2 m.sorted

/-- Two entries with one key are the same entry. -/
theorem eq_of_mem_of_fst_eq {es : List (κ × ν)} (hs : es.Pairwise fun a b ↦ a.1 < b.1)
    {e e' : κ × ν} (h : e ∈ es) (h' : e' ∈ es) (hk : e.1 = e'.1) : e = e' := by
  have : Std.Symm fun a b : κ × ν ↦ a.1 ≠ b.1 := ⟨fun _ _ ↦ Ne.symm⟩
  have hdist : es.Pairwise fun a b ↦ a.1 ≠ b.1 := hs.imp fun hlt ↦ ne_of_lt hlt
  by_contra hne
  exact hdist.forall h h' hne hk

/-- **A lookup returns exactly the entry of its key.** -/
theorem find_eq_some_iff {m : OrdMap κ ν} {k : κ} {x : ν} :
    m.find k = some x ↔ (k, x) ∈ m.entries := by
  rw [find, Option.map_eq_some_iff]
  constructor
  · rintro ⟨e, he, rfl⟩
    have hk : e.1 = k := by simpa using List.find?_some he
    exact hk ▸ List.mem_of_find?_eq_some he
  · intro hmem
    rcases hf : m.entries.find? fun e ↦ e.1 = k with - | e
    · exact absurd (List.find?_eq_none.1 hf (k, x) hmem) (by simp)
    · have hk : e.1 = k := by simpa using List.find?_some hf
      have heq : e = (k, x) :=
        eq_of_mem_of_fst_eq m.sorted (List.mem_of_find?_eq_some hf) hmem hk
      exact ⟨e, hf, by rw [heq]⟩

theorem mem_keys_iff {m : OrdMap κ ν} {k : κ} : k ∈ m.keys ↔ ∃ x, m.find k = some x := by
  rw [keys, List.mem_map]
  constructor
  · rintro ⟨e, he, rfl⟩
    exact ⟨e.2, find_eq_some_iff.2 he⟩
  · rintro ⟨x, hx⟩
    exact ⟨(k, x), find_eq_some_iff.1 hx, rfl⟩

theorem find_eq_none_iff {m : OrdMap κ ν} {k : κ} : m.find k = none ↔ k ∉ m.keys := by
  rw [mem_keys_iff, not_exists, Option.eq_none_iff_forall_ne_some]

theorem isSome_find_iff {m : OrdMap κ ν} {k : κ} : (m.find k).isSome ↔ k ∈ m.keys := by
  rw [mem_keys_iff, Option.isSome_iff_exists]

/-! ### Storing -/

theorem find?_upsert_of_ne (f : ν → ν → ν) {k j : κ} (x : ν) (hj : j ≠ k) (es : List (κ × ν)) :
    (upsert f k x es).find? (fun e ↦ e.1 = j) = es.find? fun e ↦ e.1 = j := by
  induction es with
  | nil => simp [upsert, Ne.symm hj]
  | cons e es ih =>
    obtain ⟨k', x'⟩ := e
    rw [upsert]
    split_ifs with h₁ h₂
    · simp [Ne.symm hj]
    · simp [← h₂, Ne.symm hj]
    · by_cases hk : k' = j
      · simp [hk]
      · simp [hk, ih]

theorem find?_upsert_self (f : ν → ν → ν) (k : κ) (x : ν) {es : List (κ × ν)}
    (hs : es.Pairwise fun a b ↦ a.1 < b.1) :
    (upsert f k x es).find? (fun e ↦ e.1 = k) =
      some (k, ((es.find? fun e ↦ e.1 = k).map fun e ↦ f e.2 x).getD x) := by
  induction es with
  | nil => simp [upsert]
  | cons e es ih =>
    obtain ⟨k', x'⟩ := e
    obtain ⟨hhead, htail⟩ := List.pairwise_cons.1 hs
    rw [upsert]
    split_ifs with h₁ h₂
    · -- the new entry goes in front, and no later key can equal its own
      have hnone : ((k', x') :: es).find? (fun e ↦ e.1 = k) = none := by
        refine List.find?_eq_none.2 fun e he ↦ ?_
        rcases List.mem_cons.1 he with rfl | he'
        · simpa using ne_of_gt h₁
        · simpa using ne_of_gt (lt_trans h₁ (hhead e he'))
      simp [hnone]
    · simp [h₂]
    · have hk : ¬k' = k := fun h ↦ h₂ h.symm
      simpa [hk] using ih htail

theorem find_assign (m : OrdMap κ ν) (k j : κ) (x : ν) :
    (m.assign k x).find j = if j = k then some x else m.find j := by
  rw [find, assign]
  split_ifs with hj
  · rw [hj, find?_upsert_self _ k x m.sorted]
    cases m.entries.find? fun e ↦ e.1 = k <;> rfl
  · rw [find?_upsert_of_ne _ x hj, find]

theorem find_insert (m : OrdMap κ ν) (k j : κ) (x : ν) :
    (m.insert k x).find j = if j = k then some ((m.find k).getD x) else m.find j := by
  rw [find, insert]
  split_ifs with hj
  · rw [hj, find?_upsert_self _ k x m.sorted, find]
    cases m.entries.find? fun e ↦ e.1 = k <;> rfl
  · rw [find?_upsert_of_ne _ x hj, find]

@[simp] theorem mem_keys_assign {m : OrdMap κ ν} {k j : κ} {x : ν} :
    j ∈ (m.assign k x).keys ↔ j = k ∨ j ∈ m.keys := by
  rw [mem_keys_iff, mem_keys_iff]
  simp only [find_assign]
  by_cases hj : j = k <;> simp [hj]

/-! ### Collecting -/

/-- **The first pair with a key decides** what is collected under it. -/
theorem find_collect (ps : List (κ × ν)) (k : κ) :
    (collect ps).find k = (ps.find? fun p ↦ p.1 = k).map Prod.snd := by
  have key : ∀ (ps : List (κ × ν)) (m : OrdMap κ ν),
      (ps.foldl (fun m p ↦ m.insert p.1 p.2) m).find k =
        (m.find k).or ((ps.find? fun p ↦ p.1 = k).map Prod.snd) := by
    intro ps
    induction ps with
    | nil => intro m; simp
    | cons p ps ih =>
      intro m
      rw [List.foldl_cons, ih, find_insert]
      by_cases hk : p.1 = k
      · rcases hm : m.find k with - | x <;> simp [hk, hm]
      · simp [hk, Ne.symm hk]
  rw [collect, key]
  rfl

/-- A new key is inserted between the others. -/
theorem perm_upsert (f : ν → ν → ν) {k : κ} (x : ν) {es : List (κ × ν)}
    (hk : k ∉ es.map Prod.fst) : (upsert f k x es).Perm ((k, x) :: es) := by
  induction es with
  | nil => exact List.Perm.refl _
  | cons e es ih =>
    rw [List.map_cons, List.mem_cons, not_or] at hk
    rw [upsert, if_neg hk.1]
    split_ifs
    · exact List.Perm.refl _
    · exact ((ih hk.2).cons e).trans (List.Perm.swap _ _ _)

/-- **Pairs with different keys are all collected.** -/
theorem perm_entries_collect {ps : List (κ × ν)} (h : (ps.map Prod.fst).Nodup) :
    (collect ps).entries.Perm ps := by
  have key : ∀ (ps : List (κ × ν)) (m : OrdMap κ ν), (m.keys ++ ps.map Prod.fst).Nodup →
      (ps.foldl (fun m p ↦ m.insert p.1 p.2) m).entries.Perm (m.entries ++ ps) := by
    intro ps
    induction ps with
    | nil => intro m _; simp
    | cons p ps ih =>
      intro m hnd
      have hins : (m.insert p.1 p.2).entries.Perm (p :: m.entries) := by
        refine perm_upsert _ p.2 fun hmem ↦ ?_
        exact (List.nodup_append.1 hnd).2.2 p.1 hmem p.1 List.mem_cons_self rfl
      have hkeys : ((m.insert p.1 p.2).keys ++ ps.map Prod.fst).Perm
          (m.keys ++ (p :: ps).map Prod.fst) :=
        ((hins.map Prod.fst).append_right _).trans List.perm_middle.symm
      rw [List.foldl_cons]
      refine (ih _ (hkeys.nodup_iff.2 hnd)).trans ?_
      exact (hins.append_right ps).trans List.perm_middle.symm
  simpa [collect, empty] using key ps empty (by simpa using h)

/-! ### Counting -/

theorem nodup_keys (m : OrdMap κ ν) : m.keys.Nodup := m.pairwise_keys.imp ne_of_lt

/-- **Storing under a key** adds an entry exactly if the key is new. -/
theorem length_assign (m : OrdMap κ ν) (k : κ) (x : ν) :
    (m.assign k x).entries.length =
      if k ∈ m.keys then m.entries.length else m.entries.length + 1 := by
  split_ifs with hk
  · have hkeys : (m.assign k x).keys.Perm m.keys := by
      refine (List.perm_ext_iff_of_nodup (nodup_keys _) (nodup_keys _)).2 fun j ↦ ?_
      rw [mem_keys_assign, or_iff_right_of_imp]
      rintro rfl
      exact hk
    simpa [keys] using hkeys.length_eq
  · exact (perm_upsert _ x hk).length_eq

/-! ### Iterating from a key -/

theorem lowerBound_suffix (m : OrdMap κ ν) (k : κ) : m.lowerBound k <:+ m.entries :=
  List.dropWhile_suffix _

/-- **`lower_bound` passes over the keys below the bound.** -/
theorem keys_lowerBound (m : OrdMap κ ν) (k : κ) :
    (m.lowerBound k).map Prod.fst = m.keys.dropWhile (· < k) := by
  rw [lowerBound, keys, List.dropWhile_map]
  rfl

/-! ### Maps compared -/

/-- **A map is what its lookups return.** -/
theorem ext_find {m m' : OrdMap κ ν} (h : ∀ k, m.find k = m'.find k) : m = m' := by
  have hmem : ∀ e, e ∈ m.entries ↔ e ∈ m'.entries := by
    rintro ⟨k, x⟩
    rw [← find_eq_some_iff, ← find_eq_some_iff, h]
  have hnodup : ∀ m : OrdMap κ ν, m.entries.Nodup := fun m ↦
    m.sorted.imp fun hlt heq ↦ absurd (congrArg Prod.fst heq) (ne_of_lt hlt)
  have hperm := (List.perm_ext_iff_of_nodup (hnodup m) (hnodup m')).2 hmem
  have heq : m.entries = m'.entries :=
    hperm.eq_of_pairwise (fun _ _ _ _ hlt hgt ↦ absurd hgt (lt_asymm hlt)) m.sorted m'.sorted
  obtain ⟨es, hes⟩ := m
  obtain ⟨es', hes'⟩ := m'
  obtain rfl : es = es' := heq
  rfl

variable {μ : Type*}

/-- The map with its values replaced. -/
def mapValues (f : ν → μ) (m : OrdMap κ ν) : OrdMap κ μ :=
  ⟨m.entries.map fun e ↦ (e.1, f e.2), List.pairwise_map.2 m.sorted⟩

@[simp] theorem find_mapValues (f : ν → μ) (m : OrdMap κ ν) (k : κ) :
    (m.mapValues f).find k = (m.find k).map f := by
  rw [find, find, mapValues, List.find?_map, Option.map_map, Option.map_map]
  rfl

theorem lowerBound_mapValues (f : ν → μ) (m : OrdMap κ ν) (k : κ) :
    (m.mapValues f).lowerBound k = (m.lowerBound k).map fun e ↦ (e.1, f e.2) := by
  rw [lowerBound, lowerBound, mapValues, List.dropWhile_map]
  rfl

end OrdMap
