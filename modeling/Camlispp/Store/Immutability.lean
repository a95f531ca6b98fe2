import Camlispp.Store.ContentAddressing
import Mathlib.Logic.Function.Basic

/-!
# Reads under any interleaving

Threads share the store: an addition holds the mutex from its first line to its last, so it is one
step; answering a `GET` is two, a lookup under the mutex and, later, reading the file the record
points to without it. A `System` is the store with what each thread holds between its two steps and
a log of everything that was observed, and a run is any list of steps by any threads.

The invariant `Consistent` keeps, for each held record and each logged read, the content whose path
it is about. Records are replaced under their keys by later additions and contents are cut at their
first `NUL` before they are hashed, but neither touches the argument: a key determines the C string
of its contents, the C string determines the path, and the file at a path is written once. So
immutability holds even where content addressing does not.

## What the result rests on

* `Consistent.step` goes through the steps a thread can take. An addition extends what was stored
  (`Consistent.extend`); a lookup and a read only add to what is held and logged.
* `Names.path_unique`: a key has one path in the whole run. This is where collision-freeness is
  used, for the strings of this run and for no others.
* `immutable` then says three things of every run: no reference that was found is missed later,
  every read behind a successful lookup finds a file, and all reads of one reference bring the same
  bytes.

In the witness an addition that replaces the record comes between a lookup and its read.
-/

open Bytes

namespace Camlispp

variable (D : Digests) (cfg : Config)

/-! ### The interleaved system -/

/-- A step of some thread. -/
inductive Action
  /-- `add_blob`, by any thread. -/
  | add (call : AddCall)
  /-- The first half of `handle_get`: `BlobIndex::get`. -/
  | lookup (client : ℕ) (ref : Bytes)
  /-- The second half: reading the file of the record the client holds. -/
  | read (client : ℕ)

/-- What a step lets its thread see. -/
inductive Observation
  | looked (ref : Bytes) (found : Option Blob)
  | readFile (ref : Bytes) (content : Option Bytes)

/-- The shared store, what each client holds between lookup and read, and the observations so far,
oldest first. -/
structure System where
  store : Store
  held : ℕ → Option (Bytes × Blob)
  log : List Observation

/-- An empty index over an empty directory, and no request under way. -/
def System.init : System := ⟨.empty, fun _ ↦ none, []⟩

/-- One step. A client that holds no record has answered `404` and reads nothing. -/
def System.step (s : System) : Action → Except Fault System
  | .add c => do
    let (_, st) ← addBlob D cfg s.store c.providedHash c.bytes
    return { s with store := st }
  | .lookup i r =>
    let found := s.store.get r
    .ok { s with
      held := Function.update s.held i (found.map (r, ·))
      log := s.log ++ [.looked r found] }
  | .read i =>
    match s.held i with
    | none => .ok s
    | some (r, b) => .ok { s with
        held := Function.update s.held i none
        log := s.log ++ [.readFile r (s.store.files.find b.filePath)] }

/-- A run. -/
def System.run (s : System) : List Action → Except Fault System
  | [] => .ok s
  | a :: as => do
    let s ← s.step D cfg a
    s.run as

/-! ### The invariant -/

/-- The path is that of a stored content which `r` names. -/
def Names (past : List Bytes) (r path : Bytes) : Prop :=
  ∃ k, createBlobKey r = some k ∧ ∃ x ∈ past, k ∈ blobKeys D x ∧ path = pathOf D cfg x

/-- The second of two observations does not lose what the first found. -/
def Observation.NotLost : Observation → Observation → Prop
  | .looked r (some _), .looked r' none => r ≠ r'
  | _, _ => True

/-- What holds between any two steps. -/
structure Consistent (s : System) (past : List Bytes) : Prop where
  recorded : Recorded D cfg s.store past
  /-- A held record points to the path of a stored content. -/
  held : ∀ {i r b}, s.held i = some (r, b) → Names D cfg past r b.filePath
  /-- Whatever was found is still there. -/
  found : ∀ {r b}, .looked r (some b) ∈ s.log → (s.store.get r).isSome
  /-- Nothing that was found was missed later. -/
  notLost : s.log.Pairwise Observation.NotLost
  /-- A logged read is what the file still holds. -/
  read : ∀ {r o}, .readFile r o ∈ s.log →
    ∃ p y, Names D cfg past r p ∧ s.store.files.find p = some y ∧ o = some y

variable {D cfg} {s s' : System} {past past' : List Bytes}

theorem Names.mono {r p : Bytes} (h : Names D cfg past r p) (hsub : past ⊆ past') :
    Names D cfg past' r p := by
  obtain ⟨k, hk, x, hx, hkx, hp⟩ := h
  exact ⟨k, hk, x, hsub hx, hkx, hp⟩

/-- The record a lookup returns points to the path of a content the reference names. -/
theorem Recorded.names_of_get {st : Store} (h : Recorded D cfg st past) {r : Bytes} {b : Blob}
    (hb : st.get r = some b) : Names D cfg past r b.filePath := by
  rw [Store.get] at hb
  rcases hk : createBlobKey r with - | k
  · rw [hk] at hb
    cases hb
  · rw [hk] at hb
    obtain ⟨x, hx, hkx, addr, rfl⟩ := h.entry hb
    exact ⟨k, hk, x, hx, hkx, filePath_recordOf addr x⟩

/-- What a client holds after an update is the new value or what it held before. -/
theorem held_of_update {held : ℕ → Option (Bytes × Blob)} {i j : ℕ} {v : Option (Bytes × Blob)}
    {x : Bytes × Blob} (h : Function.update held i v j = some x) :
    v = some x ∨ held j = some x := by
  by_cases hj : j = i
  · subst hj
    exact Or.inl (by rwa [Function.update_self] at h)
  · exact Or.inr (by rwa [Function.update_of_ne hj] at h)

theorem consistent_init : Consistent D cfg .init [] where
  recorded := recorded_empty
  held h := by cases h
  found h := by cases h
  notLost := List.Pairwise.nil
  read h := by cases h

/-- The store may grow under a consistent system. -/
theorem Consistent.extend (h : Consistent D cfg s past) {st : Store}
    (hext : s.store.Extends st) (hrec : Recorded D cfg st past') (hsub : past ⊆ past') :
    Consistent D cfg { s with store := st } past' where
  recorded := hrec
  held hb := (h.held hb).mono hsub
  found hb := hext.isSome_get (h.found hb)
  notLost := h.notLost
  read hr := by
    obtain ⟨p, y, hn, hy, ho⟩ := h.read hr
    exact ⟨p, y, hn.mono hsub, hext.files hy, ho⟩

theorem Consistent.lookup (h : Consistent D cfg s past) (i : ℕ) (r : Bytes)
    (hs : s.step D cfg (.lookup i r) = .ok s') : Consistent D cfg s' past := by
  obtain rfl := Except.ok.inj hs
  refine ⟨h.recorded, ?_, ?_, ?_, ?_⟩
  · intro j r' b hb
    rcases held_of_update hb with hnew | hold
    · obtain ⟨b', hb', heq⟩ := Option.map_eq_some_iff.1 hnew
      obtain ⟨rfl, rfl⟩ := Prod.mk.inj heq
      exact h.recorded.names_of_get hb'
    · exact h.held hold
  · intro r' b hb
    rcases List.mem_append.1 hb with hb' | hb'
    · exact h.found hb'
    · obtain ⟨rfl, hfound⟩ := Observation.looked.inj (List.mem_singleton.1 hb')
      rw [← hfound]
      rfl
  · refine List.pairwise_append.2 ⟨h.notLost, List.pairwise_singleton _ _, ?_⟩
    intro o ho o' ho'
    obtain rfl := List.mem_singleton.1 ho'
    rcases o with ⟨r', - | b⟩ | ⟨r', c⟩
    · trivial
    · rcases hg : s.store.get r with - | b'
      · -- a lookup that misses is about another reference than any that was found
        rintro rfl
        have := h.found ho
        rw [hg] at this
        exact absurd this (by simp)
      · trivial
    · trivial
  · intro r' o ho
    rcases List.mem_append.1 ho with ho' | ho'
    · exact h.read ho'
    · cases List.mem_singleton.1 ho'

theorem Consistent.read_step (h : Consistent D cfg s past) (i : ℕ)
    (hs : s.step D cfg (.read i) = .ok s') : Consistent D cfg s' past := by
  rw [System.step] at hs
  rcases hh : s.held i with - | ⟨r, b⟩
  · rw [hh] at hs
    obtain rfl := Except.ok.inj hs
    exact h
  · rw [hh] at hs
    obtain rfl := Except.ok.inj hs
    -- the record that is read was looked up before, so its path names a stored content
    have hname := h.held hh
    refine ⟨h.recorded, ?_, ?_, ?_, ?_⟩
    · intro j r' b' hb
      rcases held_of_update hb with hnew | hold
      · cases hnew
      · exact h.held hold
    · intro r' b' hb
      rcases List.mem_append.1 hb with hb' | hb'
      · exact h.found hb'
      · cases List.mem_singleton.1 hb'
    · refine List.pairwise_append.2 ⟨h.notLost, List.pairwise_singleton _ _, ?_⟩
      intro o ho o' ho'
      obtain rfl := List.mem_singleton.1 ho'
      rcases o with ⟨r', - | b'⟩ | ⟨r', c⟩ <;> trivial
    · intro r' o ho
      rcases List.mem_append.1 ho with ho' | ho'
      · exact h.read ho'
      · obtain ⟨rfl, rfl⟩ := Observation.readFile.inj (List.mem_singleton.1 ho')
        obtain ⟨k, hk, x, hx, hkx, hp⟩ := hname
        obtain ⟨y, hy⟩ := h.recorded.files x hx
        rw [← hp] at hy
        exact ⟨b.filePath, y, ⟨k, hk, x, hx, hkx, hp⟩, hy, hy⟩

/-- The contents a step stores. -/
def Action.stores (D : Digests) (x : Bytes) : Action → Prop
  | .add c => c.Accepted D ∧ c.bytes = x
  | _ => False

/-- **One step** keeps the invariant; the past grows by what the step stores. -/
theorem Consistent.step (h : Consistent D cfg s past) {a : Action}
    (hs : s.step D cfg a = .ok s') :
    ∃ past', Consistent D cfg s' past' ∧ ∀ x, x ∈ past' ↔ x ∈ past ∨ a.stores D x := by
  cases a with
  | add c =>
    rw [System.step] at hs
    rcases hadd : addBlob D cfg s.store c.providedHash c.bytes with e | r
    · rw [hadd] at hs
      cases hs
    · rw [hadd] at hs
      obtain rfl := Except.ok.inj hs
      rcases (h.recorded.addBlob hadd).2 with ⟨hacc, hrec⟩ | ⟨hacc, hrec⟩
      · refine ⟨_, h.extend (.addBlob hadd) hrec (List.subset_cons_self _ _), fun x ↦ ?_⟩
        simp [Action.stores, hacc, or_comm, eq_comm]
      · refine ⟨_, h.extend (.addBlob hadd) hrec (List.Subset.refl _), fun x ↦ ?_⟩
        simp [Action.stores, hacc]
  | lookup i r => exact ⟨past, h.lookup i r hs, by simp [Action.stores]⟩
  | read i => exact ⟨past, h.read_step i hs, by simp [Action.stores]⟩

/-- **Every run**, by induction on its steps. -/
theorem Consistent.run {as : List Action} (h : Consistent D cfg s past)
    (hrun : s.run D cfg as = .ok s') :
    ∃ past', Consistent D cfg s' past' ∧ ∀ x, x ∈ past' ↔ x ∈ past ∨ ∃ a ∈ as, a.stores D x := by
  induction as generalizing s past with
  | nil =>
    obtain rfl := Except.ok.inj hrun
    exact ⟨past, h, by simp⟩
  | cons a as ih =>
    rw [System.run] at hrun
    rcases hs : s.step D cfg a with e | t
    · rw [hs] at hrun
      cases hrun
    · rw [hs] at hrun
      obtain ⟨past₁, h₁, hmem₁⟩ := h.step hs
      obtain ⟨past', h', hmem'⟩ := ih h₁ hrun
      refine ⟨past', h', fun x ↦ ?_⟩
      rw [hmem', hmem₁, List.exists_mem_cons_iff, or_assoc]

/-- A run that adds only non-empty contents goes through to its end. -/
theorem exists_run_eq_ok (D : Digests) (cfg : Config) {as : List Action}
    (hne : ∀ c, .add c ∈ as → c.bytes ≠ []) :
    ∀ s : System, ∃ s', s.run D cfg as = .ok s' := by
  induction as with
  | nil => exact fun s ↦ ⟨s, rfl⟩
  | cons a as ih =>
    intro s
    have hstep : ∃ t, s.step D cfg a = .ok t := by
      cases a with
      | add c =>
        obtain ⟨r, hr⟩ := exists_addBlob_eq_ok D cfg (hne c List.mem_cons_self) s.store
          c.providedHash
        exact ⟨{ s with store := r.2 }, by rw [System.step, hr]; rfl⟩
      | lookup i r => exact ⟨_, rfl⟩
      | read i =>
        rw [System.step]
        rcases s.held i with - | ⟨r, b⟩
        · exact ⟨_, rfl⟩
        · exact ⟨_, rfl⟩
    obtain ⟨t, ht⟩ := hstep
    obtain ⟨s', hs'⟩ := ih (fun c hc ↦ hne c (List.mem_cons_of_mem _ hc)) t
    exact ⟨s', by rw [System.run, ht]; exact hs'⟩

/-! ### Immutability -/

/-- The strings a run gives to the digest functions. -/
def given (as : List Action) : Set Bytes := {x | ∃ c, .add c ∈ as ∧ x = cString c.bytes}

/-- One reference names one path. -/
theorem Names.path_unique {S : Set Bytes} (hcf : D.CollisionFree S)
    (hS : ∀ x ∈ past, cString x ∈ S) {r p p' : Bytes} (h : Names D cfg past r p)
    (h' : Names D cfg past r p') : p = p' := by
  obtain ⟨k, hk, x, hx, hkx, rfl⟩ := h
  obtain ⟨k', hk', y, hy, hky, rfl⟩ := h'
  obtain rfl := Option.some.inj (hk.symm.trans hk')
  have hcs := cString_eq_of_mem_blobKeys hcf (hS x hx) (hS y hy) hkx hky
  simp only [pathOf, Digests.callSha256, hcs]

/-- **Immutability.** In every run, over strings without collisions: a reference that was found is
never missed again; every read after a successful lookup finds a file that holds one whole content
added by the run; and any two reads for one reference see the same bytes. -/
theorem immutable (D : Digests) (cfg : Config) (as : List Action) (s : System)
    (hrun : System.init.run D cfg as = .ok s) (hcf : D.CollisionFree (given as)) :
    (∀ i j : ℕ, i < j → ∀ r b, s.log[i]? = some (.looked r (some b)) →
      s.log[j]? ≠ some (.looked r none)) ∧
    (∀ r o, .readFile r o ∈ s.log → ∃ c, .add c ∈ as ∧ c.Accepted D ∧ o = some c.bytes) ∧
    (∀ r o o', .readFile r o ∈ s.log → .readFile r o' ∈ s.log → o = o') := by
  obtain ⟨past, hcons, hmem⟩ := consistent_init.run hrun
  have hadd : ∀ x ∈ past, ∃ c, .add c ∈ as ∧ c.Accepted D ∧ c.bytes = x := by
    intro x hx
    rcases (hmem x).1 hx with hx' | ⟨a, ha, hstores⟩
    · cases hx'
    · cases a with
      | add c => exact ⟨c, ha, hstores⟩
      | lookup i r => exact hstores.elim
      | read i => exact hstores.elim
  -- so all of the past is covered by the assumption on the digests
  have hS : ∀ x ∈ past, cString x ∈ given as := by
    intro x hx
    obtain ⟨c, hc, -, rfl⟩ := hadd x hx
    exact ⟨c, hc, rfl⟩
  refine ⟨?_, ?_, ?_⟩
  · intro i j hij r b hi hj
    obtain ⟨hi', hival⟩ := List.getElem?_eq_some_iff.1 hi
    obtain ⟨hj', hjval⟩ := List.getElem?_eq_some_iff.1 hj
    have := List.pairwise_iff_getElem.1 hcons.notLost i j hi' hj' hij
    rw [hival, hjval] at this
    exact this rfl
  · intro r o ho
    obtain ⟨p, y, -, hy, rfl⟩ := hcons.read ho
    obtain ⟨c, hc, hacc, rfl⟩ := hadd y (hcons.recorded.file hy).1
    exact ⟨c, hc, hacc, rfl⟩
  · intro r o o' ho ho'
    obtain ⟨p, y, hn, hy, rfl⟩ := hcons.read ho
    obtain ⟨p', y', hn', hy', rfl⟩ := hcons.read ho'
    obtain rfl := hn.path_unique hcf hS hn'
    exact hy.symm.trans hy'

/-- Two clients ask for one reference, and a content with the same C string is added in between. -/
def overlappingRun : List Action :=
  let ref := lit "sha1-86F7E437FAA5A7FCE15D1DDCB9EAEAEA377667B8"
  [.add ⟨none, [97, 0, 98]⟩, .lookup 0 ref, .add ⟨none, [97]⟩, .read 0, .lookup 1 ref, .read 1]

theorem immutable_overlappingRun :
    ∃ s, System.init.run Digests.sample {} overlappingRun = .ok s ∧
      ∀ r o o', .readFile r o ∈ s.log → .readFile r o' ∈ s.log → o = o' := by
  have hcf : Digests.sample.CollisionFree (given overlappingRun) := by
    have hset : given overlappingRun = {[97]} := by
      ext s
      constructor
      · rintro ⟨c, hc, rfl⟩
        simp only [overlappingRun, List.mem_cons, Action.add.injEq, reduceCtorEq, false_or,
          List.not_mem_nil, or_false] at hc
        rcases hc with rfl | rfl <;> rfl
      · rintro rfl
        exact ⟨⟨none, [97]⟩, by simp [overlappingRun], rfl⟩
    rw [hset]
    exact ⟨Set.injOn_singleton _ _, Set.injOn_singleton _ _⟩
  have hne : ∀ c, .add c ∈ overlappingRun → c.bytes ≠ [] := by simp [overlappingRun]
  obtain ⟨s, hs⟩ := exists_run_eq_ok Digests.sample {} hne .init
  exact ⟨s, hs, (immutable _ _ overlappingRun s hs hcf).2.2⟩

end Camlispp
