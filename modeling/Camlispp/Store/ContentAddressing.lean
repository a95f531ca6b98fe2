import Camlispp.Store.BlobIndex
import Mathlib.Data.Set.Function

/-!
# Content addressing

What a run of additions leaves behind, and when it is content-addressed.

`Recorded st past` is the invariant every other result about the store rests on: `past` lists the
contents stored so far, and the store holds exactly their keys, their paths, and under each key a
record of one of them. It is preserved by each of the two ways an addition can end
(`Recorded.stored`, `Recorded.refused`) and therefore by every run (`recorded_addBlobs`), with no
assumption on the digests.

Content addressing itself then takes collision-freeness, and something the source does not
guarantee: that the digest functors see the whole content. They see it up to its first `NUL`, so
`intact_iff` is an equivalence with "no stored content contains a `NUL`".

## What each result rests on

* `recorded_addBlobs` rests on `addBlob_eq` alone, which says everything an addition can do. Every
  later result about runs of additions starts from it, in this module and in those that import it.
* `intact_iff` in one direction rests on the paths: a file is written under the SHA-256 digest of
  its content, and the key that names it is a digest of the same C string. In the other direction a
  stored content with a `NUL` is itself the failing state.
* The assumption that strings do not collide is about the strings that are hashed in the run
  (`hashed`), not about all strings, so that it can be met.

The two witnesses are a run that stores `a`, `b` and `a` again, and one that stores `a NUL b`.
-/

open Bytes

namespace Camlispp

variable (D : Digests) (cfg : Config)

/-! ### Runs of additions -/

/-- One call of the two-argument `add_blob`. -/
structure AddCall where
  providedHash : Option Bytes
  bytes : Bytes
deriving DecidableEq

/-- The call passes the provided-hash check. -/
def AddCall.Accepted (c : AddCall) : Prop :=
  providedHashOk (blobKeys D c.bytes) c.providedHash = true

instance (c : AddCall) : Decidable (c.Accepted D) :=
  inferInstanceAs (Decidable (_ = true))

/-- A sequence of additions. -/
def addBlobs (st : Store) : List AddCall → Except Fault Store
  | [] => .ok st
  | c :: cs => do
    let (_, st) ← addBlob D cfg st c.providedHash c.bytes
    addBlobs st cs

/-! ### The invariant -/

/-- The store holds the contents of `past`, and nothing else. -/
structure Recorded (st : Store) (past : List Bytes) : Prop where
  /-- Only non-empty contents pass the assertion. -/
  ne_nil : ∀ x ∈ past, x ≠ []
  /-- Every entry is the record of a stored content, under one of its keys. -/
  entry : ∀ {k b}, st.blobs.find k = some b →
    ∃ x ∈ past, k ∈ blobKeys D x ∧ ∃ addr, b = recordOf D cfg addr x
  /-- Every file holds a stored content, at its own path. -/
  file : ∀ {p y}, st.files.find p = some y → y ∈ past ∧ p = pathOf D cfg y
  /-- Every stored content has its keys in the index. -/
  keys : ∀ x ∈ past, ∀ k ∈ blobKeys D x, k ∈ st.blobs.keys
  /-- Every stored content has a file at its path. -/
  files : ∀ x ∈ past, ∃ y, st.files.find (pathOf D cfg x) = some y

variable {D cfg} {st st' : Store} {past : List Bytes}

/-- What every addition keeps, every run keeps. -/
theorem addBlobs_induction {P : Store → Prop} {calls : List AddCall}
    (hadd : ∀ {st : Store} {c : AddCall} {r : Option Blob × Store}, c ∈ calls → P st →
      addBlob D cfg st c.providedHash c.bytes = .ok r → P r.2)
    (hrun : addBlobs D cfg st calls = .ok st') (h : P st) : P st' := by
  induction calls generalizing st with
  | nil => exact Except.ok.inj hrun ▸ h
  | cons c cs ih =>
    rw [addBlobs] at hrun
    rcases hr : addBlob D cfg st c.providedHash c.bytes with e | r
    · rw [hr] at hrun
      cases hrun
    · rw [hr] at hrun
      exact ih (fun hc ↦ hadd (List.mem_cons_of_mem _ hc)) hrun (hadd List.mem_cons_self h hr)

theorem recorded_empty : Recorded D cfg .empty [] where
  ne_nil := by simp
  entry h := by simp [Store.empty] at h
  file h := by simp [Store.empty] at h
  keys := by simp
  files := by simp

/-- Storing a content adds it to the past. -/
theorem Recorded.stored (h : Recorded D cfg st past) {x : Bytes} (hx : x ≠ []) :
    Recorded D cfg (st.stored D cfg x) (x :: past) where
  ne_nil := by
    intro y hy
    rcases List.mem_cons.1 hy with rfl | hy'
    · exact hx
    · exact h.ne_nil y hy'
  entry := by
    intro k b hb
    rw [find_blobs_stored] at hb
    split_ifs at hb with hk
    · exact ⟨x, List.mem_cons_self, hk, st.allocated, (Option.some.inj hb).symm⟩
    · obtain ⟨y, hy, hky, haddr⟩ := h.entry hb
      exact ⟨y, List.mem_cons_of_mem _ hy, hky, haddr⟩
  file := by
    intro p y hy
    rw [find_files_stored] at hy
    -- a file that was there is kept, whatever is stored
    rcases hf : st.files.find p with - | z
    · split_ifs at hy with hp
      · obtain rfl : x = y := by simpa [hf] using hy
        exact ⟨List.mem_cons_self, hp⟩
      · exact absurd hy (by simp [hf])
    · have hzy : z = y := by
        split_ifs at hy <;> simpa [hf] using hy
      obtain ⟨hmem, hp⟩ := h.file hf
      exact ⟨List.mem_cons_of_mem _ (hzy ▸ hmem), hzy ▸ hp⟩
  keys := by
    intro y hy k hk
    rw [mem_keys_stored]
    rcases List.mem_cons.1 hy with rfl | hy'
    · exact Or.inl hk
    · exact Or.inr (h.keys y hy' k hk)
  files := by
    intro y hy
    rw [find_files_stored]
    split_ifs with hp
    · exact ⟨_, rfl⟩
    · rcases List.mem_cons.1 hy with rfl | hy'
      · exact absurd rfl hp
      · exact h.files y hy'

/-- A refused addition leaves the entries and the files alone. -/
theorem Recorded.refused (h : Recorded D cfg st past) : Recorded D cfg st.refused past :=
  ⟨h.ne_nil, h.entry, h.file, h.keys, h.files⟩

/-- **One addition**: the past grows by the content exactly when the call is accepted. -/
theorem Recorded.addBlob (h : Recorded D cfg st past) {c : AddCall} {r : Option Blob × Store}
    (hadd : Camlispp.addBlob D cfg st c.providedHash c.bytes = .ok r) :
    c.bytes ≠ [] ∧ (c.Accepted D ∧ Recorded D cfg r.2 (c.bytes :: past) ∨
      ¬c.Accepted D ∧ Recorded D cfg r.2 past) := by
  rw [addBlob_eq] at hadd
  split_ifs at hadd with hnil hok
  · obtain rfl := Except.ok.inj hadd
    exact ⟨hnil, Or.inl ⟨hok, h.stored hnil⟩⟩
  · obtain rfl := Except.ok.inj hadd
    exact ⟨hnil, Or.inr ⟨hok, h.refused⟩⟩

/-- A run whose contents are all non-empty meets no assertion. -/
theorem exists_addBlobs_eq_ok (D : Digests) (cfg : Config) {calls : List AddCall}
    (hne : ∀ c ∈ calls, c.bytes ≠ []) : ∀ st, ∃ st', addBlobs D cfg st calls = .ok st' := by
  induction calls with
  | nil => exact fun st ↦ ⟨st, rfl⟩
  | cons c cs ih =>
    intro st
    obtain ⟨r, hr⟩ := exists_addBlob_eq_ok D cfg (hne c List.mem_cons_self) st c.providedHash
    obtain ⟨st', hst'⟩ := ih (fun d hd ↦ hne d (List.mem_cons_of_mem _ hd)) r.2
    exact ⟨st', by rw [addBlobs, hr]; exact hst'⟩

/-- **Every run**, by induction on the calls: afterwards the past is what was there before and the
contents of the accepted calls. -/
theorem Recorded.addBlobs {calls : List AddCall} (h : Recorded D cfg st past)
    (hrun : Camlispp.addBlobs D cfg st calls = .ok st') :
    ∃ past', Recorded D cfg st' past' ∧
      ∀ x, x ∈ past' ↔ x ∈ past ∨ ∃ c ∈ calls, c.Accepted D ∧ c.bytes = x := by
  induction calls generalizing st past with
  | nil =>
    obtain rfl := Except.ok.inj hrun
    exact ⟨past, h, by simp⟩
  | cons c cs ih =>
    rw [Camlispp.addBlobs] at hrun
    rcases hadd : Camlispp.addBlob D cfg st c.providedHash c.bytes with e | r
    · rw [hadd] at hrun
      cases hrun
    · rw [hadd] at hrun
      rcases (h.addBlob hadd).2 with ⟨hacc, hrec⟩ | ⟨hacc, hrec⟩
      · obtain ⟨past', hrec', hmem⟩ := ih hrec hrun
        refine ⟨past', hrec', fun x ↦ ?_⟩
        rw [hmem, List.mem_cons, List.exists_mem_cons_iff]
        constructor
        · rintro ((rfl | hx) | hx)
          · exact Or.inr (Or.inl ⟨hacc, rfl⟩)
          · exact Or.inl hx
          · exact Or.inr (Or.inr hx)
        · rintro (hx | ⟨-, rfl⟩ | hx)
          · exact Or.inl (Or.inr hx)
          · exact Or.inl (Or.inl rfl)
          · exact Or.inr hx
      · obtain ⟨past', hrec', hmem⟩ := ih hrec hrun
        refine ⟨past', hrec', fun x ↦ ?_⟩
        rw [hmem, List.exists_mem_cons_iff]
        simp [hacc]

/-- The invariant of a run from nothing. -/
theorem recorded_addBlobs {calls : List AddCall} (hrun : addBlobs D cfg .empty calls = .ok st) :
    ∃ past, Recorded D cfg st past ∧
      ∀ x, x ∈ past ↔ ∃ c ∈ calls, c.Accepted D ∧ c.bytes = x := by
  obtain ⟨past, hrec, hmem⟩ := recorded_empty.addBlobs hrun
  exact ⟨past, hrec, by simpa using hmem⟩

/-! ### Keys and paths of one content and of two -/

/-- Different digests go to different paths. -/
theorem createPath_injective (cfg : Config) : Function.Injective (createPath cfg) := by
  intro h h' heq
  have hlen : h.length = h'.length := by
    have := congrArg List.length heq
    simp only [createPath, List.length_append, List.length_take] at this
    omega
  have htail : h ++ lit ".dat" = h' ++ lit ".dat" := by
    simp only [createPath, List.append_assoc] at heq
    refine List.append_inj_right' (List.append_inj_right' (List.append_inj_right' heq ?_) ?_) ?_ <;>
      simp [hlen]
  exact List.append_cancel_right htail

/-- A key belongs to a content through the digest of its type. -/
theorem cString_eq_of_mem_blobKeys {S : Set Bytes} (hcf : D.CollisionFree S) {x y : Bytes}
    (hx : cString x ∈ S) (hy : cString y ∈ S) {k : BlobKey} (hkx : k ∈ blobKeys D x)
    (hky : k ∈ blobKeys D y) : cString x = cString y := by
  have htypes : lit "sha1" ≠ lit "sha256" := by decide
  rw [mem_blobKeys_iff] at hkx hky
  rcases hkx with rfl | rfl <;> rcases hky with h | h <;> obtain ⟨ht, hv⟩ := BlobKey.mk.inj h
  · exact hcf.1 hx hy hv
  · exact absurd ht htypes
  · exact absurd ht htypes.symm
  · exact hcf.2 hx hy hv

/-- A shared path means a shared C string. -/
theorem cString_eq_of_pathOf_eq {S : Set Bytes} (hcf : D.CollisionFree S) {x y : Bytes}
    (hx : cString x ∈ S) (hy : cString y ∈ S) (h : pathOf D cfg x = pathOf D cfg y) :
    cString x = cString y :=
  hcf.2 hx hy (createPath_injective cfg h)

/-- Contents with one C string have the same keys. -/
theorem blobKeys_eq_of_cString_eq {x y : Bytes} (h : cString x = cString y) :
    blobKeys D x = blobKeys D y := by
  simp [blobKeys, blobKeyOf, Digests.callSha1, Digests.callSha256, h]

/-! ### Content addressing -/

/-- The name of a digest type. -/
def HashType.name : HashType → Bytes
  | .sha1 => lit "sha1"
  | .sha256 => lit "sha256"

/-- The digest of a type, of a whole byte string. -/
def Digests.digest (D : Digests) : HashType → Bytes → Bytes
  | .sha1 => D.sha1
  | .sha256 => D.sha256

/-- Every key of a known type names the file its record points to, by the digest of the **whole**
file. -/
def ContentAddressed (D : Digests) (st : Store) : Prop :=
  ∀ (t : HashType) (v : Bytes) (b : Blob), st.blobs.find ⟨t.name, v⟩ = some b →
    ∃ y, st.files.find b.filePath = some y ∧ v = D.digest t y

/-- Two different contents that were stored never share an index entry. -/
def SeparateEntries (D : Digests) (calls : List AddCall) : Prop :=
  ∀ c ∈ calls, ∀ c' ∈ calls, c.Accepted D → c'.Accepted D → c.bytes ≠ c'.bytes →
    ∀ k ∈ blobKeys D c.bytes, k ∉ blobKeys D c'.bytes

/-- The strings a run gives to the digest functions, whole and as the functors cut them. -/
def hashed (calls : List AddCall) : Set Bytes :=
  {s | ∃ c ∈ calls, s = c.bytes ∨ s = cString c.bytes}

/-- The strings the digest functors see: the contents up to their first `NUL`. -/
def digested (calls : List AddCall) : Set Bytes := {x | ∃ c ∈ calls, x = cString c.bytes}

/-- Every state of the run is content-addressed, and no two contents ran into each other. -/
def Intact (D : Digests) (cfg : Config) (calls : List AddCall) : Prop :=
  ∀ cs, cs <+: calls → ∃ st, addBlobs D cfg .empty cs = .ok st ∧ ContentAddressed D st ∧
    SeparateEntries D cs

/-- In a run over collision-free strings, a key's record points to a file with the C string its
content had. -/
theorem Recorded.exists_file {S : Set Bytes} (h : Recorded D cfg st past)
    (hcf : D.CollisionFree S) (hS : ∀ x ∈ past, cString x ∈ S) {k : BlobKey} {b : Blob}
    (hb : st.blobs.find k = some b) :
    ∃ x ∈ past, ∃ y ∈ past, k ∈ blobKeys D x ∧ b.filePath = pathOf D cfg x ∧
      b.size = int32 x.length ∧ st.files.find b.filePath = some y ∧ cString y = cString x := by
  obtain ⟨x, hx, hkx, addr, rfl⟩ := h.entry hb
  obtain ⟨y, hy⟩ := h.files x hx
  obtain ⟨hymem, hpath⟩ := h.file hy
  refine ⟨x, hx, y, hymem, hkx, filePath_recordOf addr x, size_recordOf addr x, ?_, ?_⟩
  · rw [filePath_recordOf]
    exact hy
  · exact (cString_eq_of_pathOf_eq hcf (hS x hx) (hS y hymem) hpath).symm

theorem digest_of_mem_blobKeys {x : Bytes} {t : HashType} {v : Bytes}
    (h : (⟨t.name, v⟩ : BlobKey) ∈ blobKeys D x) : v = D.digest t (cString x) := by
  rw [mem_blobKeys_iff] at h
  cases t with
  | sha1 =>
    rcases h with h | h
    · exact (BlobKey.mk.inj h).2
    · exact absurd (BlobKey.mk.inj h).1 (by decide)
  | sha256 =>
    rcases h with h | h
    · exact absurd (BlobKey.mk.inj h).1 (by decide)
    · exact (BlobKey.mk.inj h).2

theorem mem_blobKeys_digest (t : HashType) (x : Bytes) :
    (⟨t.name, D.digest t (cString x)⟩ : BlobKey) ∈ blobKeys D x := by
  rw [mem_blobKeys_iff]
  cases t with
  | sha1 => exact Or.inl rfl
  | sha256 => exact Or.inr rfl

/-- Without `NUL` bytes the functors see whole contents, and the run is content-addressed. -/
theorem contentAddressed_of_nulFree {calls : List AddCall}
    (hcf : D.CollisionFree (hashed calls)) (hnul : ∀ c ∈ calls, c.Accepted D → 0 ∉ c.bytes)
    (hrun : addBlobs D cfg .empty calls = .ok st) :
    ContentAddressed D st ∧ SeparateEntries D calls := by
  obtain ⟨past, hrec, hmem⟩ := recorded_addBlobs hrun
  have hself : ∀ x ∈ past, cString x = x := by
    intro x hx
    obtain ⟨c, hc, hacc, rfl⟩ := (hmem x).1 hx
    exact cString_eq_self (hnul c hc hacc)
  constructor
  · intro t v b hb
    obtain ⟨x, hx, y, hy, hk, -, -, hfile, hcs⟩ := hrec.exists_file hcf (fun x hx ↦ by
      obtain ⟨c, hc, -, rfl⟩ := (hmem x).1 hx
      exact ⟨c, hc, Or.inr rfl⟩) hb
    refine ⟨y, hfile, ?_⟩
    rw [digest_of_mem_blobKeys hk, ← hcs, hself y hy]
  · intro c hc c' hc' hacc hacc' hne k hk hk'
    refine hne ?_
    rw [← cString_eq_self (hnul c hc hacc), ← cString_eq_self (hnul c' hc' hacc')]
    exact cString_eq_of_mem_blobKeys hcf ⟨c, hc, Or.inr rfl⟩ ⟨c', hc', Or.inr rfl⟩ hk hk'

theorem hashed_mono {cs calls : List AddCall} (h : cs ⊆ calls) : hashed cs ⊆ hashed calls :=
  fun _ ⟨c, hc, hs⟩ ↦ ⟨c, h hc, hs⟩

/-- **When a run is content-addressed.** Over strings without collisions, every state of the run is
content-addressed and keeps its contents apart exactly when no stored content contains a `NUL`. -/
theorem intact_iff (D : Digests) (cfg : Config) (calls : List AddCall)
    (hne : ∀ c ∈ calls, c.bytes ≠ []) (hcf : D.CollisionFree (hashed calls)) :
    Intact D cfg calls ↔ ∀ c ∈ calls, c.Accepted D → 0 ∉ c.bytes := by
  constructor
  · intro hint c hc hacc hnul
    obtain ⟨st, hrun, hca, hsep⟩ := hint calls List.prefix_rfl
    obtain ⟨past, hrec, hmem⟩ := recorded_addBlobs hrun
    have hcut : cString c.bytes ≠ c.bytes := fun h ↦ by
      rw [← h] at hnul
      simpa using List.mem_takeWhile_imp hnul
    -- the file behind the content's own key can only be the cut content
    obtain ⟨b, hb⟩ := OrdMap.mem_keys_iff.1
      (hrec.keys c.bytes ((hmem _).2 ⟨c, hc, hacc, rfl⟩) _ (mem_blobKeys_digest .sha1 c.bytes))
    obtain ⟨y, hy, hdig⟩ := hca .sha1 _ b hb
    obtain ⟨c', hc', hacc', rfl⟩ := (hmem y).1 (hrec.file hy).1
    have hyc : cString c.bytes = c'.bytes :=
      hcf.1 ⟨c, hc, Or.inr rfl⟩ ⟨c', hc', Or.inl rfl⟩ hdig
    -- which was therefore stored too, under the same keys
    have hkeys : blobKeys D c.bytes = blobKeys D c'.bytes := by
      refine blobKeys_eq_of_cString_eq ?_
      rw [← hyc, cString, cString, List.takeWhile_idem]
    exact hsep c hc c' hc' hacc hacc' (hyc ▸ hcut.symm) _ (mem_blobKeys_digest .sha1 c.bytes)
      (hkeys ▸ mem_blobKeys_digest .sha1 c.bytes)
  · intro hnul cs hcs
    have hsub : cs ⊆ calls := hcs.subset
    obtain ⟨st, hrun⟩ := exists_addBlobs_eq_ok D cfg (fun c hc ↦ hne c (hsub hc)) .empty
    refine ⟨st, hrun, contentAddressed_of_nulFree ?_ (fun c hc ↦ hnul c (hsub hc)) hrun⟩
    exact ⟨hcf.1.mono (hashed_mono hsub), hcf.2.mono (hashed_mono hsub)⟩

/-- Two ordinary contents, one of them added twice. -/
theorem intact_a_b_a : Intact Digests.sample {} [⟨none, [97]⟩, ⟨none, [98]⟩, ⟨none, [97]⟩] := by
  refine (intact_iff _ _ _ (by decide) ?_).2 (by decide)
  have hset : hashed [⟨none, [97]⟩, ⟨none, [98]⟩, ⟨none, [97]⟩] = {[97], [98]} := by
    ext s
    simp [hashed, cString]
    tauto
  rw [hset]
  constructor <;> simp [Set.InjOn] <;> decide

/-- One content with a `NUL` in it: its SHA-1 key is the digest of `a`, its file is `a NUL b`. -/
theorem not_intact_nul : Digests.sample.CollisionFree (hashed [⟨none, [97, 0, 98]⟩]) ∧
    ¬Intact Digests.sample {} [⟨none, [97, 0, 98]⟩] := by
  constructor
  · have hset : hashed [⟨none, [97, 0, 98]⟩] = {[97, 0, 98], [97]} := by
      ext s
      simp [hashed, cString]
    rw [hset]
    constructor <;> simp [Set.InjOn] <;> decide
  · intro h
    obtain ⟨st, hrun, hca, -⟩ := h _ List.prefix_rfl
    obtain rfl := Except.ok.inj hrun
    obtain ⟨y, hy, hdig⟩ := hca .sha1 (Digests.sample.sha1 [97])
      (recordOf Digests.sample {} 0 [97, 0, 98]) (by decide +kernel)
    have hfile : y = [97, 0, 98] := by
      refine Option.some.inj (hy.symm.trans ?_)
      decide +kernel
    rw [hfile] at hdig
    exact absurd hdig (by decide +kernel)

end Camlispp
