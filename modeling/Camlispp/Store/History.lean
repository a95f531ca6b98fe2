import Camlispp.Store.ContentAddressing

/-!
# Which content is behind a key

A key's record is that of the **last** content stored under it, while a file keeps the **first**
content that was written to its path. Both are read off the history of a run: `find_blobs_addBlobs`
and `find_files_addBlobs` hold for every run from every store, with no assumption on the digests.

## What the results rest on

* `addBlob_call`: an addition is accepted or refused, and what it leaves is `stored` or `refused`.
* `find_blobs_stored` and `find_files_stored`: what is stored replaces the record of a key, and does
  not replace a file.
* Both results are by induction on the calls. What a later call stored under the key decides for the
  record, and what was there before decides for the file.

The two come apart where two contents share a key or a path. That is where `Views` finds the sizes
of the program to disagree.
-/

open Bytes

namespace Camlispp

variable (D : Digests) (cfg : Config)

/-- The contents a run stores, in order. -/
def accepted (calls : List AddCall) : List Bytes :=
  (calls.filter fun c ↦ decide (c.Accepted D)).map AddCall.bytes

/-- The last content a run stores under a key. -/
def lastUnder (calls : List AddCall) (k : BlobKey) : Option Bytes :=
  (accepted D calls).reverse.find? fun x ↦ decide (k ∈ blobKeys D x)

/-- The first content a run stores at a path. -/
def firstAt (calls : List AddCall) (path : Bytes) : Option Bytes :=
  (accepted D calls).find? fun x ↦ decide (pathOf D cfg x = path)

variable {D cfg}

theorem accepted_cons (c : AddCall) (cs : List AddCall) :
    accepted D (c :: cs) = if c.Accepted D then c.bytes :: accepted D cs else accepted D cs := by
  rw [accepted, List.filter_cons]
  by_cases hacc : c.Accepted D
  · simp [hacc, accepted]
  · simp [hacc, accepted]

/-- The two ways an addition ends, by the call that made it. -/
theorem addBlob_call {st : Store} {c : AddCall} {r : Option Blob × Store}
    (h : addBlob D cfg st c.providedHash c.bytes = .ok r) :
    r.2 = if c.Accepted D then st.stored D cfg c.bytes else st.refused := by
  rw [addBlob_eq] at h
  split_ifs at h with hnil hok
  · obtain rfl := Except.ok.inj h
    exact (if_pos hok).symm
  · obtain rfl := Except.ok.inj h
    exact (if_neg hok).symm

/-- **The last content wins a key.** -/
theorem find_blobs_addBlobs {calls : List AddCall} {st st' : Store}
    (hrun : addBlobs D cfg st calls = .ok st') (k : BlobKey) :
    (st'.blobs.find k).map (fun b ↦ (b.filePath, b.size)) =
      match lastUnder D calls k with
      | some x => some (pathOf D cfg x, int32 x.length)
      | none => (st.blobs.find k).map fun b ↦ (b.filePath, b.size) := by
  induction calls generalizing st with
  | nil =>
    obtain rfl := Except.ok.inj hrun
    rfl
  | cons c cs ih =>
    rcases hadd : addBlob D cfg st c.providedHash c.bytes with e | r
    · rw [addBlobs, hadd] at hrun
      cases hrun
    · rw [addBlobs, hadd] at hrun
      rw [ih hrun, addBlob_call hadd, lastUnder, lastUnder, accepted_cons]
      by_cases hacc : c.Accepted D
      · rw [if_pos hacc, if_pos hacc, List.reverse_cons, List.find?_append]
        rcases hlast : (accepted D cs).reverse.find? (fun x ↦ decide (k ∈ blobKeys D x)) with - | x
        · -- nothing later under this key: it is this call's, if it is one of its keys
          rw [find_blobs_stored, Option.none_or]
          by_cases hk : k ∈ blobKeys D c.bytes
          · simp [hk]
          · simp [hk]
        · rfl
      · rw [if_neg hacc, if_neg hacc]
        rfl

/-- **The first content wins a file.** -/
theorem find_files_addBlobs {calls : List AddCall} {st st' : Store}
    (hrun : addBlobs D cfg st calls = .ok st') (path : Bytes) :
    st'.files.find path = (st.files.find path).or (firstAt D cfg calls path) := by
  induction calls generalizing st with
  | nil =>
    obtain rfl := Except.ok.inj hrun
    exact (Option.or_none).symm
  | cons c cs ih =>
    rcases hadd : addBlob D cfg st c.providedHash c.bytes with e | r
    · rw [addBlobs, hadd] at hrun
      cases hrun
    · rw [addBlobs, hadd] at hrun
      rw [ih hrun, addBlob_call hadd, firstAt, firstAt, accepted_cons]
      by_cases hacc : c.Accepted D
      · rw [if_pos hacc, if_pos hacc, find_files_stored, List.find?_cons]
        by_cases hpath : pathOf D cfg c.bytes = path
        · -- the path is this call's: it was there before, or is written now
          subst hpath
          rcases st.files.find (pathOf D cfg c.bytes) with - | y
          · simp
          · simp
        · simp [hpath, Ne.symm hpath]
      · rw [if_neg hacc, if_neg hacc]
        rfl

end Camlispp
