import Camlispp.Library.Bytes
import Mathlib.Data.List.Basic

/-!
# Paths and where they lead

A path is a byte string, its components are what stands between slashes, and a component leads from
a directory to another one: an empty one and `.` stay, `..` goes up, every other one goes down. A
directory is given by the names that lead to it from the root.

`StaysWithin` says that a path never leaves the directory it starts in, at none of its components,
wherever that directory is. A path in which no two dots stand together does
(`staysWithin_of_not_infix`), since `..` is the only way up.

## What the result rests on

* `infix_of_mem_components`: a component is a stretch of the path, so `..` is a component only of a
  path that has two dots together.
* `prefix_enter`: a component that is not `..` leads down or nowhere, so the directory one started
  in is still a beginning of where one is.

Components are split at every slash. An empty one, at the beginning or between two slashes, stays
where it is, so a path that is put behind a directory is read from that directory.

Nothing here depends on a particular program.
-/

open Bytes

namespace Paths

/-- The components of a path, empty ones included. -/
def components (s : Bytes) : List Bytes := s.splitOn 47

/-- Where a component leads. -/
def enter (here : List Bytes) (c : Bytes) : List Bytes :=
  if c = [] ∨ c = lit "." then here
  else if c = lit ".." then here.dropLast
  else here ++ [c]

/-- Where a sequence of components leads, one after another. -/
def resolve (here : List Bytes) (cs : List Bytes) : List Bytes := cs.foldl enter here

/-- No prefix of the path steps above the directory the path starts in. -/
def StaysWithin (s : Bytes) : Prop :=
  ∀ cs, cs <+: components s → ∀ here, here <+: resolve here cs

/-- Every component is a piece of the path, and the first one its beginning. -/
theorem exists_components_eq (s : Bytes) :
    ∃ c cs, components s = c :: cs ∧ c <+: s ∧ ∀ d ∈ cs, d <:+: s := by
  induction s with
  | nil => exact ⟨[], [], rfl, List.prefix_rfl, by simp⟩
  | cons b s ih =>
    obtain ⟨c, cs, heq, hc, hcs⟩ := ih
    rw [components] at heq ⊢
    rw [List.splitOn_cons_eq_if_modifyHead, heq]
    split_ifs
    · refine ⟨[], c :: cs, rfl, List.nil_prefix, fun d hd ↦ ?_⟩
      rcases List.mem_cons.1 hd with rfl | hd
      · exact hc.isInfix.trans (List.suffix_cons b s).isInfix
      · exact (hcs d hd).trans (List.suffix_cons b s).isInfix
    · refine ⟨b :: c, cs, rfl, (List.prefix_cons_inj b).2 hc, fun d hd ↦ ?_⟩
      exact (hcs d hd).trans (List.suffix_cons b s).isInfix

theorem infix_of_mem_components {s c : Bytes} (h : c ∈ components s) : c <:+: s := by
  obtain ⟨d, ds, heq, hd, hds⟩ := exists_components_eq s
  rw [heq] at h
  rcases List.mem_cons.1 h with rfl | h
  · exact hd.isInfix
  · exact hds c h

/-- Only `..` goes up. -/
theorem prefix_enter {c : Bytes} (h : c ≠ lit "..") (here : List Bytes) :
    here <+: enter here c := by
  rw [enter]
  split_ifs
  · exact List.prefix_rfl
  · exact List.prefix_append here [c]

theorem prefix_resolve {cs : List Bytes} (h : ∀ c ∈ cs, c ≠ lit "..") (here : List Bytes) :
    here <+: resolve here cs := by
  induction cs generalizing here with
  | nil => exact List.prefix_rfl
  | cons c cs ih =>
    obtain ⟨hc, hcs⟩ := List.forall_mem_cons.1 h
    exact (prefix_enter hc here).trans (ih hcs (enter here c))

/-- **Without two dots there is no way up.** -/
theorem staysWithin_of_not_infix {s : Bytes} (h : ¬lit ".." <:+: s) : StaysWithin s := by
  intro cs hcs here
  refine prefix_resolve (fun c hc heq ↦ h ?_) here
  rw [← heq]
  exact infix_of_mem_components (hcs.subset hc)

example : ¬StaysWithin (lit "/a/../..") := fun h ↦
  absurd (h (components (lit "/a/../..")) List.prefix_rfl [lit "b"]) (by decide +kernel)

end Paths
