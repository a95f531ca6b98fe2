import Camlispp.Json.RoundTrip
import Camlispp.Library.Avoids
import Camlispp.Sync.Wire

/-!
# Malformed replies

`parse_sync_enumeration` walks a document that a remote host chose, with accessors that throw when a
value has another type. `malformedIsAbsent_iff` says when a malformed document is told apart from an
absent one: only as far as its outermost value. An object with a member of the wrong type raises.

## What a well-typed document is

`WellTypedMember` says it without the accessors: a `continueAfter` is a string, `blobs` and `stat`
are arrays of objects whose `blobRef`, if they have one, is a string. Members of other names may be
anything. `refsOf` and `lastOf` are what such a document says.

## What the result rests on

* `parseMember_yields`: one round of the loop passes **exactly** the well-typed members that are
  not too long, and adds what they say. It is put together from the accessors by the rules of
  `Yields`, one for each construct, so that no step of the loop is unfolded twice.
* `foldl_addMember`: what the rounds add up to, in the order of the document. A later
  `continueAfter` takes the place of an earlier one.
* Nothing about the reader. It is any function here; what a host sends need not be anything that
  some writer wrote.

The bound in `ShortMember` is that of the index in the loop over an array, an `unsigned int`: an
array of `2 ^ 32` elements is never gone through to its end.
-/

open Bytes Except

namespace Camlispp

/-! ### Well-typed documents -/

/-- The text of a string. -/
def Json.str? : Json → Option Bytes
  | .str s => some s
  | _ => none

/-- The elements of an array. -/
def Json.elements : Json → List Json
  | .arr vs => vs
  | _ => []

/-- The members of an object. -/
def Json.members : Json → List (Bytes × Json)
  | .obj ms => ms
  | _ => []

/-- An object whose `blobRef`, if it has one, is a string. -/
def Json.IsRefObject (v : Json) : Prop :=
  ∃ ms, v = .obj ms ∧ ∀ m ∈ ms, m.1 = lit "blobRef" → ∃ s, m.2 = .str s

/-- The references of one element of `blobs` or `stat`. -/
def Json.refs (v : Json) : List Bytes :=
  (v.members.filter fun m ↦ m.1 = lit "blobRef").filterMap fun m ↦ m.2.str?

/-- A member of a reply in which every value that is looked at has the expected type. -/
structure WellTypedMember (m : Bytes × Json) : Prop where
  /-- `continueAfter` is a string. -/
  last : m.1 = lit "continueAfter" → ∃ s, m.2 = .str s
  /-- `blobs` and `stat` are arrays of objects with string references. -/
  blobs : m.1 = lit "blobs" ∨ m.1 = lit "stat" → ∃ vs, m.2 = .arr vs ∧ ∀ v ∈ vs, v.IsRefObject

/-- The references of a reply, in the order of the document. -/
def refsOf (members : List (Bytes × Json)) : List Bytes :=
  (members.filter fun m ↦ m.1 = lit "blobs" ∨ m.1 = lit "stat").flatMap fun m ↦
    m.2.elements.flatMap Json.refs

/-- The last `continueAfter` of a reply. -/
def lastOf (members : List (Bytes × Json)) : Option Bytes :=
  ((members.filter fun m ↦ m.1 = lit "continueAfter").filterMap fun m ↦ m.2.str?).getLast?

/-- **A malformed reply is an absent one**: nothing is raised, and a content is read as an
enumeration exactly if it is a well-typed object, with its references and its last cursor. -/
def MalformedIsAbsent (R : Json.Read) (content : Bytes) : Prop :=
  ∃ r, parseSyncEnumeration R content = .ok r ∧ ∀ e, r = some e ↔
    ∃ members, R content = some (.obj members) ∧ (∀ m ∈ members, WellTypedMember m) ∧
      e = ⟨lastOf members, refsOf members⟩

/-! ### What the accessors accept -/

theorem getStr_yields (v : Json) : Yields v.getStr (∃ s, v = .str s) (v.str?.getD []) := by
  cases v with
  | str s => exact (yields_ok s).congr (iff_of_true trivial ⟨s, rfl⟩)
  | _ => exact (yields_error _ _).congr (iff_of_false id fun ⟨s, hs⟩ ↦ by cases hs)

theorem getArray_yields (v : Json) : Yields v.getArray (∃ vs, v = .arr vs) v.elements := by
  cases v with
  | arr vs => exact (yields_ok vs).congr (iff_of_true trivial ⟨vs, rfl⟩)
  | _ => exact (yields_error _ _).congr (iff_of_false id fun ⟨s, hs⟩ ↦ by cases hs)

theorem getObj_yields (v : Json) : Yields v.getObj (∃ ms, v = .obj ms) v.members := by
  cases v with
  | obj ms => exact (yields_ok ms).congr (iff_of_true trivial ⟨ms, rfl⟩)
  | _ => exact (yields_error _ _).congr (iff_of_false id fun ⟨s, hs⟩ ↦ by cases hs)

theorem blobRefsOf_yields (v : Json) : Yields (blobRefsOf v) v.IsRefObject v.refs := by
  have hmap := Yields.mapM (fun m : Bytes × Json ↦ getStr_yields m.2)
    (v.members.filter fun m ↦ m.1 = lit "blobRef")
  refine (((getObj_yields v).bind hmap).congr_value fun h ↦ ?_).congr ⟨fun h ↦ ?_, fun h ↦ ?_⟩
  · rw [Json.refs, ← List.filterMap_eq_map]
    refine List.filterMap_congr fun m hm ↦ ?_
    obtain ⟨s, hs⟩ := h.2 m hm
    simp only [Function.comp_apply, hs]
    rfl
  · obtain ⟨⟨ms, rfl⟩, hstr⟩ := h
    exact ⟨ms, rfl, fun m hm hname ↦ hstr m (List.mem_filter.2 ⟨hm, decide_eq_true hname⟩)⟩
  · obtain ⟨ms, rfl, hstr⟩ := h
    refine ⟨⟨ms, rfl⟩, fun m hm ↦ ?_⟩
    obtain ⟨hmem, hname⟩ := List.mem_filter.1 hm
    exact hstr m hmem (of_decide_eq_true hname)

theorem blobRefsOfArray_yields (vs : List Json) :
    Yields (blobRefsOfArray vs) ((∀ v ∈ vs, v.IsRefObject) ∧ vs.length < 2 ^ 32)
      (vs.flatMap Json.refs) := by
  rw [List.flatMap_def]
  by_cases hlen : vs.length < 2 ^ 32
  · rw [blobRefsOfArray_of_lt hlen]
    refine ((Yields.mapM blobRefsOf_yields vs).bind (f := fun refs ↦ .ok refs.flatten)
      (yields_ok _)).congr ?_
    rw [and_true, and_iff_left hlen]
  · -- the index never reaches the end of the array
    rw [blobRefsOfArray]
    simp only [hlen, if_false]
    exact ((Yields.mapM blobRefsOf_yields _).bind (yields_error _ _)).congr (by simp)

/-! ### The loop over the members -/

/-- What a well-typed member adds. -/
def addMember (e : SyncEnumeration) (m : Bytes × Json) : SyncEnumeration where
  last := if m.1 = lit "continueAfter" then m.2.str?.or e.last else e.last
  blobRefs := if m.1 = lit "blobs" ∨ m.1 = lit "stat" then
      e.blobRefs ++ m.2.elements.flatMap Json.refs
    else e.blobRefs

/-- The arrays that the loops get to the end of. -/
def ShortMember (m : Bytes × Json) : Prop :=
  m.1 = lit "blobs" ∨ m.1 = lit "stat" → m.2.elements.length < 2 ^ 32

theorem parseLast_yields (e : SyncEnumeration) (m : Bytes × Json) :
    Yields (parseLast e m) (m.1 = lit "continueAfter" → ∃ s, m.2 = .str s)
      ⟨if m.1 = lit "continueAfter" then m.2.str?.or e.last else e.last, e.blobRefs⟩ := by
  rw [parseLast]
  split_ifs with hname
  · refine (((getStr_yields m.2).bind (f := fun last ↦ .ok { e with last := some last })
      (yields_ok _)).congr_value ?_).congr ?_
    · rintro ⟨⟨s, hs⟩, -⟩
      rw [hs]
      rfl
    · rw [and_true, forall_prop_of_true hname]
  · exact (yields_ok e).congr (iff_of_true trivial fun h ↦ absurd h hname)

theorem parseBlobs_yields (e : SyncEnumeration) (m : Bytes × Json) :
    Yields (parseBlobs e m)
      (m.1 = lit "blobs" ∨ m.1 = lit "stat" → (∃ vs, m.2 = .arr vs) ∧
        (∀ v ∈ m.2.elements, v.IsRefObject) ∧ m.2.elements.length < 2 ^ 32)
      ⟨e.last, if m.1 = lit "blobs" ∨ m.1 = lit "stat" then
        e.blobRefs ++ m.2.elements.flatMap Json.refs else e.blobRefs⟩ := by
  rw [parseBlobs]
  split_ifs with hname
  · refine ((getArray_yields m.2).bind ((blobRefsOfArray_yields m.2.elements).bind
      (f := fun refs ↦ .ok { e with blobRefs := e.blobRefs ++ refs }) (yields_ok _))).congr ?_
    rw [and_true, forall_prop_of_true hname]
  · exact (yields_ok e).congr (iff_of_true trivial fun h ↦ absurd h hname)

/-- **One round**: a member passes exactly if it is well typed and not too long. -/
theorem parseMember_yields (e : SyncEnumeration) (m : Bytes × Json) :
    Yields (parseMember e m) (WellTypedMember m ∧ ShortMember m) (addMember e m) := by
  refine ((parseLast_yields e m).bind (parseBlobs_yields _ m)).congr ⟨fun h ↦ ?_, fun h ↦ ?_⟩
  · refine ⟨⟨h.1, fun hname ↦ ?_⟩, fun hname ↦ (h.2 hname).2.2⟩
    obtain ⟨⟨vs, hvs⟩, hrefs, -⟩ := h.2 hname
    exact ⟨vs, hvs, by rwa [hvs] at hrefs⟩
  · refine ⟨h.1.last, fun hname ↦ ?_⟩
    obtain ⟨vs, hvs, hrefs⟩ := h.1.blobs hname
    exact ⟨⟨vs, hvs⟩, by rwa [hvs], h.2 hname⟩

theorem lastOf_cons (m : Bytes × Json) (ms : List (Bytes × Json)) :
    lastOf (m :: ms) =
      (lastOf ms).or (if m.1 = lit "continueAfter" then m.2.str? else none) := by
  by_cases hname : m.1 = lit "continueAfter"
  · rw [lastOf, List.filter_cons_of_pos (by simpa using hname), if_pos hname,
      List.filterMap_cons]
    rcases m.2.str? with - | s
    · rw [Option.or_none]
      rfl
    · rw [List.getLast?_cons, lastOf]
      rcases List.getLast? _ with - | t <;> rfl
  · rw [lastOf, List.filter_cons_of_neg (by simpa using hname), if_neg hname, Option.or_none]
    rfl

theorem refsOf_cons (m : Bytes × Json) (ms : List (Bytes × Json)) :
    refsOf (m :: ms) =
      (if m.1 = lit "blobs" ∨ m.1 = lit "stat" then m.2.elements.flatMap Json.refs else []) ++
        refsOf ms := by
  by_cases hname : m.1 = lit "blobs" ∨ m.1 = lit "stat"
  · rw [refsOf, List.filter_cons_of_pos (by simpa using hname), if_pos hname, List.flatMap_cons]
    rfl
  · rw [refsOf, List.filter_cons_of_neg (by simpa using hname), if_neg hname, List.nil_append]
    rfl

/-- **The whole loop.** -/
theorem foldl_addMember (members : List (Bytes × Json)) (e : SyncEnumeration) :
    members.foldl addMember e =
      ⟨(lastOf members).or e.last, e.blobRefs ++ refsOf members⟩ := by
  induction members generalizing e with
  | nil => rw [refsOf, List.filter_nil, List.flatMap_nil, List.append_nil]; rfl
  | cons m ms ih =>
    rw [List.foldl_cons, ih, lastOf_cons, refsOf_cons]
    refine congrArg₂ SyncEnumeration.mk ?_ ?_
    · rw [addMember, Option.or_assoc]
      split_ifs <;> rfl
    · show (if _ then _ else _) ++ refsOf ms = _
      split_ifs
      · rw [List.append_assoc]
      · rw [List.nil_append]

/-! ### Replies -/

theorem parseSyncEnumeration_yields (R : Json.Read) {content : Bytes}
    {members : List (Bytes × Json)} (hread : R content = some (.obj members)) :
    Yields (parseSyncEnumeration R content) (∀ m ∈ members, WellTypedMember m ∧ ShortMember m)
      (some ⟨lastOf members, refsOf members⟩) := by
  have hloop := Yields.foldlM parseMember_yields members ⟨none, []⟩
  rw [foldl_addMember, Option.or_none, List.nil_append] at hloop
  rw [parseSyncEnumeration, hread]
  exact (hloop.bind (f := fun e ↦ .ok (some e)) (yields_ok _)).congr (and_iff_left trivial)

theorem parseSyncEnumeration_of_not_obj (R : Json.Read) {content : Bytes}
    (h : ∀ members, R content ≠ some (.obj members)) :
    parseSyncEnumeration R content = .ok none := by
  rw [parseSyncEnumeration]
  split
  · rfl
  · exact absurd ‹_› (h _)
  · rfl

/-- **When a malformed reply is an absent one**: unless the content is an object with a member of
the wrong type, or with an array of `2 ^ 32` elements. -/
theorem malformedIsAbsent_iff (R : Json.Read) (content : Bytes) :
    MalformedIsAbsent R content ↔ ∀ members, R content = some (.obj members) →
      ∀ m ∈ members, WellTypedMember m ∧ ShortMember m := by
  constructor
  · rintro ⟨r, hparse, -⟩ members hread
    exact (parseSyncEnumeration_yields R hread).exists_iff.1 ⟨r, hparse⟩
  · intro h
    by_cases hobj : ∃ members, R content = some (.obj members)
    · obtain ⟨members, hread⟩ := hobj
      refine ⟨_, (parseSyncEnumeration_yields R hread).eq_ok (h members hread), fun e ↦ ?_⟩
      constructor
      · intro he
        exact ⟨members, hread, fun m hm ↦ (h members hread m hm).1, (Option.some.inj he).symm⟩
      · rintro ⟨members', hread', -, rfl⟩
        rw [hread] at hread'
        cases hread'
        rfl
    · refine ⟨none, parseSyncEnumeration_of_not_obj R fun ms hms ↦ hobj ⟨ms, hms⟩, fun e ↦ ?_⟩
      exact iff_of_false (fun he ↦ by cases he) fun ⟨ms, hms, _⟩ ↦ hobj ⟨ms, hms⟩

/-- A document whose `continueAfter` is a number. -/
def numericCursor : Json := .obj [(lit "blobs", .arr []), (lit "continueAfter", .int 1)]

/-- The library's own reader raises there. -/
theorem not_malformedIsAbsent_numericCursor :
    ¬MalformedIsAbsent (Json.reader .none) (numericCursor.write ++ crlf) := by
  have hplain : numericCursor.Plain := by
    refine .obj ?_ ?_
    · simp only [List.mem_cons, List.not_mem_nil, or_false, forall_eq_or_imp, forall_eq]
      exact ⟨plainStr_of_all (by decide), plainStr_of_all (by decide)⟩
    · simp only [List.mem_cons, List.not_mem_nil, or_false, forall_eq_or_imp, forall_eq]
      exact ⟨.arr (by simp), .int (by decide) (by decide)⟩
  rintro ⟨r, hparse, -⟩
  have hread := (Json.reader .none).read_write hplain
  obtain ⟨hcursor, -⟩ := (parseSyncEnumeration_yields _ hread).exists_iff.1 ⟨r, hparse⟩
    (lit "continueAfter", .int 1) (by simp)
  obtain ⟨s, hs⟩ := hcursor.last rfl
  cases hs

end Camlispp
