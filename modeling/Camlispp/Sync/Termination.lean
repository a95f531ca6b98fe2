import Camlispp.Daemon.Run
import Camlispp.Library.Walk

/-!
# When the get phase ends

The loop of the get phase goes on as long as the replies carry a `continueAfter`. It keeps no record
of the cursors it has been given, so against a peer whose replies depend on the URL alone it follows
a walk from cursor to cursor, and with finitely many cursors it ends exactly if the walk does not
return, **or the process stops on the way** at a blob that comes back empty (`getPhase_ends`).

## What the result rests on

* `exists_walk_eq_none_iff`: a walk through finitely many places ends if and only if it does not
  return. This is the only place where the number of cursors counts.
* `getPhase_succ_eq_none_iff`: the fuel of the loop runs out behind a reply that is an enumeration
  with a cursor, and nowhere else. So a loop that goes on for ever follows the walk for ever
  (`isSome_walk_of_getPhase`).
* Conversely the loop goes as far as the walk does, unless a round fails. Among the things a round
  can meet only one makes it fail, the empty blob of `getPhase_eq_assertFailed_iff`: what cannot be
  read has no cursor, and every other content is stored or refused (`getPhase_of_isSome_walk`).

What the peer sends for a blob, what is in the local index and what the other threads do in between
does not matter otherwise: the cursors come from the replies alone.
-/

open Bytes Walk

namespace Camlispp

section Cursors

variable {σ : Type} (R : Json.Read) (reply : Bytes → Option Bytes) (host : Bytes)

/-- The cursor of a content, if it is an enumeration that has one. -/
def cursorIn (content : Bytes) : Option Bytes :=
  match parseSyncEnumeration R content with
  | .ok (some syncEnumeration) => syncEnumeration.last
  | _ => none

/-- The cursor that is asked for after `last`. -/
def nextCursor (last : Bytes) : Option Bytes :=
  (reply (buildEnumerationUrl host last)).bind (cursorIn R)

/-- What is fetched depends on the URL alone. -/
def World.RepliesBy (w : World σ) (reply : Bytes → Option Bytes) : Prop :=
  ∀ s url, (w.fetchUrl s url none).1 = reply url

end Cursors

section Phase

variable {σ : Type} {R : Json.Read} {D : Digests} {cfg : Config} {env : Environment}
  {w : World σ} {reply : Bytes → Option Bytes} {host : Bytes} (hw : w.RepliesBy reply)

include hw

/-- **One round**: the fuel runs out only behind a reply that is an enumeration with a cursor. -/
theorem getPhase_succ_eq_none_iff {fuel : ℕ} {x : Syncing σ} {last : Bytes} :
    getPhase R D cfg env w host (fuel + 1) x last = .ok none ↔
      ∃ content e x' c, reply (buildEnumerationUrl host last) = some content ∧
        parseSyncEnumeration R content = .ok (some e) ∧
        e.blobRefs.foldlM (fetchMissing D cfg env w host)
          (fetchUrl w x (buildEnumerationUrl host last) none).2 = .ok x' ∧
        e.last = some c ∧ getPhase R D cfg env w host fuel x' c = .ok none := by
  have hbuffer : (fetchUrl w x (buildEnumerationUrl host last) none).1 =
      reply (buildEnumerationUrl host last) := hw x.world _
  rw [getPhase, ← hbuffer]
  rcases fetchUrl w x (buildEnumerationUrl host last) none with ⟨buffer, x₁⟩
  -- every other way out of the round comes back or fails
  constructor
  · intro h
    rcases buffer with - | content
    · cases h
    rcases hparse : parseSyncEnumeration R content with f | e
    · simp [hparse, bind, Except.bind] at h
    rcases e with - | e
    · simp [hparse, bind, Except.bind] at h
    rcases hfold : e.blobRefs.foldlM (fetchMissing D cfg env w host) x₁ with f | x'
    · simp [hparse, hfold, bind, Except.bind] at h
    rcases hlast : e.last with - | c
    · simp [hparse, hfold, hlast, bind, Except.bind] at h
    · refine ⟨content, e, x', c, rfl, hparse, hfold, hlast, ?_⟩
      simpa [hparse, hfold, hlast, bind, Except.bind] using h
  · rintro ⟨content, e, x', c, rfl, hparse, hfold, hlast, hrest⟩
    simpa [hparse, hfold, hlast, bind, Except.bind] using hrest

/-- A round in which the fuel runs out goes on from the next cursor. -/
theorem isSome_walk_of_getPhase {fuel : ℕ} {x : Syncing σ} {last : Bytes}
    (h : getPhase R D cfg env w host fuel x last = .ok none) :
    (Walk.walk (nextCursor R reply host) fuel last).isSome = true := by
  induction fuel generalizing x last with
  | zero => rfl
  | succ fuel ih =>
    obtain ⟨content, e, x', c, hreply, hparse, -, hlast, hrest⟩ :=
      (getPhase_succ_eq_none_iff hw).1 h
    have hnext : nextCursor R reply host last = some c := by
      rw [nextCursor, hreply, Option.bind_some, cursorIn, hparse]
      exact hlast
    rw [Walk.walk, hnext]
    exact ih hrest

omit hw in
variable (D cfg env w host) in
/-- A round over a reference does not fail, unless an empty blob comes back. -/
theorem exists_fetchMissing_eq_ok {y : Syncing σ} {ref : Bytes}
    (hne : ¬EmptyReply D cfg env w host y ref) :
    ∃ y', fetchMissing D cfg env w host y ref = .ok y' := by
  obtain ⟨y₁, hy₁⟩ := exists_serveOthers_eq_ok D cfg env w y
  rcases hget : y₁.store.get ref with - | b
  · have hstep : fetchMissing D cfg env w host y ref = fetchBlob D cfg env w host y₁ ref := by
      simp only [fetchMissing, hy₁, bind, Except.bind, hget]
    rcases fetchBlob_spec D cfg env w host y₁ ref with ⟨hnil, -⟩ | ⟨-, hok⟩
    · exact absurd ⟨y₁, hy₁, hget, hnil⟩ hne
    · rw [hstep]
      exact hok
  · exact ⟨y₁, by simp only [fetchMissing, hy₁, bind, Except.bind, hget]⟩

/-- The loop goes as far as the walk does, unless a blob comes back empty. -/
theorem getPhase_of_isSome_walk {fuel : ℕ} {x : Syncing σ} {last : Bytes}
    (hne : ∀ n y ref, GetTurn R D cfg env w host n x last y ref →
      ¬EmptyReply D cfg env w host y ref)
    (h : (Walk.walk (nextCursor R reply host) fuel last).isSome = true) :
    getPhase R D cfg env w host fuel x last = .ok none := by
  induction fuel generalizing x last with
  | zero => rfl
  | succ fuel ih =>
    obtain ⟨d, hd⟩ := Option.isSome_iff_exists.1 h
    obtain ⟨c, hc, hwalk⟩ := Option.bind_eq_some_iff.1 hd
    obtain ⟨content, hreply, hcursor⟩ := Option.bind_eq_some_iff.1 hc
    obtain ⟨e, hparse, hlast⟩ : ∃ e, parseSyncEnumeration R content = .ok (some e) ∧
        e.last = some c := by
      rw [cursorIn] at hcursor
      split at hcursor
      · exact ⟨_, ‹_›, hcursor⟩
      · cases hcursor
    have hfetch : fetchUrl w x (buildEnumerationUrl host last) none =
        (some content, (fetchUrl w x (buildEnumerationUrl host last) none).2) :=
      Prod.ext ((hw x.world _).trans hreply) rfl
    -- a round that failed would have met an empty blob
    rcases hfold : e.blobRefs.foldlM (fetchMissing D cfg env w host)
        (fetchUrl w x (buildEnumerationUrl host last) none).2 with f | x'
    · obtain ⟨before, ref, after, y, hrefs, hbefore, hfail⟩ := Except.foldlM_eq_error_iff.1 hfold
      obtain ⟨y', hy'⟩ := exists_fetchMissing_eq_ok D cfg env w host
        (hne 1 y ref (.here hfetch hparse hrefs hbefore))
      rw [hy'] at hfail
      cases hfail
    · refine (getPhase_succ_eq_none_iff hw).2 ⟨content, e, x', c, hreply, hparse, hfold, hlast, ?_⟩
      refine ih (fun n y ref hturn ↦ ?_) (Option.isSome_iff_exists.2 ⟨d, hwalk⟩)
      exact hne (n + 1) y ref (.next hfetch hparse hfold hlast hturn)

end Phase

/-- **When the get phase ends**, for a peer whose replies depend on the URL alone and carry finitely
many cursors: if and only if no cursor is asked for twice, or the process stops at an empty blob. -/
theorem getPhase_ends {σ : Type} (R : Json.Read) (D : Digests) (cfg : Config) (env : Environment)
    (w : World σ) (reply : Bytes → Option Bytes) (hw : w.RepliesBy reply)
    (hfin : {c | ∃ url content, reply url = some content ∧ cursorIn R content = some c}.Finite)
    (host : Bytes) (x : Syncing σ) :
    (∃ fuel, getPhase R D cfg env w host fuel x [] ≠ .ok none) ↔
      NoReturn (nextCursor R reply host) [] ∨
        ∃ fuel y blobRef, GetTurn R D cfg env w host fuel x [] y blobRef ∧
          EmptyReply D cfg env w host y blobRef := by
  constructor
  · rintro ⟨fuel, hfuel⟩
    refine or_iff_not_imp_right.2 fun hno ↦ noReturn_of_walk_eq_none (n := fuel) ?_
    by_contra hsome
    exact hfuel (getPhase_of_isSome_walk hw
      (fun n y ref hturn hempty ↦ hno ⟨n, y, ref, hturn, hempty⟩)
      (Option.isSome_iff_ne_none.2 hsome))
  · rintro (hno | ⟨fuel, y, ref, hturn, hempty⟩)
    · -- the cursors that are followed are among those of the replies
      have hplaces : {c | ∃ last, nextCursor R reply host last = some c}.Finite := by
        refine hfin.subset fun c ⟨last, hnext⟩ ↦ ?_
        obtain ⟨content, hreply, hcursor⟩ := Option.bind_eq_some_iff.1 hnext
        exact ⟨_, content, hreply, hcursor⟩
      obtain ⟨n, hn⟩ := (exists_walk_eq_none_iff hplaces []).2 hno
      refine ⟨n, fun hphase ↦ ?_⟩
      have hsome := isSome_walk_of_getPhase hw hphase
      rw [hn] at hsome
      cases hsome
    · refine ⟨fuel, ?_⟩
      rw [getPhase_eq_assertFailed_iff.2 ⟨y, ref, hturn, hempty⟩]
      exact fun h ↦ by cases h

/-- A page without blobs that names a next one. -/
def pageBeforeA : Bytes :=
  (Json.obj [(lit "blobs", .arr []), (lit "continueAfter", .str (lit "a"))]).write ++ crlf

theorem cursorIn_pageBeforeA : cursorIn Json.plainReader pageBeforeA = some (lit "a") := by
  decide +kernel

/-- The cursors of a peer that has no other page. -/
theorem finite_cursors {reply : Bytes → Option Bytes}
    (h : ∀ url content, reply url = some content → content = pageBeforeA) :
    {c | ∃ url content, reply url = some content ∧
      cursorIn Json.plainReader content = some c}.Finite := by
  refine (Set.finite_singleton (lit "a")).subset ?_
  rintro c ⟨url, content, hreply, hcursor⟩
  rw [h url content hreply, cursorIn_pageBeforeA] at hcursor
  exact (Option.some.inj hcursor).symm

/-- A peer that has nothing behind its first page. -/
def onePage : World Unit where
  fetchUrl _ url _ :=
    (if url = lit "http://peer/enumerate-blobs" then some pageBeforeA else none, ())
  upload _ _ _ _ := (none, ())
  others _ := ([], ())

theorem getPhase_ends_onePage :
    ∃ fuel, getPhase Json.plainReader Digests.sample {} ⟨true, fun _ ↦ none, fun _ s ↦ s⟩ onePage
      (lit "http://peer") fuel ⟨(), .empty, []⟩ [] ≠ .ok none := by
  have hpage : ∀ url content, (if url = lit "http://peer/enumerate-blobs" then some pageBeforeA
      else none) = some content → content = pageBeforeA := by
    intro url content h
    split_ifs at h
    exact (Option.some.inj h).symm
  refine (getPhase_ends Json.plainReader Digests.sample {} ⟨true, fun _ ↦ none, fun _ s ↦ s⟩ onePage
    _ (fun _ _ ↦ rfl) (finite_cursors hpage) (lit "http://peer") ⟨(), .empty, []⟩).2 (Or.inl ?_)
  exact noReturn_of_walk_eq_none (n := 2) (by decide +kernel)

/-- A peer that ignores the cursor. -/
def samePage : World Unit where
  fetchUrl _ _ _ := (some pageBeforeA, ())
  upload _ _ _ _ := (none, ())
  others _ := ([], ())

/-- Its replies depend on nothing and carry one cursor, and the loop does not end. -/
theorem getPhase_samePage :
    samePage.RepliesBy (fun _ ↦ some pageBeforeA) ∧
      {c | ∃ url content, (fun _ : Bytes ↦ some pageBeforeA) url = some content ∧
        cursorIn Json.plainReader content = some c}.Finite ∧
      ∀ fuel, getPhase Json.plainReader Digests.sample {} ⟨true, fun _ ↦ none, fun _ s ↦ s⟩ samePage
        (lit "http://peer") fuel ⟨(), .empty, []⟩ [] = .ok none := by
  have hreplies : samePage.RepliesBy fun _ ↦ some pageBeforeA := fun _ _ ↦ rfl
  refine ⟨hreplies, finite_cursors fun _ _ h ↦ (Option.some.inj h).symm, fun fuel ↦ ?_⟩
  have hwalk : ∀ last, (Walk.walk (nextCursor Json.plainReader (fun _ ↦ some pageBeforeA)
      (lit "http://peer")) fuel last).isSome = true := by
    induction fuel with
    | zero => exact fun _ ↦ rfl
    | succ fuel ih =>
      intro last
      rw [Walk.walk, nextCursor, Option.bind_some, cursorIn_pageBeforeA]
      exact ih _
  refine getPhase_of_isSome_walk hreplies (fun _ _ _ _ ⟨_, _, _, hempty⟩ ↦ ?_) (hwalk [])
  have hne : pageBeforeA ≠ [] := by decide +kernel
  exact hne (Option.some.inj hempty)

end Camlispp
