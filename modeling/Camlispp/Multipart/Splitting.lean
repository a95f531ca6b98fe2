import Camlispp.Multipart.ContentType
import Camlispp.Store.BlobKey

/-!
# Splitting at a separator

`create_blob_key` splits at the first dash, `Part::add_header` at the first colon, and both keep the
position in an `unsigned` that they compare with `npos`. What a split gives is said once, for any
separator (`splitUnsigned_append_iff`); here it is read off for keys and for headers.

A text without the separator is not noticed by either: it becomes both sides of the split. A
separator from position 2^32 - 1 on is cut in the wrong place. Everywhere else the split is exact,
and the only other texts `add_header` does no harm to are those whose wrong value is not a header
value, so that nothing is added (`splits_iff`).

## What the result rests on

* `splitUnsigned_append_iff`: the split is right exactly if the position behind the separator fits
  in 32 bits. It is the general fact, and `splits_iff` is three instances of it.
* `mem_splitUnsigned_of_le` is its other half, for a separator that comes too late.

The position is compared with a 64-bit `npos` that it can never be, and so there is no branch for a
text without a separator in any of the three places.
-/

open Bytes Peg

namespace Camlispp

/-- The first `c` is where an `unsigned` position, and the position behind it, can point to. -/
def InReach (c : UInt8) (s : Bytes) : Prop := ∃ u v, s = u ++ c :: v ∧ c ∉ u ∧ u.length + 1 < 2 ^ 32

theorem splitUnsigned_exact_iff {c : UInt8} {s : Bytes} :
    (c ∉ (splitUnsigned c s).1 ∧ (splitUnsigned c s).1 ++ c :: (splitUnsigned c s).2 = s) ↔
      InReach c s := by
  constructor
  · rintro ⟨hnot, hs⟩
    refine ⟨_, _, hs.symm, hnot, ?_⟩
    rw [← splitUnsigned_append_iff (v := (splitUnsigned c s).2) hnot, hs]
  · rintro ⟨u, v, rfl, hu, hlen⟩
    rw [(splitUnsigned_append_iff hu).2 hlen]
    exact ⟨hu, rfl⟩

/-! ### Keys -/

/-- A key is made of exactly the texts with a dash, and then it is a key of that text. -/
def KeyExact (s : Bytes) : Prop :=
  ((createBlobKey s).isSome ↔ 45 ∈ s) ∧
    ∀ k, createBlobKey s = some k → 45 ∉ k.hashType ∧ k.blobref = s

/-- A key whose type has no dash is made of its own text. -/
def KeyReturns (k : BlobKey) : Prop := 45 ∉ k.hashType → createBlobKey k.blobref = some k

theorem keyExact_iff {s : Bytes} : KeyExact s ↔ InReach 45 s := by
  rw [← splitUnsigned_exact_iff, KeyExact, createBlobKey_eq]
  constructor
  · rintro ⟨-, hkey⟩
    obtain ⟨hnot, hs⟩ := hkey _ rfl
    rw [BlobKey.blobref_eq] at hs
    exact ⟨hnot, hs⟩
  · rintro ⟨hnot, hs⟩
    have hmem : 45 ∈ s := by
      rw [← hs]
      exact List.mem_append_right _ List.mem_cons_self
    refine ⟨by simpa using hmem, fun k hk ↦ ?_⟩
    obtain rfl := Option.some.inj hk
    exact ⟨hnot, (BlobKey.blobref_eq _).trans hs⟩

/-! ### Headers -/

/-- The text begins a key of the header grammar. -/
def BeginsKey (s : Bytes) : Prop := ∃ b, s.head? = some b ∧ isKeyByte b = true

/-- A header is added only for a text with a colon: its name is what stands before the first one,
and what is parsed for its attributes is what stands behind. -/
def HeaderExact (s : Bytes) : Prop :=
  ∀ part : Part, part.addHeader s ≠ part → ∃ name value, s = name ++ 58 :: value ∧ 58 ∉ name ∧
    (splitUnsigned 58 s).2 = value ∧ ∃ tokens rest, headerTokens value = some (tokens, rest) ∧
      part.addHeader s = { part with headers := part.headers ++ [⟨name, OrdMap.collect tokens⟩] }

/-- What is taken for the value of a line does not begin like one: the whole line if it has no
colon, and otherwise what stands behind the colon's position modulo 2^32. -/
def Unread (s : Bytes) : Prop :=
  58 ∉ s ∧ ¬BeginsKey s ∨
    ∃ u v, s = u ++ 58 :: v ∧ 58 ∉ u ∧ ¬BeginsKey (s.drop ((u.length + 1) % 2 ^ 32))

theorem isSome_headerTokens_iff {s : Bytes} : (headerTokens s).isSome = true ↔ BeginsKey s := by
  -- only the first key can fail
  rw [headerTokens, isSome_map, isSome_seq (isSome_opt _), isSome_seq (isSome_many _), headerPair,
    isSome_map, isSome_seq (isSome_opt _), headerKey_eq, BeginsKey]
  cases s with
  | nil => simp
  | cons b s =>
    by_cases hb : isKeyByte b = true
    · simp [hb]
    · simp [hb]

/-- A value that the grammar refuses adds nothing. -/
theorem Part.addHeader_of_none {s : Bytes} (h : headerTokens (splitUnsigned 58 s).2 = none)
    (part : Part) : part.addHeader s = part := by
  have hne : findUnsigned (lit ":") s ≠ npos := findUnsigned_ne_npos _ _
  have h' : headerTokens (s.drop ((findUnsigned (lit ":") s + 1) % 2 ^ 32)) = none := h
  simp only [addHeader, if_neg hne, h']

/-- Any other value adds a header, with both sides of the split. -/
theorem Part.addHeader_of_some {s rest : Bytes} {tokens : List (Bytes × Bytes)}
    (h : headerTokens (splitUnsigned 58 s).2 = some (tokens, rest)) (part : Part) :
    part.addHeader s = { part with
      headers := part.headers ++ [⟨(splitUnsigned 58 s).1, OrdMap.collect tokens⟩] } := by
  have hne : findUnsigned (lit ":") s ≠ npos := findUnsigned_ne_npos _ _
  have h' : headerTokens (s.drop ((findUnsigned (lit ":") s + 1) % 2 ^ 32)) =
      some (tokens, rest) := h
  simp only [addHeader, if_neg hne, h']
  rfl

theorem Part.addHeader_ne_iff {s : Bytes} {part : Part} :
    part.addHeader s ≠ part ↔ BeginsKey (splitUnsigned 58 s).2 := by
  rcases h : headerTokens (splitUnsigned 58 s).2 with - | ⟨tokens, rest⟩
  · rw [addHeader_of_none h, ← isSome_headerTokens_iff, h]
    simp
  · rw [addHeader_of_some h, ← isSome_headerTokens_iff, h]
    refine iff_of_true (fun heq ↦ ?_) rfl
    have hlen := congrArg (fun p : Part ↦ p.headers.length) heq
    simp at hlen

/-- What is taken for the value. -/
theorem unread_iff {s : Bytes} : Unread s ↔ ¬BeginsKey (splitUnsigned 58 s).2 := by
  by_cases hmem : 58 ∈ s
  · obtain ⟨u, v, rfl, hu⟩ := List.eq_append_cons_of_mem hmem
    have hvalue : (splitUnsigned 58 (u ++ 58 :: v)).2 =
        (u ++ 58 :: v).drop ((u.length + 1) % 2 ^ 32) := by
      rw [splitUnsigned, findUnsigned, find_singleton_append hu, Option.getD_some, Nat.mod_add_mod]
    rw [hvalue]
    refine ⟨?_, fun h ↦ Or.inr ⟨u, v, rfl, hu, h⟩⟩
    rintro (h | ⟨u', v', heq, hu', h⟩)
    · exact absurd hmem h.1
    · have hlen : u.length = u'.length := by
        have hfind := find_singleton_append hu v
        rw [heq, find_singleton_append hu' v'] at hfind
        exact (Option.some.inj hfind).symm
      rwa [hlen]
  · rw [splitUnsigned_of_notMem hmem, Unread]
    refine ⟨?_, fun h ↦ Or.inl ⟨hmem, h⟩⟩
    rintro (h | ⟨u, v, rfl, -⟩)
    · exact h.2
    · exact absurd (List.mem_append_right u List.mem_cons_self) hmem

theorem headerExact_iff {s : Bytes} : HeaderExact s ↔ InReach 58 s ∨ Unread s := by
  rw [unread_iff]
  constructor
  · intro h
    by_cases hbegins : BeginsKey (splitUnsigned 58 s).2
    · obtain ⟨name, value, hs, hnot, hvalue, tokens, rest, htokens, hadd⟩ :=
        h ⟨[], []⟩ (Part.addHeader_ne_iff.2 hbegins)
      refine Or.inl (splitUnsigned_exact_iff.1 ?_)
      rw [Part.addHeader_of_some (hvalue ▸ htokens)] at hadd
      have hname : (splitUnsigned 58 s).1 = name := by simpa using hadd
      rw [hname, hvalue]
      exact ⟨hnot, hs.symm⟩
    · exact Or.inr hbegins
  · rintro (hreach | hbegins) part hadd
    · obtain ⟨hnot, hs⟩ := splitUnsigned_exact_iff.2 hreach
      rcases h : headerTokens (splitUnsigned 58 s).2 with - | ⟨tokens, rest⟩
      · exact absurd (Part.addHeader_of_none h part) hadd
      · exact ⟨_, _, hs.symm, hnot, rfl, tokens, rest, h, Part.addHeader_of_some h part⟩
    · exact absurd (Part.addHeader_ne_iff.1 hadd) hbegins

/-- **When splitting is exact**, for keys, for their texts, and for header lines. -/
theorem splits_iff (s : Bytes) (k : BlobKey) :
    (KeyExact s ↔ InReach 45 s) ∧
      (KeyReturns k ↔ (45 ∉ k.hashType → k.hashType.length + 1 < 2 ^ 32)) ∧
      (HeaderExact s ↔ InReach 58 s ∨ Unread s) :=
  ⟨keyExact_iff, forall_congr' createBlobKey_blobref_iff, headerExact_iff⟩

/-- The text `a` becomes the key `a-a`, and a header `a` with the attribute `a`. -/
theorem not_splits_a : ¬KeyExact (lit "a") ∧ ¬HeaderExact (lit "a") := by
  constructor
  · intro h
    exact absurd (h.1.1 (by decide)) (by decide)
  · intro h
    obtain ⟨name, value, hs, -⟩ := h ⟨[], []⟩ (by decide +kernel)
    have hmem : (58 : UInt8) ∈ lit "a" := by
      rw [hs]
      exact List.mem_append_right _ List.mem_cons_self
    exact absurd hmem (by decide)

end Camlispp
