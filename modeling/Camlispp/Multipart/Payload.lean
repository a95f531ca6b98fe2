import Mathlib.Data.List.Forall2
import Camlispp.Multipart.Encoding

/-!
# What becomes a payload

The reader on any body the `chunks` grammar accepts, with whatever line ends it has. `textOf` says
what the payload of a chunk ought to come from: the text behind the first empty line. The reader
finds the same text, but it keeps it only as the **last token** of the chunk, and it erases the
**last CRLF** of that token, wherever it stands.

Two kinds of chunks are misread, and no others (`payload_trims_iff`): a chunk with header lines and
nothing behind its empty line, whose last header line becomes the payload, and a chunk whose text
has a CRLF but does not end with one, which loses a CRLF from its interior.

## What the result rests on

* `exists_headerLines`: the tokens of a chunk are its header lines up to the first empty one, and
  what is behind it. The scan `textOf` finds the same place without the grammar
  (`textOf_of_oneLine`).
* `trims_eraseLast_iff`: erasing the last CRLF wherever it stands is erasing it at the end, unless
  there is none at the end and one inside.
* `sevenBit_of_mem_chunks`: what the `chunks` grammar passes on is 7-bit, so the rules for lines
  never meet a byte they would refuse.

`payloadsExact_iff` is then one chunk after the other (`forall₂_filterMap_iff`).
-/

open Bytes Peg

namespace Camlispp

/-! ### The text behind the first empty line -/

/-- What follows the first empty line; `fresh` says that a line begins here. -/
def behindEmptyLine : Bool → Bytes → Option Bytes
  | _, [] => none
  | fresh, 13 :: 10 :: s => if fresh then some s else behindEmptyLine true s
  | fresh, 13 :: s => if fresh then some s else behindEmptyLine true s
  | fresh, 10 :: s => if fresh then some s else behindEmptyLine true s
  | _, _ :: s => behindEmptyLine false s

/-- The text of a chunk, if it has an empty line. -/
def textOf (chunk : Bytes) : Option Bytes := behindEmptyLine true chunk

/-- A line end. -/
def IsEol (e : Bytes) : Prop := e = crlf ∨ e = [13] ∨ e = [10]

/-- The payload is the text without at most one line end at its very end. -/
def Trims (text payload : Bytes) : Prop := payload = text ∨ ∃ e, IsEol e ∧ text = payload ++ e

/-- Every part has the payload of its chunk. -/
def PayloadsExact (boundry body : Bytes) : Prop :=
  ∀ cs r, chunks boundry body = some (cs, r) →
    List.Forall₂ (fun text part ↦ Trims text (Part.payload part)) (cs.filterMap textOf)
      (multiPartFormData boundry body)

/-! ### Scanning lines -/

theorem behindEmptyLine_of_eol {s t : Bytes} (h : eol s = some ((), t)) (fresh : Bool) :
    behindEmptyLine fresh s = if fresh then some t else behindEmptyLine true t := by
  unfold eol at h
  split at h
  · obtain rfl := (Prod.mk.inj (Option.some.inj h)).2
    rw [behindEmptyLine]
  · next s hne =>
    obtain rfl := (Prod.mk.inj (Option.some.inj h)).2
    rw [behindEmptyLine]
    exact fun s' hs' ↦ hne s' (by rw [hs'])
  · obtain rfl := (Prod.mk.inj (Option.some.inj h)).2
    rw [behindEmptyLine]
  · cases h

theorem behindEmptyLine_cons {c : UInt8} (hcr : c ≠ 13) (hlf : c ≠ 10) (fresh : Bool) (s : Bytes) :
    behindEmptyLine fresh (c :: s) = behindEmptyLine false s := by
  rw [behindEmptyLine.eq_def]
  split <;> simp_all

/-- A line is passed over. -/
theorem behindEmptyLine_append {l : Bytes} (hl : OneLine l) (hne : l ≠ []) (fresh : Bool)
    (s : Bytes) : behindEmptyLine fresh (l ++ s) = behindEmptyLine false s := by
  induction l generalizing fresh with
  | nil => exact absurd rfl hne
  | cons c l ih =>
    have hcr : c ≠ 13 := fun h ↦ hl.1 (h ▸ List.mem_cons_self)
    have hlf : c ≠ 10 := fun h ↦ hl.2 (h ▸ List.mem_cons_self)
    rw [List.cons_append, behindEmptyLine_cons hcr hlf]
    rcases l with - | ⟨d, l⟩
    · rfl
    · exact ih ⟨fun h ↦ hl.1 (List.mem_cons_of_mem _ h), fun h ↦ hl.2 (List.mem_cons_of_mem _ h)⟩
        (List.cons_ne_nil d l) false

/-- A single line has no empty line in it. -/
theorem textOf_of_oneLine {s : Bytes} (hs : OneLine s) : textOf s = none := by
  rcases s with - | ⟨c, s⟩
  · rfl
  · have h := behindEmptyLine_append hs (List.cons_ne_nil c s) true []
    rwa [List.append_nil] at h

/-! ### Header lines -/

/-- A byte of a header line. -/
def isLineByte (b : UInt8) : Bool := b ≠ 13 && b ≠ 10 && b < 128

theorem lineByte_eq : lineByte = satisfy isLineByte := by
  funext s
  rcases s with - | ⟨c, s⟩
  · rfl
  · by_cases hc : c = 13 ∨ c = 10
    · have hno : isLineByte c = false := by rcases hc with rfl | rfl <;> rfl
      rw [lineByte, diff, if_pos (isSome_eol_cons.2 hc), satisfy, hno]
      rfl
    · obtain ⟨hcr, hlf⟩ := not_or.1 hc
      simp [lineByte, diff, eol_eq_none hcr hlf, satisfy, asciiChar, isLineByte, hcr, hlf]

theorem chunkHeader_eq (s : Bytes) :
    chunkHeader s = if s.takeWhile isLineByte = [] then none
      else (eol (s.dropWhile isLineByte)).map fun x ↦ (s.takeWhile isLineByte, x.2) := by
  rw [chunkHeader, Peg.map, seq, show diff asciiChar eol = lineByte from rfl, lineByte_eq,
    many1_satisfy]
  split_ifs with h
  · rfl
  · rw [Option.bind_some, Option.map_map]
    rfl

theorem oneLine_takeWhile (s : Bytes) : OneLine (s.takeWhile isLineByte) := by
  refine ⟨fun h ↦ ?_, fun h ↦ ?_⟩
  · exact absurd (List.mem_takeWhile_imp h) (by decide)
  · exact absurd (List.mem_takeWhile_imp h) (by decide)

/-- A 7-bit text behind a run of line bytes is empty or begins with a line end. -/
theorem eol_dropWhile {s : Bytes} (h7 : SevenBit s) :
    s.dropWhile isLineByte = [] ∨ (eol (s.dropWhile isLineByte)).isSome = true := by
  rcases hs : s.dropWhile isLineByte with - | ⟨c, t⟩
  · exact Or.inl rfl
  · have hc : isLineByte c = false := by
      have := List.head?_dropWhile_not isLineByte s
      rw [hs] at this
      simpa using this
    have hc7 : c < 128 := h7 c ((List.dropWhile_sublist _).subset (hs ▸ List.mem_cons_self))
    refine Or.inr (isSome_eol_cons.2 ?_)
    by_contra hne
    obtain ⟨hcr, hlf⟩ := not_or.1 hne
    simp [isLineByte, hcr, hlf, hc7] at hc

theorem subset_of_eol {s t : Bytes} (h : eol s = some ((), t)) : t ⊆ s := by
  unfold eol at h
  split at h
  · obtain rfl := (Prod.mk.inj (Option.some.inj h)).2
    exact fun b hb ↦ List.mem_cons_of_mem _ (List.mem_cons_of_mem _ hb)
  · obtain rfl := (Prod.mk.inj (Option.some.inj h)).2
    exact List.subset_cons_self _ _
  · obtain rfl := (Prod.mk.inj (Option.some.inj h)).2
    exact List.subset_cons_self _ _
  · cases h

/-- The header lines of a chunk: what the repetition takes, and where it stops. -/
structure HeaderLines (s : Bytes) (ls : List Bytes) (r : Bytes) : Prop where
  read : many chunkHeader s = some (ls, r)
  line : ∀ l ∈ ls, l ≠ [] ∧ OneLine l
  sevenBit : SevenBit r
  /-- Behind the lines stands the empty line, if there is one at all. -/
  text : textOf s = (eol r).map Prod.snd
  nil : ls = [] → r = s
  first : ls ≠ [] → eol s = none

/-- **The reader finds the first empty line.** By induction on what is left of the chunk. -/
theorem exists_headerLines {s : Bytes} (h7 : SevenBit s) : ∃ ls r, HeaderLines s ls r := by
  induction hlen : s.length using Nat.strong_induction_on generalizing s with
  | _ len ih =>
    have hsplit : s.takeWhile isLineByte ++ s.dropWhile isLineByte = s :=
      List.takeWhile_append_dropWhile
    rcases hs : chunkHeader s with - | ⟨l, s'⟩
    · refine ⟨[], s, many_of_none hs, by simp, h7, ?_, fun _ ↦ rfl, fun h ↦ absurd rfl h⟩
      -- no header line: an empty line stands here, or a line that is not ended, or nothing
      rcases he : eol s with - | ⟨⟨⟩, t⟩
      · rw [Option.map_none]
        refine textOf_of_oneLine ?_
        rw [chunkHeader_eq] at hs
        split_ifs at hs with hnil
        · have hdrop : s.dropWhile isLineByte = s := by rw [hnil] at hsplit; exact hsplit
          rcases eol_dropWhile h7 with h | h
          · rw [hdrop] at h
            exact h ▸ by decide
          · rw [hdrop, he] at h
            cases h
        · rcases eol_dropWhile h7 with h | h
          · rw [h, List.append_nil] at hsplit
            exact hsplit ▸ oneLine_takeWhile s
          · rw [Option.map_eq_none_iff.1 hs] at h
            cases h
      · rw [textOf, behindEmptyLine_of_eol he]
        rfl
    · -- a header line: the scan passes over it and its line end as well
      have hlt := consumes_chunkHeader hs
      rw [chunkHeader_eq] at hs
      split_ifs at hs with hnil
      obtain ⟨⟨⟨⟩, t⟩, he, heq⟩ := Option.map_eq_some_iff.1 hs
      obtain ⟨rfl, rfl⟩ := Prod.mk.inj heq
      change t.length + 1 ≤ s.length at hlt
      have h7' : SevenBit t := fun b hb ↦
        h7 b ((List.dropWhile_sublist _).subset (subset_of_eol he hb))
      obtain ⟨ls, r, hls⟩ := ih t.length (by omega) h7' rfl
      refine ⟨s.takeWhile isLineByte :: ls, r, ?_, ?_, hls.sevenBit, ?_,
        fun h ↦ absurd h (List.cons_ne_nil _ _), fun _ ↦ ?_⟩
      · refine many_of_some consumes_chunkHeader ?_ hls.read
        rw [chunkHeader_eq, if_neg hnil, he]
        rfl
      · exact List.forall_mem_cons.2 ⟨⟨hnil, oneLine_takeWhile s⟩, hls.line⟩
      · rw [← hls.text, textOf]
        calc behindEmptyLine true s
            = behindEmptyLine true (s.takeWhile isLineByte ++ s.dropWhile isLineByte) := by
              rw [hsplit]
          _ = behindEmptyLine false (s.dropWhile isLineByte) :=
              behindEmptyLine_append (oneLine_takeWhile s) hnil true _
          _ = behindEmptyLine true t := behindEmptyLine_of_eol he false
      · obtain ⟨c, l, hl⟩ := List.exists_cons_of_ne_nil hnil
        have hline : OneLine (c :: l) := hl ▸ oneLine_takeWhile s
        rw [← hsplit, hl, List.cons_append]
        exact eol_eq_none (fun h ↦ hline.1 (h ▸ List.mem_cons_self))
          (fun h ↦ hline.2 (h ▸ List.mem_cons_self)) _

/-! ### One chunk -/

/-- Nothing is trimmed to nothing. -/
theorem trims_nil_iff {payload : Bytes} : Trims [] payload ↔ payload = [] := by
  refine ⟨?_, Or.inl⟩
  rintro (h | ⟨e, he, h⟩)
  · exact h
  · exact (List.append_eq_nil_iff.1 h.symm).1

/-- Erasing the last CRLF trims a text exactly if no other text is behind that CRLF. -/
theorem trims_eraseLast_iff {text : Bytes} :
    Trims text (eraseLast crlf text) ↔ (crlf <:+: text → crlf <:+ text) := by
  constructor
  · intro h hocc
    have hlen := length_eraseLast (show crlf ≠ [] by decide) hocc
    rw [show crlf.length = 2 from rfl] at hlen
    rcases h with h | ⟨e, he, h⟩
    · rw [h] at hlen
      omega
    · -- two bytes went, so the line end that went is the CRLF
      have htwo : e.length = 2 := by
        have := congrArg List.length h
        rw [List.length_append] at this
        omega
      rcases he with rfl | rfl | rfl
      · exact ⟨_, h.symm⟩
      · cases htwo
      · cases htwo
  · intro h
    rcases Classical.em (crlf <:+: text) with hocc | hocc
    · obtain ⟨u, rfl⟩ := h hocc
      rw [eraseLast_append u (by decide)]
      exact Or.inr ⟨crlf, Or.inl rfl, rfl⟩
    · exact Or.inl (eraseLast_eq_self (by decide) hocc)

/-- The tokens of a chunk: its header lines, and its text if there is any. -/
theorem HeaderLines.chunkTokens_eq {s : Bytes} {ls : List Bytes} {r : Bytes}
    (h : HeaderLines s ls r) :
    chunkTokens s = (textOf s).map fun text ↦ (ls ++ if text = [] then [] else [text], []) := by
  rw [chunkTokens, Peg.map, seq, h.read, Option.bind_some, h.text, seq]
  rcases he : eol r with - | ⟨⟨⟩, text⟩
  · rfl
  · have hbody : many chunkBody text = some (if text = [] then [] else [text], []) := by
      split_ifs with hnil
      · rw [hnil]
        exact many_of_none rfl
      · exact many_chunkBody hnil fun b hb ↦ h.sevenBit b (subset_of_eol he hb)
    rw [Option.bind_some, hbody]
    rfl

/-- **One chunk.** Its part has the right payload exactly if there is a text or no header line, and
no CRLF inside the text but not at its end. -/
theorem payload_trims_iff {s text : Bytes} (h7 : SevenBit s) (htext : textOf s = some text)
    {tokens : List Bytes} {t : Bytes} (htokens : chunkTokens s = some (tokens, t)) :
    Trims text (Part.ofTokens tokens).payload ↔
      (text = [] → (eol s).isSome = true) ∧ (crlf <:+: text → crlf <:+ text) := by
  obtain ⟨ls, r, hls⟩ := exists_headerLines h7
  rw [hls.chunkTokens_eq, htext] at htokens
  obtain ⟨rfl, rfl⟩ := Prod.mk.inj (Option.some.inj htokens)
  have hr : (eol r).isSome = true := by
    rw [← Option.isSome_map, ← hls.text, htext]
    rfl
  rcases eq_or_ne text [] with rfl | hne
  · -- no text: the last header line stands in its place, if there is one
    rw [if_pos rfl, List.append_nil, trims_nil_iff]
    have hcrlf : crlf <:+: ([] : Bytes) → crlf <:+ ([] : Bytes) := by decide
    rcases List.eq_nil_or_concat ls with rfl | ⟨ls, l, rfl⟩
    · rw [hls.nil rfl] at hr
      exact ⟨fun _ ↦ ⟨fun _ ↦ hr, hcrlf⟩, fun _ ↦ rfl⟩
    · rw [List.concat_eq_append] at hls ⊢
      obtain ⟨hl, hline⟩ := hls.line l (by simp)
      have hnot : ¬crlf <:+: l := fun h ↦ hline.1 (h.subset (by decide))
      rw [Part.payload_ofTokens_append, eraseLast_eq_self (by decide) hnot,
        hls.first (by simp)]
      exact ⟨fun h ↦ absurd h hl, fun h ↦ absurd (h.1 rfl) (by decide)⟩
  · rw [if_neg hne, Part.payload_ofTokens_append, trims_eraseLast_iff]
    exact ⟨fun h ↦ ⟨fun hnil ↦ absurd hnil hne, h⟩, fun h ↦ h.2⟩

/-! ### All chunks -/

theorem gives_chunk (boundry : Bytes) : Gives (chunk boundry) SevenBit := by
  have hascii : Gives asciiChar (· < 128) := fun _ _ _ h ↦
    of_decide_eq_true (gives_satisfy (fun b : UInt8 ↦ decide (b < 128)) h)
  have hbyte : Gives (chunkByte boundry) (· < 128) := (hascii.diff _).diff _
  exact Gives.map fun _ _ _ h ↦ ((gives_true _).seq hbyte.many1 h).2

/-- The chunks of a body are 7-bit, whatever the body is. -/
theorem sevenBit_of_mem_chunks {boundry s : Bytes} {cs : List Bytes} {r : Bytes}
    (h : chunks boundry s = some (cs, r)) : ∀ c ∈ cs, SevenBit c := by
  refine Gives.map (P := fun cs ↦ ∀ c ∈ cs, SevenBit c) (fun s x r hx ↦ ?_) h
  obtain ⟨hfirst, hrest, -⟩ :=
    (gives_chunk boundry).seq ((gives_chunk boundry).many.seq (gives_true _)) hx
  refine List.forall_mem_cons.2 ⟨hfirst, fun c hc ↦ ?_⟩
  rcases List.mem_append.1 hc with hc | hc
  · exact hrest c hc
  · rw [List.mem_singleton.1 hc]
    exact fun b hb ↦ absurd hb List.not_mem_nil

theorem forall₂_filterMap_iff {α β γ : Type} {R : β → γ → Prop} {f : α → Option β}
    {g : α → Option γ} {l : List α} (hfg : ∀ a ∈ l, (f a).isSome = (g a).isSome) :
    List.Forall₂ R (l.filterMap f) (l.filterMap g) ↔
      ∀ a ∈ l, ∀ b c, f a = some b → g a = some c → R b c := by
  induction l with
  | nil => simp
  | cons a l ih =>
    obtain ⟨ha, hl⟩ := List.forall_mem_cons.1 hfg
    rw [List.forall_mem_cons, ← ih hl]
    rcases hf : f a with - | b
    · rw [hf] at ha
      rw [List.filterMap_cons_none hf, List.filterMap_cons_none (by simpa using ha.symm)]
      simp
    · rw [hf] at ha
      obtain ⟨c, hc⟩ := Option.isSome_iff_exists.1 ha.symm
      rw [List.filterMap_cons_some hf, List.filterMap_cons_some hc, List.forall₂_cons]
      simp [hc]

/-- **Only payloads are stored, exactly when** every chunk with an empty line has a text behind it
or begins with it, and no text has a CRLF inside without one at its end. -/
theorem payloadsExact_iff (boundry body : Bytes) :
    PayloadsExact boundry body ↔ ∀ cs r, chunks boundry body = some (cs, r) →
      ∀ c ∈ cs, ∀ text, textOf c = some text →
        (text = [] → (eol c).isSome = true) ∧ (crlf <:+: text → crlf <:+ text) := by
  refine forall_congr' fun cs ↦ forall_congr' fun r ↦ forall_congr' fun hcs ↦ ?_
  have h7 := sevenBit_of_mem_chunks hcs
  have hparts : multiPartFormData boundry body =
      cs.filterMap fun c ↦ (chunkTokens c).map fun x ↦ Part.ofTokens x.1 := by
    rw [multiPartFormData, hcs]
  -- the chunks that have a text are those that become parts, so the lists go together
  have hsome : ∀ c ∈ cs, (textOf c).isSome =
      ((chunkTokens c).map fun x ↦ Part.ofTokens x.1).isSome := by
    intro c hc
    obtain ⟨ls, t, hls⟩ := exists_headerLines (h7 c hc)
    rw [Option.isSome_map, hls.chunkTokens_eq, Option.isSome_map]
  rw [hparts, forall₂_filterMap_iff hsome]
  refine forall_congr' fun c ↦ forall_congr' fun hc ↦ forall_congr' fun text ↦ ?_
  constructor
  · intro h htext
    have hisSome := hsome c hc
    rw [htext, Option.isSome_map] at hisSome
    obtain ⟨⟨tokens, t⟩, htokens⟩ := Option.isSome_iff_exists.1 hisSome.symm
    exact (payload_trims_iff (h7 c hc) htext htokens).1 (h _ htext (by rw [htokens]; rfl))
  · intro h part htext hpart
    obtain ⟨⟨tokens, t⟩, htokens, rfl⟩ := Option.map_eq_some_iff.1 hpart
    exact (payload_trims_iff (h7 c hc) htext htokens).2 (h htext)

/-- A part with a header line and nothing behind the empty line: the line becomes the payload. -/
theorem not_payloadsExact_header :
    ¬PayloadsExact (lit "b") (lit "--b\r\nA: x\r\n\r\n--b--") := by
  intro h
  have hforall := List.forall₂_map_right_iff.2 (h [lit "A: x\r\n\r\n", []] [] (by decide +kernel))
  have htexts : [lit "A: x\r\n\r\n", []].filterMap textOf = [[]] := by decide +kernel
  have hparts : (multiPartFormData (lit "b") (lit "--b\r\nA: x\r\n\r\n--b--")).map Part.payload =
      [lit "A: x"] := by decide +kernel
  rw [htexts, hparts, List.forall₂_cons, trims_nil_iff] at hforall
  exact absurd hforall.1 (by decide)

end Camlispp
