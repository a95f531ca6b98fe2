import Camlispp.Multipart.FormData

/-!
# Encoded bodies are read back

The reader against the encoder of RFC 2046. `multiPartFormData_encode` reads an encoded body back
part by part, whatever the payloads contain, as long as header lines and payloads are 7-bit and
free of the delimiter.

Nothing weaker would do. `chunks_encode_of_eight` says what happens when one byte is not 7-bit: the
chunk stops in front of it, no boundary follows there, and **the whole body is refused**, the parts
in front of the offending byte included. `chunks_encode_of_ne` says the same of a boundary that is
not the one the body was written with, and `chunks_take_encode` of a body that breaks off.

## What the results rest on

* `Draft.Fits.clear`: in the text of a part no delimiter starts, **whatever stands behind it**. All
  results about whole bodies use this and nothing else about the payloads; a delimiter can neither
  lie in a payload nor begin there and end behind it, since it has no line end in it.
* `chunkValue_of_clear`: a clear 7-bit stretch is taken whole, up to something a chunk cannot go on
  with. What that is decides between the results: a closed delimiter when a body is read back, a
  byte above 127 or the end of the input when it is refused (`Halts`).
* `chunkTokens_text`: the tokens of one chunk, by the same reading of a line up to its end.

The two kinds of refusal come from one lemma, `exists_many_chunk_of_halts`: the chunks end there,
and no closing boundary follows.
-/

open Bytes Peg

namespace Camlispp

/-! ### The encoder -/

/-- A part before it is written: its header lines and its payload. -/
structure Draft where
  lines : List Bytes
  payload : Bytes

/-- A part as it stands between two boundary lines. -/
def Draft.text (d : Draft) : Bytes :=
  (d.lines.map (· ++ crlf)).flatten ++ crlf ++ d.payload ++ crlf

/-- The delimiter of a boundary. -/
def delimiter (boundry : Bytes) : Bytes := lit "--" ++ boundry

/-- The parts, each behind its boundary line. -/
def encodeParts (boundry : Bytes) (parts : List Draft) : Bytes :=
  (parts.map fun d ↦ delimiter boundry ++ crlf ++ d.text).flatten

/-- The CRLF encoding of RFC 2046, with or without a line end behind the closing boundary. -/
def encode (boundry : Bytes) (parts : List Draft) (finalEol : Bool) : Bytes :=
  encodeParts boundry parts ++ delimiter boundry ++ lit "--" ++ if finalEol then crlf else []

/-- A boundary fits on one line. -/
def OneLine (s : Bytes) : Prop := 13 ∉ s ∧ 10 ∉ s

instance (s : Bytes) : Decidable (OneLine s) := inferInstanceAs (Decidable (_ ∧ _))

/-- What an encoder has to respect: header lines are non-empty lines, and the delimiter occurs in
no line and no payload. -/
structure Draft.Fits (d : Draft) (boundry : Bytes) : Prop where
  line : ∀ l ∈ d.lines, l ≠ [] ∧ OneLine l ∧ ¬delimiter boundry <:+: l
  payload : ¬delimiter boundry <:+: d.payload

/-- Every byte is 7-bit. -/
def SevenBit (s : Bytes) : Prop := ∀ b ∈ s, b < 128

instance (s : Bytes) : Decidable (SevenBit s) := inferInstanceAs (Decidable (∀ b ∈ s, b < 128))

/-- Header lines and payload are 7-bit. -/
def Draft.SevenBit (d : Draft) : Prop :=
  (∀ l ∈ d.lines, Camlispp.SevenBit l) ∧ Camlispp.SevenBit d.payload

section Reading

variable {boundry : Bytes} (hb : OneLine boundry)

/-! ### Boundaries -/

theorem delimiter_ne_nil (boundry : Bytes) : delimiter boundry ≠ [] := by
  simp [delimiter, lit]

include hb in
theorem cr_notMem_delimiter : 13 ∉ delimiter boundry := by
  simpa [delimiter, lit] using hb.1

include hb in
theorem lf_notMem_delimiter : 10 ∉ delimiter boundry := by
  simpa [delimiter, lit] using hb.2

theorem literal_seq_literal {α : Type} (p q : Bytes) (r : Peg UInt8 α) (s : Bytes) :
    seq (literal p) (seq (literal q) r) (p ++ q ++ s) =
      (r s).map fun x ↦ (((), (), x.1), x.2) := by
  rw [List.append_assoc]
  simp [seq, literal_append, Option.map_map, Function.comp_def]

theorem literal_seq_literal_eq_none {α : Type} {p q s : Bytes} (r : Peg UInt8 α)
    (h : ¬p ++ q <+: s) : seq (literal p) (seq (literal q) r) s = none := by
  by_cases hp : p <+: s
  · obtain ⟨t, rfl⟩ := hp
    have hq : ¬q <+: t := fun hq ↦ h ((List.prefix_append_right_inj p).2 hq)
    simp [seq, literal_append, literal_eq_none hq]
  · simp [seq, literal_eq_none hp]

theorem chunkBoundry_delimiter (s : Bytes) :
    chunkBoundry boundry (delimiter boundry ++ s) = (eol s).map fun x ↦ ((), x.2) := by
  rw [chunkBoundry, Peg.map, delimiter, literal_seq_literal, Option.map_map]
  rfl

theorem endBoundry_delimiter (s : Bytes) :
    endBoundry boundry (delimiter boundry ++ s) =
      (seq (literal (lit "--")) (opt eol) s).map fun x ↦ ((), x.2) := by
  rw [endBoundry, Peg.map, delimiter, literal_seq_literal, Option.map_map]
  rfl

theorem chunkBoundry_eq_none {s : Bytes} (h : ¬delimiter boundry <+: s) :
    chunkBoundry boundry s = none := by
  rw [chunkBoundry, Peg.map, literal_seq_literal_eq_none _ h, Option.map_none]

theorem endBoundry_eq_none {s : Bytes} (h : ¬delimiter boundry <+: s) :
    endBoundry boundry s = none := by
  rw [endBoundry, Peg.map, literal_seq_literal_eq_none _ h, Option.map_none]

/-- A delimiter is followed by a line end or by two dashes. -/
inductive Closes : Bytes → Prop
  | line (t : Bytes) : Closes (crlf ++ t)
  | last (t : Bytes) : Closes (lit "--" ++ t)

/-- One byte of a chunk. -/
def chunkByte (boundry : Bytes) : Peg UInt8 UInt8 :=
  diff (diff asciiChar (endBoundry boundry)) (chunkBoundry boundry)

theorem consumes_chunkByte (boundry : Bytes) : Consumes 1 (chunkByte boundry) :=
  (consumes_asciiChar.diff _).diff _

theorem chunkByte_of_clear {c : UInt8} {s : Bytes} (hc : c < 128)
    (h : ¬delimiter boundry <+: c :: s) : chunkByte boundry (c :: s) = some (c, s) := by
  simp [chunkByte, diff, chunkBoundry_eq_none h, endBoundry_eq_none h, asciiChar, satisfy, hc]

theorem chunkByte_delimiter {t : Bytes} (ht : Closes t) :
    chunkByte boundry (delimiter boundry ++ t) = none := by
  cases ht with
  | line t => simp [chunkByte, diff, chunkBoundry_delimiter, eol_crlf]
  | last t =>
    have hend : (endBoundry boundry (delimiter boundry ++ (lit "--" ++ t))).isSome := by
      rw [endBoundry_delimiter]
      rcases he : eol t with - | ⟨u, r⟩
      · simp [seq, literal_append, opt, he]
      · simp [seq, literal_append, opt, he]
    simp [chunkByte, diff, hend]

theorem chunkByte_of_eight {c : UInt8} (hc : ¬c < 128) (s : Bytes) :
    chunkByte boundry (c :: s) = none := by
  simp [chunkByte, diff, asciiChar, satisfy, hc]

/-! ### One chunk -/

include hb in
/-- Inside the text of a fitting part no delimiter starts. -/
theorem Draft.Fits.clear {d : Draft} (hd : d.Fits boundry) (t : Bytes) :
    Clear (delimiter boundry) d.text t := by
  have hcr := cr_notMem_delimiter hb
  have hlf := lf_notMem_delimiter hb
  have hline : ∀ t, Clear (delimiter boundry) crlf t := fun t ↦
    (clear_singleton (delimiter_ne_nil _) hcr _).append (clear_singleton (delimiter_ne_nil _) hlf _)
  have hlines : ∀ ls : List Bytes, (∀ l ∈ ls, ¬delimiter boundry <:+: l) → ∀ t,
      Clear (delimiter boundry) (ls.map (· ++ crlf)).flatten t := by
    intro ls
    induction ls with
    | nil => exact fun _ t u₁ c u₂ h ↦ absurd h (by simp)
    | cons l ls ih =>
      intro hls t
      rw [List.map_cons, List.flatten_cons]
      refine Clear.append (Clear.append ?_ (hline _)) (ih (fun l' hl' ↦ ?_) t)
      · exact clear_of_not_infix hcr (hls l List.mem_cons_self) _
      · exact hls l' (List.mem_cons_of_mem _ hl')
  rw [Draft.text]
  refine Clear.append (Clear.append (Clear.append ?_ (hline _)) ?_) (hline _)
  · exact hlines _ (fun l hl ↦ (hd.line l hl).2.2) _
  · exact clear_of_not_infix hcr hd.payload _

theorem SevenBit.append {a b : Bytes} (ha : SevenBit a) (hb : SevenBit b) : SevenBit (a ++ b) := by
  intro c hc
  rcases List.mem_append.1 hc with h | h
  · exact ha c h
  · exact hb c h

theorem sevenBit_crlf : SevenBit crlf := show ∀ b ∈ crlf, b < 128 by decide +kernel

theorem Draft.SevenBit.text {d : Draft} (hd : d.SevenBit) : Camlispp.SevenBit d.text := by
  rw [Draft.text]
  refine SevenBit.append (SevenBit.append (SevenBit.append ?_ sevenBit_crlf) hd.2) sevenBit_crlf
  intro c hc
  obtain ⟨m, hm, hcm⟩ := List.mem_flatten.1 hc
  obtain ⟨l, hl, rfl⟩ := List.mem_map.1 hm
  exact (hd.1 l hl).append sevenBit_crlf c hcm

/-- A clear 7-bit stretch in front of something a chunk cannot continue with is taken whole. -/
theorem many_chunkByte {u t : Bytes} (hclear : Clear (delimiter boundry) u t) (hu : SevenBit u)
    (ht : chunkByte boundry t = none) : many (chunkByte boundry) (u ++ t) = some (u, t) := by
  refine many_append (consumes_chunkByte boundry) (fun u₁ c u₂ h ↦ ?_) ht
  exact chunkByte_of_clear (hu c (h ▸ by simp)) (hclear u₁ c u₂ h)

theorem chunkValue_of_clear {u t : Bytes} (hne : u ≠ []) (hclear : Clear (delimiter boundry) u t)
    (hu : SevenBit u) (ht : chunkByte boundry t = none) :
    chunkValue boundry (u ++ t) = some (u, t) := by
  obtain ⟨c, v, rfl⟩ := List.exists_cons_of_ne_nil hne
  exact many1_of_many (consumes_chunkByte boundry) (many_chunkByte hclear hu ht)

theorem chunk_of_value (boundry s : Bytes) :
    chunk boundry (delimiter boundry ++ crlf ++ s) = chunkValue boundry s := by
  rw [chunk, Peg.map, List.append_assoc]
  rcases h : chunkValue boundry s with - | x
  · simp [seq, chunkBoundry_delimiter, eol_crlf, h]
  · simp [seq, chunkBoundry_delimiter, eol_crlf, h]

include hb in
/-- **One encoded part is one chunk.** -/
theorem chunk_encode {d : Draft} (hd : d.Fits boundry) (h7 : d.SevenBit) {t : Bytes}
    (ht : Closes t) :
    chunk boundry (delimiter boundry ++ crlf ++ (d.text ++ (delimiter boundry ++ t))) =
      some (d.text, delimiter boundry ++ t) := by
  rw [chunk_of_value]
  have hne : d.text ≠ [] := by simp [Draft.text, crlf]
  exact chunkValue_of_clear hne (hd.clear hb _) h7.text (chunkByte_delimiter ht)

/-- No chunk starts at the closing boundary. -/
theorem chunk_last (t : Bytes) : chunk boundry (delimiter boundry ++ (lit "--" ++ t)) = none := by
  simp [chunk, Peg.map, seq, chunkBoundry_delimiter, lit, eol]

/-! ### All chunks -/

theorem encodeParts_cons (boundry : Bytes) (d : Draft) (ds : List Draft) :
    encodeParts boundry (d :: ds) =
      delimiter boundry ++ crlf ++ (d.text ++ encodeParts boundry ds) := by
  simp [encodeParts]

/-- What follows a part begins with the delimiter, and the delimiter is closed. -/
theorem exists_closes (boundry : Bytes) (ds : List Draft) {t : Bytes} (ht : Closes t) :
    ∃ t', Closes t' ∧ encodeParts boundry ds ++ (delimiter boundry ++ t) =
      delimiter boundry ++ t' := by
  cases ds with
  | nil => exact ⟨t, ht, rfl⟩
  | cons d ds =>
    refine ⟨_, Closes.line (d.text ++ (encodeParts boundry ds ++ (delimiter boundry ++ t))), ?_⟩
    rw [encodeParts_cons]
    simp only [List.append_assoc]

include hb in
/-- The chunks of any number of parts, in front of any closed delimiter that starts no further
chunk. -/
theorem many_chunk_encodeParts {ds : List Draft} (hd : ∀ d ∈ ds, d.Fits boundry)
    (h7 : ∀ d ∈ ds, d.SevenBit) {t : Bytes} (ht : Closes t) {cs : List Bytes} {r : Bytes}
    (hmany : many (chunk boundry) (delimiter boundry ++ t) = some (cs, r)) :
    many (chunk boundry) (encodeParts boundry ds ++ (delimiter boundry ++ t)) =
      some (ds.map Draft.text ++ cs, r) := by
  induction ds with
  | nil => exact hmany
  | cons d ds ih =>
    obtain ⟨t', ht', heq⟩ := exists_closes boundry ds ht
    have hrest := ih (fun d' h ↦ hd d' (List.mem_cons_of_mem _ h))
      fun d' h ↦ h7 d' (List.mem_cons_of_mem _ h)
    have htext : encodeParts boundry (d :: ds) ++ (delimiter boundry ++ t) =
        delimiter boundry ++ crlf ++ (d.text ++ (delimiter boundry ++ t')) := by
      rw [← heq, encodeParts_cons]
      simp only [List.append_assoc]
    rw [heq] at hrest
    rw [htext]
    exact many_of_some (consumes_chunk boundry)
      (chunk_encode hb (hd d List.mem_cons_self) (h7 d List.mem_cons_self) ht') hrest

theorem encode_eq (boundry : Bytes) (ds : List Draft) (finalEol : Bool) :
    encode boundry ds finalEol = encodeParts boundry ds ++
      (delimiter boundry ++ (lit "--" ++ if finalEol then crlf else [])) := by
  simp [encode]

/-- `chunks` is a repetition of chunks that found at least one, then the closing boundary. -/
theorem chunks_of_many {s r r' : Bytes} {c : Bytes} {cs : List Bytes}
    (h : many (chunk boundry) s = some (c :: cs, r)) (hend : endBoundry boundry r = some ((), r')) :
    chunks boundry s = some (c :: cs ++ [[]], r') := by
  have h1 := many1_of_many (consumes_chunk boundry) h
  obtain ⟨x, hx, hx'⟩ := Option.map_eq_some_iff.1 h1
  obtain ⟨y, hy, hy'⟩ := Option.bind_eq_some_iff.1 hx
  obtain ⟨z, hz, rfl⟩ := Option.map_eq_some_iff.1 hy'
  obtain ⟨hcs, rfl⟩ := Prod.mk.inj hx'
  obtain ⟨rfl, rfl⟩ := List.cons.inj hcs
  simp [chunks, Peg.map, seq, hy, hz, hend]

include hb in
/-- **An encoded body is read back chunk by chunk.** -/
theorem chunks_encode {ds : List Draft} (hne : ds ≠ []) (hd : ∀ d ∈ ds, d.Fits boundry)
    (h7 : ∀ d ∈ ds, d.SevenBit) (finalEol : Bool) :
    chunks boundry (encode boundry ds finalEol) = some (ds.map Draft.text ++ [[]], []) := by
  obtain ⟨d, ds, rfl⟩ := List.exists_cons_of_ne_nil hne
  rw [encode_eq]
  have hmany := many_chunk_encodeParts hb hd h7
    (Closes.last (if finalEol then crlf else [])) (many_of_none (chunk_last _))
  rw [List.append_nil] at hmany
  refine chunks_of_many hmany ?_
  rw [endBoundry_delimiter]
  cases finalEol with
  | false => rfl
  | true => rfl

/-! ### The tokens of a chunk -/

/-- One byte of a header line. -/
def lineByte : Peg UInt8 UInt8 := diff asciiChar eol

theorem consumes_lineByte : Consumes 1 lineByte := consumes_asciiChar.diff _

theorem lineByte_crlf (t : Bytes) : lineByte (crlf ++ t) = none := by
  simp [lineByte, diff, eol_crlf]

theorem chunkHeader_line {l : Bytes} (hne : l ≠ []) (hl : OneLine l) (h7 : SevenBit l) (t : Bytes) :
    chunkHeader (l ++ (crlf ++ t)) = some (l, t) := by
  have hmany : many lineByte (l ++ (crlf ++ t)) = some (l, crlf ++ t) := by
    refine many_append consumes_lineByte (fun u₁ c u₂ h ↦ ?_) (lineByte_crlf t)
    have hc : c ∈ l := h ▸ by simp
    have hcr : c ≠ 13 := fun h ↦ hl.1 (h ▸ hc)
    have hlf : c ≠ 10 := fun h ↦ hl.2 (h ▸ hc)
    simp [lineByte, diff, eol_eq_none hcr hlf, asciiChar, satisfy, h7 c hc]
  obtain ⟨c, l, rfl⟩ := List.exists_cons_of_ne_nil hne
  have hmany1 : many1 lineByte (c :: l ++ (crlf ++ t)) = some (c :: l, crlf ++ t) :=
    many1_of_many consumes_lineByte hmany
  rw [chunkHeader, Peg.map, seq, show diff asciiChar eol = lineByte from rfl, hmany1]
  rfl

theorem chunkHeader_crlf (t : Bytes) : chunkHeader (crlf ++ t) = none := by
  have hmany1 : many1 lineByte (crlf ++ t) = none := many1_of_none (lineByte_crlf t)
  rw [chunkHeader, Peg.map, seq, show diff asciiChar eol = lineByte from rfl, hmany1]
  rfl

theorem many_chunkHeader_lines {ls : List Bytes} (hls : ∀ l ∈ ls, l ≠ [] ∧ OneLine l ∧ SevenBit l)
    (t : Bytes) :
    many chunkHeader ((ls.map (· ++ crlf)).flatten ++ (crlf ++ t)) = some (ls, crlf ++ t) := by
  induction ls with
  | nil => exact many_of_none (chunkHeader_crlf t)
  | cons l ls ih =>
    obtain ⟨hne, hl, h7⟩ := hls l List.mem_cons_self
    have hrest := ih fun l' h ↦ hls l' (List.mem_cons_of_mem _ h)
    have htext : ((l :: ls).map (· ++ crlf)).flatten ++ (crlf ++ t) =
        l ++ (crlf ++ ((ls.map (· ++ crlf)).flatten ++ (crlf ++ t))) := by
      simp
    rw [htext]
    exact many_of_some consumes_chunkHeader (chunkHeader_line hne hl h7 _) hrest

/-- A 7-bit text is one body. -/
theorem many_chunkBody {s : Bytes} (hne : s ≠ []) (h7 : SevenBit s) :
    many chunkBody s = some ([s], []) := by
  have hbyte : Consumes 1 (alt asciiChar (Peg.map (fun _ ↦ 10) eol)) :=
    consumes_asciiChar.alt (consumes_eol.map _)
  have hmany : many (alt asciiChar (Peg.map (fun _ ↦ 10) eol)) (s ++ []) = some (s, []) := by
    refine many_append hbyte (fun u₁ c u₂ h ↦ ?_) rfl
    have hc : c ∈ s := h ▸ by simp
    simp [alt, asciiChar, satisfy, h7 c hc]
  rw [List.append_nil] at hmany
  obtain ⟨c, s, rfl⟩ := List.exists_cons_of_ne_nil hne
  exact many_of_some consumes_chunkBody (many1_of_many hbyte hmany) (many_of_none rfl)

theorem chunkTokens_text {d : Draft} (hd : d.Fits boundry) (h7 : d.SevenBit) :
    chunkTokens d.text = some (d.lines ++ [d.payload ++ crlf], []) := by
  have htext : d.text = (d.lines.map (· ++ crlf)).flatten ++ (crlf ++ (d.payload ++ crlf)) := by
    simp [Draft.text]
  have hlines := many_chunkHeader_lines
    (fun l hl ↦ ⟨(hd.line l hl).1, (hd.line l hl).2.1, h7.1 l hl⟩) (d.payload ++ crlf)
  have hbody : many chunkBody (d.payload ++ crlf) = some ([d.payload ++ crlf], []) :=
    many_chunkBody (by simp [crlf]) (h7.2.append sevenBit_crlf)
  rw [chunkTokens, Peg.map, seq, htext, hlines, Option.bind_some, seq, eol_crlf, Option.bind_some,
    hbody]
  rfl

/-- The part that is read for a draft. -/
def Draft.part (d : Draft) : Part := Part.ofTokens (d.lines ++ [d.payload ++ crlf])

@[simp] theorem Draft.payload_part (d : Draft) : d.part.payload = d.payload := by
  rw [Draft.part, Part.payload_ofTokens_append]
  exact eraseLast_append d.payload (by decide)

include hb in
/-- **An encoded body is read back part by part**, each from its own text. -/
theorem chunkParts_encode {ds : List Draft} (hd : ∀ d ∈ ds, d.Fits boundry)
    (h7 : ∀ d ∈ ds, d.SevenBit) (finalEol : Bool) :
    chunkParts boundry (encode boundry ds finalEol) = ds.map fun d ↦ (d.text, d.part) := by
  rcases ds with - | ⟨d, ds⟩
  · rw [chunkParts, encode_eq]
    have hnone : chunks boundry
        (delimiter boundry ++ (lit "--" ++ if finalEol then crlf else [])) = none := by
      rw [chunks, Peg.map, seq, chunk_last]
      rfl
    simp [encodeParts, hnone]
  rw [chunkParts, chunks_encode hb (List.cons_ne_nil d ds) hd h7 finalEol]
  have hparts : ∀ e ∈ d :: ds,
      ((chunkTokens e.text).map fun x ↦ (e.text, Part.ofTokens x.1)) = some (e.text, e.part) := by
    intro e he
    rw [chunkTokens_text (hd e he) (h7 e he)]
    rfl
  -- the empty string of the closing boundary has no tokens
  have hlast : ([[]] : List Bytes).filterMap
      (fun c ↦ (chunkTokens c).map fun x ↦ (c, Part.ofTokens x.1)) = [] := rfl
  show ((d :: ds).map Draft.text ++ [[]]).filterMap _ = _
  rw [List.filterMap_append, List.filterMap_map, hlast, List.append_nil, ← List.filterMap_eq_map]
  exact List.filterMap_congr hparts

include hb in
theorem multiPartFormData_encode {ds : List Draft} (hd : ∀ d ∈ ds, d.Fits boundry)
    (h7 : ∀ d ∈ ds, d.SevenBit) (finalEol : Bool) :
    multiPartFormData boundry (encode boundry ds finalEol) = ds.map Draft.part := by
  rw [← map_snd_chunkParts, chunkParts_encode hb hd h7, List.map_map]
  rfl

include hb in
/-- **Decoding undoes encoding**: the payloads come back in their order and byte for byte, whatever
line ends, blank lines and dashes they contain. -/
theorem payloads_encode (ds : List Draft) (hd : ∀ d ∈ ds, d.Fits boundry)
    (h7 : ∀ d ∈ ds, d.SevenBit) (finalEol : Bool) :
    (multiPartFormData boundry (encode boundry ds finalEol)).map Part.payload =
      ds.map Draft.payload := by
  rw [multiPartFormData_encode hb hd h7, List.map_map]
  exact List.map_congr_left fun d _ ↦ d.payload_part

/-- Payloads that look like headers, blank lines and boundaries. -/
theorem payloads_encode_lines :
    (multiPartFormData (lit "x") (encode (lit "x") [⟨[lit "A: b"], lit "\r\nC: d\n\r\n--\r--y\r\n"⟩,
      ⟨[], []⟩] false)).map Part.payload = [lit "\r\nC: d\n\r\n--\r--y\r\n", []] := by
  refine payloads_encode (by decide) [⟨[lit "A: b"], lit "\r\nC: d\n\r\n--\r--y\r\n"⟩, ⟨[], []⟩]
    (List.forall_mem_cons.2 ⟨⟨?_, ?_⟩, List.forall_mem_singleton.2 ⟨?_, ?_⟩⟩)
    (List.forall_mem_cons.2 ⟨⟨?_, ?_⟩, List.forall_mem_singleton.2 ⟨?_, ?_⟩⟩) false
  all_goals decide +kernel

/-! ### Refused bodies -/

/-- `chunks` fails where no closing boundary stands behind the repeated chunks. -/
theorem chunks_eq_none_of_many {s r : Bytes} {cs : List Bytes}
    (h : many (chunk boundry) s = some (cs, r)) (hend : endBoundry boundry r = none) :
    chunks boundry s = none := by
  rcases hs : chunk boundry s with - | ⟨c, s'⟩
  · simp [chunks, Peg.map, seq, hs]
  · have hs' : many (chunk boundry) s' = some (manyFuel (chunk boundry) s'.length s') := rfl
    have hcons := many_of_some (consumes_chunk boundry) hs hs'
    rw [hcons] at h
    obtain ⟨-, rfl⟩ := Prod.mk.inj (Option.some.inj h)
    simp [chunks, Peg.map, seq, hs, hs', hend]

theorem Draft.not_sevenBit_text {d : Draft} (hd : ¬d.SevenBit) : ¬Camlispp.SevenBit d.text := by
  refine fun h ↦ hd ⟨fun l hl b hb ↦ h b ?_, fun b hb ↦ h b ?_⟩
  · have hflat : b ∈ (d.lines.map (· ++ crlf)).flatten :=
      List.mem_flatten.2 ⟨l ++ crlf, List.mem_map_of_mem hl, List.mem_append_left _ hb⟩
    simp [Draft.text, hflat]
  · simp [Draft.text, hb]

theorem eight_not_delimiter {c : UInt8} (hc : ¬c < 128) (boundry s : Bytes) :
    ¬delimiter boundry <+: c :: s := by
  rintro ⟨t, ht⟩
  have hhead : (45 : UInt8) = c :=
    (List.cons.inj (show 45 :: (45 :: boundry ++ t) = c :: s from ht)).1
  exact hc (hhead ▸ by decide)

theorem endBoundry_line (t : Bytes) :
    endBoundry boundry (delimiter boundry ++ (crlf ++ t)) = none := by
  rw [endBoundry_delimiter]
  rfl

/-- Nothing of the grammar goes on here. -/
structure Halts (boundry r : Bytes) : Prop where
  value : chunkByte boundry r = none
  line : chunkBoundry boundry r = none
  last : endBoundry boundry r = none

theorem halts_nil (boundry : Bytes) : Halts boundry [] := by
  have hno : ¬delimiter boundry <+: [] := by simp [delimiter_ne_nil]
  exact ⟨by simp [chunkByte, diff, asciiChar, satisfy], chunkBoundry_eq_none hno,
    endBoundry_eq_none hno⟩

theorem halts_of_eight {c : UInt8} (hc : ¬c < 128) (boundry s : Bytes) : Halts boundry (c :: s) :=
  ⟨chunkByte_of_eight hc s, chunkBoundry_eq_none (eight_not_delimiter hc boundry s),
    endBoundry_eq_none (eight_not_delimiter hc boundry s)⟩

/-- Chunks stop where nothing of the grammar goes on, and no closing boundary stands there. -/
theorem exists_many_chunk_of_halts {u r : Bytes} (hclear : Clear (delimiter boundry) u r)
    (hu : SevenBit u) (hr : Halts boundry r) :
    ∃ cs r', many (chunk boundry) (delimiter boundry ++ (crlf ++ (u ++ r))) = some (cs, r') ∧
      endBoundry boundry r' = none := by
  -- the first chunk has nothing in it, or it is the only one
  by_cases hne : u = []
  · subst hne
    refine ⟨[], _, many_of_none ?_, endBoundry_line _⟩
    rw [← List.append_assoc, chunk_of_value]
    exact many1_of_none hr.value
  · have hvalue := chunkValue_of_clear hne hclear hu hr.value
    have hchunk := (chunk_of_value boundry _).trans hvalue
    rw [List.append_assoc] at hchunk
    refine ⟨[u], _, many_of_some (consumes_chunk boundry) hchunk (many_of_none ?_), hr.last⟩
    simp [chunk, Peg.map, seq, hr.line]

include hb in
/-- Chunks stop in front of a byte that is not 7-bit. -/
theorem exists_many_chunk_of_eight {d : Draft} (hd : d.Fits boundry) (h7 : ¬d.SevenBit)
    (t : Bytes) :
    ∃ cs r, many (chunk boundry) (delimiter boundry ++ (crlf ++ (d.text ++ t))) = some (cs, r) ∧
      endBoundry boundry r = none := by
  obtain ⟨u, c, v, htext, hu, hc⟩ := exists_first (Draft.not_sevenBit_text h7)
  have hsplit : d.text ++ t = u ++ (c :: (v ++ t)) := by rw [htext]; simp
  have hclear : Clear (delimiter boundry) u (c :: (v ++ t)) := by
    intro u₁ x u₂ h hpre
    refine hd.clear hb t u₁ x (u₂ ++ c :: v) ?_ (by simpa using hpre)
    rw [htext, h]
    simp
  rw [hsplit]
  exact exists_many_chunk_of_halts hclear hu (halts_of_eight hc boundry (v ++ t))

include hb in
/-- **One byte above 127 refuses the body.** -/
theorem chunks_encode_of_eight {ds : List Draft} (hd : ∀ d ∈ ds, d.Fits boundry)
    (h7 : ¬∀ d ∈ ds, d.SevenBit) (finalEol : Bool) :
    chunks boundry (encode boundry ds finalEol) = none := by
  -- the first part that is not 7-bit; the parts in front of it are chunks
  obtain ⟨ds₁, d, ds₂, rfl, h₁, hd7⟩ := exists_first h7
  have hbody : encode boundry (ds₁ ++ d :: ds₂) finalEol = encodeParts boundry ds₁ ++
      (delimiter boundry ++ (crlf ++ (d.text ++ (encodeParts boundry ds₂ ++ (delimiter boundry ++
        (lit "--" ++ if finalEol then crlf else [])))))) := by
    rw [encode_eq]
    simp [encodeParts]
  rw [hbody]
  obtain ⟨cs, r, hmany, hend⟩ :=
    exists_many_chunk_of_eight hb (hd d (by simp)) hd7 (encodeParts boundry ds₂ ++
      (delimiter boundry ++ (lit "--" ++ if finalEol then crlf else [])))
  exact chunks_eq_none_of_many (many_chunk_encodeParts hb (fun e he ↦ hd e (by simp [he])) h₁
    (Closes.line _) hmany) hend

include hb in
/-- In front of its closing boundary a body has no delimiter but the one it begins with. -/
theorem clear_of_short {d : Draft} (hd : d.Fits boundry) {u v : Bytes} (hv : v ≠ [])
    (hu : u ++ v = d.text ++ delimiter boundry) : Clear (delimiter boundry) u [] := by
  intro u₁ c u₂ h hpre
  have hlen := congrArg List.length hu
  have hpos := List.length_pos_of_ne_nil hv
  simp only [h, List.length_append, List.length_cons] at hlen
  rw [List.append_nil] at hpre
  have hshort := hpre.length_le
  rw [List.length_cons] at hshort
  -- it would start in the text of the part
  obtain ⟨w, hw⟩ : ∃ w, d.text = u₁ ++ w := by
    have hpre₁ : u₁ <+: d.text ++ delimiter boundry := ⟨c :: u₂ ++ v, by rw [← hu, h]; simp⟩
    have hle : u₁.length ≤ d.text.length := by omega
    obtain ⟨w, hw⟩ := List.prefix_of_prefix_length_le hpre₁ (List.prefix_append _ _) hle
    exact ⟨w, hw.symm⟩
  have hsame : c :: (u₂ ++ v) = w ++ delimiter boundry := by
    rw [h, hw] at hu
    simpa using hu
  rcases w with - | ⟨c', w⟩
  · have := congrArg List.length hsame
    simp only [List.length_cons, List.length_append, List.nil_append] at this
    omega
  · obtain ⟨rfl, htail⟩ := List.cons.inj hsame
    refine hd.clear hb (delimiter boundry) u₁ c w hw (hpre.trans ?_)
    rw [show w ++ delimiter boundry = u₂ ++ v from htail.symm, ← List.cons_append]
    exact List.prefix_append _ _

include hb in
/-- **A body that breaks off in front of its closing boundary is refused.** -/
theorem chunks_take_encode {d : Draft} (hd : d.Fits boundry) (finalEol : Bool) {n : ℕ}
    (hn : n + 4 < (encode boundry [d] finalEol).length) :
    chunks boundry ((encode boundry [d] finalEol).take n) = none := by
  obtain ⟨tail, hbody, htail⟩ : ∃ tail, encode boundry [d] finalEol =
      delimiter boundry ++ crlf ++ (d.text ++ delimiter boundry) ++ tail ∧ tail.length ≤ 4 := by
    refine ⟨lit "--" ++ if finalEol then crlf else [], ?_, ?_⟩
    · rw [encode_eq, encodeParts_cons]
      simp [encodeParts]
    · cases finalEol <;> decide
  have hlen := congrArg List.length hbody
  rw [List.length_append] at hlen
  rw [hbody, List.take_append_of_le_length (by omega), List.take_append]
  rcases Nat.le_total n (delimiter boundry ++ crlf).length with hle | hge
  · -- not even the first boundary line is complete, or nothing follows it
    rw [Nat.sub_eq_zero_of_le hle, List.take_zero, List.append_nil]
    have hchunk : chunk boundry ((delimiter boundry ++ crlf).take n) = none := by
      rw [List.take_append]
      by_cases hshort : n < (delimiter boundry).length
      · have hno : ¬delimiter boundry <+: (delimiter boundry).take n := fun h ↦ by
          have := h.length_le
          rw [List.length_take] at this
          omega
        rw [Nat.sub_eq_zero_of_le hshort.le, List.take_zero, List.append_nil]
        simp [chunk, Peg.map, seq, chunkBoundry_eq_none hno]
      · rw [List.take_of_length_le (not_lt.1 hshort), chunk, Peg.map, seq, chunkBoundry_delimiter]
        have hvalue : chunkValue boundry [] = none := many1_of_none (halts_nil boundry).value
        rcases n - (delimiter boundry).length with - | - | m
        · rfl
        · simp [crlf, eol, hvalue]
        · simp [crlf, eol, hvalue]
    simp [chunks, Peg.map, seq, hchunk]
  · rw [List.take_of_length_le hge]
    set m := n - (delimiter boundry ++ crlf).length
    have hm : m < (d.text ++ delimiter boundry).length := by
      rw [List.length_append] at hlen
      omega
    set u := (d.text ++ delimiter boundry).take m
    have hclear : Clear (delimiter boundry) u [] := by
      refine clear_of_short hb hd (v := (d.text ++ delimiter boundry).drop m) ?_
        (List.take_append_drop _ _)
      exact fun h ↦ absurd (List.drop_eq_nil_iff.1 h) (by omega)
    -- up to the first byte that is not 7-bit, or to the end
    obtain ⟨u₁, r, hu, h7, hr⟩ : ∃ u₁ r, u = u₁ ++ r ∧ SevenBit u₁ ∧ Halts boundry r := by
      by_cases h7 : SevenBit u
      · exact ⟨u, [], by simp, h7, halts_nil boundry⟩
      · obtain ⟨u₁, c, v, hu, h7, hc⟩ := exists_first h7
        exact ⟨u₁, c :: v, hu, h7, halts_of_eight hc boundry v⟩
    have hclear' : Clear (delimiter boundry) u₁ r := by
      intro v₁ c v₂ h hpre
      refine hclear v₁ c (v₂ ++ r) ?_ (by rwa [List.append_nil])
      rw [hu, h, List.append_assoc]
      rfl
    obtain ⟨cs, r', hmany, hend⟩ := exists_many_chunk_of_halts hclear' h7 hr
    rw [← hu, ← List.append_assoc] at hmany
    exact chunks_eq_none_of_many hmany hend

include hb in
/-- **Another boundary refuses the body.** -/
theorem chunks_encode_of_ne {other : Bytes} (hne : other ≠ boundry) (ho : OneLine other)
    {ds : List Draft} (hds : ds ≠ []) (finalEol : Bool) :
    chunks other (encode boundry ds finalEol) = none := by
  obtain ⟨d, ds, rfl⟩ := List.exists_cons_of_ne_nil hds
  have hbody : encode boundry (d :: ds) finalEol = lit "--" ++ (boundry ++ 13 :: (10 :: (d.text ++
      (encodeParts boundry ds ++ (delimiter boundry ++ (lit "--" ++
        if finalEol then crlf else [])))))) := by
    rw [encode_eq, encodeParts_cons]
    simp [delimiter, crlf]
  rw [hbody]
  set rest := 10 :: (d.text ++ (encodeParts boundry ds ++ (delimiter boundry ++ (lit "--" ++
    if finalEol then crlf else []))))
  -- a boundary line of the other boundary would have to end inside this one
  have hline : seq (literal other) eol (boundry ++ 13 :: rest) = none := by
    by_cases hpre : other <+: boundry ++ 13 :: rest
    · obtain ⟨v, rfl⟩ := prefix_of_prefix_append_cons ho.1 hpre
      obtain ⟨c, v, rfl⟩ := List.exists_cons_of_ne_nil (show v ≠ [] from fun h ↦ hne (by simp [h]))
      have hcr : c ≠ 13 := fun h ↦ hb.1 (by simp [h])
      have hlf : c ≠ 10 := fun h ↦ hb.2 (by simp [h])
      rw [List.append_assoc, seq, literal_append]
      simp [eol_eq_none hcr hlf]
    · simp [seq, literal_eq_none hpre]
  have hchunk : chunk other (lit "--" ++ (boundry ++ 13 :: rest)) = none := by
    rw [chunk, Peg.map, seq, chunkBoundry, Peg.map, seq, literal_append, Option.bind_some, hline]
    rfl
  simp [chunks, Peg.map, seq, hchunk]

end Reading

end Camlispp
