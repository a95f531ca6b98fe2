import Camlispp.Multipart.Payload

/-!
# What a Content-Disposition says

The name of a part, read from the header lines as they stand in the body and without the reader's
grammar: the lines in front of the first empty line, a line that begins with a blank put behind the
one before it; of a line the parameters between semicolons that are not inside quotes, with any
blanks around them; of a parameter the text behind its first `=`, in quotes or not.

This is what a sender may write. The reader's `headerTokens` understands less: a parameter that is
not behind a semicolon and exactly one space is lost to it, and a value without quotes runs to the
end of the line. So **whether a name was given is not asked of it** in what follows.

## The two results, and what each rests on

* `namesOf_text`: of a part as an encoder writes it, the names are those of its lines, whatever its
  payload is. It rests on the lines only: none is empty, has a line end or begins with a blank.
* `mem_dispositionNames_line`: a reference that is written as a name is found, in quotes or without,
  behind any blanks. It rests on a reference having no semicolon, no quote and no blank in it.
-/

open Bytes

namespace Camlispp

/-! ### Lines -/

/-- The lines in front of the first empty line, the first of which has begun already. -/
def headLinesFrom : Bytes → Bytes → List Bytes
  | line, [] => if line = [] then [] else [line]
  | line, 13 :: 10 :: s => if line = [] then [] else line :: headLinesFrom [] s
  | line, 13 :: s => if line = [] then [] else line :: headLinesFrom [] s
  | line, 10 :: s => if line = [] then [] else line :: headLinesFrom [] s
  | line, c :: s => headLinesFrom (line ++ [c]) s

/-- A space or a tab. -/
def isBlank (b : UInt8) : Bool := b = 32 || b = 9

/-- A line that begins with a blank goes on with the one before it. -/
def unfoldLine (lines : List Bytes) (line : Bytes) : List Bytes :=
  if line.head?.any isBlank then lines.modifyLast (· ++ line) else lines ++ [line]

/-- The header lines of a chunk. -/
def headLines (chunk : Bytes) : List Bytes := (headLinesFrom [] chunk).foldl unfoldLine []

/-! ### Parameters -/

/-- The pieces between semicolons that are not inside quotes. In quotes a backslash takes the next
byte as it is. -/
def pieces : Bool → Bytes → Bytes → List Bytes
  | _, piece, [] => [piece]
  | true, piece, 92 :: c :: s => pieces true (piece ++ [92, c]) s
  | true, piece, 34 :: s => pieces false (piece ++ [34]) s
  | false, piece, 34 :: s => pieces true (piece ++ [34]) s
  | false, piece, 59 :: s => piece :: pieces false [] s
  | quoted, piece, c :: s => pieces quoted (piece ++ [c]) s

/-- A text without the blanks in front of it and behind it. -/
def trim (s : Bytes) : Bytes := ((s.dropWhile isBlank).reverse.dropWhile isBlank).reverse

/-- The rest of a quoted text, up to its quote. -/
def quotedText : Bytes → Bytes
  | 92 :: c :: s => c :: quotedText s
  | 34 :: _ => []
  | c :: s => c :: quotedText s
  | [] => []

/-- The value of a parameter: in quotes, or up to a blank. -/
def parameterText : Bytes → Bytes
  | 34 :: s => quotedText s
  | s => s.takeWhile fun b ↦ !isBlank b

/-- The name a piece gives, if it is a parameter of that name. -/
def pieceName (piece : Bytes) : Option Bytes :=
  if piece.any (· = 61) ∧ lower (trim (piece.takeWhile (· ≠ 61))) = lit "name" then
    some (parameterText ((piece.dropWhile (· ≠ 61)).tail.dropWhile isBlank))
  else none

/-- The names that a header line gives: none, if it is no Content-Disposition. -/
def dispositionNames (line : Bytes) : List Bytes :=
  if lower (trim (line.takeWhile (· ≠ 58))) = lit "content-disposition" then
    (pieces false [] (line.dropWhile (· ≠ 58)).tail).filterMap pieceName
  else []

/-- The names of a chunk. -/
def namesOf (chunk : Bytes) : List Bytes := (headLines chunk).flatMap dispositionNames

/-! ### Parts as they are written -/

theorem headLinesFrom_line {l : Bytes} (hl : OneLine l) (line s : Bytes) :
    headLinesFrom line (l ++ s) = headLinesFrom (line ++ l) s := by
  induction l generalizing line with
  | nil => rw [List.nil_append, List.append_nil]
  | cons c l ih =>
    have hcr : c ≠ 13 := fun h ↦ hl.1 (h ▸ List.mem_cons_self)
    have hlf : c ≠ 10 := fun h ↦ hl.2 (h ▸ List.mem_cons_self)
    have hrest : OneLine l :=
      ⟨fun h ↦ hl.1 (List.mem_cons_of_mem _ h), fun h ↦ hl.2 (List.mem_cons_of_mem _ h)⟩
    have hstep : headLinesFrom line (c :: (l ++ s)) = headLinesFrom (line ++ [c]) (l ++ s) := by
      rw [headLinesFrom.eq_def]
      split <;> simp_all
    rw [List.cons_append, hstep, ih hrest, List.append_assoc]
    rfl

theorem headLinesFrom_crlf {line : Bytes} (hne : line ≠ []) (s : Bytes) :
    headLinesFrom line (crlf ++ s) = line :: headLinesFrom [] s := by
  show headLinesFrom line (13 :: 10 :: s) = _
  rw [headLinesFrom, if_neg hne]

/-- The header lines of a part, as an encoder writes it. -/
theorem headLinesFrom_text (d : Draft) (hlines : ∀ l ∈ d.lines, l ≠ [] ∧ OneLine l) :
    headLinesFrom [] d.text = d.lines := by
  have htext : d.text = (d.lines.map (· ++ crlf)).flatten ++ (crlf ++ (d.payload ++ crlf)) := by
    simp [Draft.text]
  rw [htext]
  generalize d.lines = ls at hlines
  induction ls with
  | nil => rfl
  | cons l ls ih =>
    obtain ⟨⟨hne, hl⟩, hls⟩ := List.forall_mem_cons.1 hlines
    have hsplit : ((l :: ls).map (· ++ crlf)).flatten ++ (crlf ++ (d.payload ++ crlf)) =
        l ++ (crlf ++ ((ls.map (· ++ crlf)).flatten ++ (crlf ++ (d.payload ++ crlf)))) := by
      simp
    rw [hsplit, headLinesFrom_line hl, List.nil_append, headLinesFrom_crlf hne, ih hls]

/-- **The names of a part are those of its lines.** -/
theorem namesOf_text (d : Draft)
    (hlines : ∀ l ∈ d.lines, l ≠ [] ∧ OneLine l ∧ l.head?.any isBlank = false) :
    namesOf d.text = d.lines.flatMap dispositionNames := by
  have hunfold : ∀ (ls done : List Bytes), (∀ l ∈ ls, l.head?.any isBlank = false) →
      ls.foldl unfoldLine done = done ++ ls := by
    intro ls
    induction ls with
    | nil => exact fun done _ ↦ (List.append_nil done).symm
    | cons l ls ih =>
      intro done hls
      obtain ⟨hl, hls⟩ := List.forall_mem_cons.1 hls
      have hone : unfoldLine done l = done ++ [l] := by simp [unfoldLine, hl]
      rw [List.foldl_cons, hone, ih _ hls, List.append_assoc]
      rfl
  have hhead := headLinesFrom_text d fun l hl ↦ ⟨(hlines l hl).1, (hlines l hl).2.1⟩
  rw [namesOf, headLines, hhead, hunfold d.lines [] fun l hl ↦ (hlines l hl).2.2, List.nil_append]

/-! ### Names as they are written -/

/-- Bytes that a name may have without quotes, and that end nothing inside them. -/
def isNameChar (b : UInt8) : Bool := isAlnum b || b = 45

theorem isNameChar_ne {b : UInt8} (h : isNameChar b = true) :
    b ≠ 34 ∧ b ≠ 59 ∧ b ≠ 92 ∧ isBlank b = false := by
  simp only [isNameChar, isBlank, isAlnum, isAlpha, isDigit, Bool.or_eq_true, Bool.and_eq_true,
    decide_eq_true_eq, Bool.or_eq_false_iff, decide_eq_false_iff_not, UInt8.le_iff_toNat_le, ne_eq,
    ← UInt8.toNat_inj, UInt8.reduceToNat] at h ⊢
  omega

/-- A run of bytes that end no piece. -/
theorem pieces_append {u : Bytes} (hu : ∀ b ∈ u, b ≠ 34 ∧ b ≠ 59 ∧ b ≠ 92) (quoted : Bool)
    (piece s : Bytes) : pieces quoted piece (u ++ s) = pieces quoted (piece ++ u) s := by
  induction u generalizing piece with
  | nil => rw [List.nil_append, List.append_nil]
  | cons c u ih =>
    obtain ⟨⟨h34, h59, h92⟩, hu⟩ := List.forall_mem_cons.1 hu
    have hstep : pieces quoted piece (c :: (u ++ s)) = pieces quoted (piece ++ [c]) (u ++ s) := by
      rw [pieces.eq_def]
      split <;> simp_all
    rw [List.cons_append, hstep, ih hu, List.append_assoc]
    rfl

/-- What may follow a parameter. -/
def EndsPiece (s : Bytes) : Prop := s = [] ∨ s.head? = some 59

theorem exists_pieces_of_endsPiece {s : Bytes} (hs : EndsPiece s) :
    ∃ rest, ∀ piece, pieces false piece s = piece :: rest := by
  rcases hs with rfl | hs
  · exact ⟨[], fun piece ↦ rfl⟩
  · obtain ⟨s, rfl⟩ := List.head?_eq_some_iff.1 hs
    exact ⟨pieces false [] s, fun piece ↦ rfl⟩

/-- The two ways to write a value. -/
def writtenValue (quotes : Bool) (n : Bytes) : Bytes := if quotes then 34 :: (n ++ [34]) else n

theorem parameterText_writtenValue {n : Bytes} (hn : ∀ b ∈ n, isNameChar b = true)
    (quotes : Bool) : parameterText (writtenValue quotes n) = n := by
  cases quotes with
  | true =>
    show quotedText (n ++ [34]) = n
    induction n with
    | nil => rfl
    | cons c n ih =>
      obtain ⟨hc, hn⟩ := List.forall_mem_cons.1 hn
      obtain ⟨h34, -, h92, -⟩ := isNameChar_ne hc
      have hstep : quotedText (c :: (n ++ [34])) = c :: quotedText (n ++ [34]) := by
        rw [quotedText.eq_def]
        split <;> simp_all
      rw [List.cons_append, hstep, ih hn]
  | false =>
    have htake : n.takeWhile (fun b ↦ !isBlank b) = n :=
      List.takeWhile_eq_self_iff.2 fun b hb ↦ by simp [(isNameChar_ne (hn b hb)).2.2.2]
    show parameterText n = n
    rw [parameterText.eq_def]
    split
    · next s => exact absurd rfl (isNameChar_ne (hn 34 List.mem_cons_self)).1
    · exact htake

/-- The piece with the name. -/
theorem pieceName_written {blanks n : Bytes} (hblanks : ∀ b ∈ blanks, isBlank b = true)
    (hn : ∀ b ∈ n, isNameChar b = true) (quotes : Bool) :
    pieceName (blanks ++ (lit "name=" ++ writtenValue quotes n)) = some n := by
  have hkey : ∀ b ∈ blanks ++ lit "name", (b ≠ 61 : Bool) = true := by
    have hlit : ∀ b ∈ lit "name", (b ≠ 61 : Bool) = true := by decide +kernel
    intro b hb
    rcases List.mem_append.1 hb with hb | hb
    · have hblank := hblanks b hb
      simp only [isBlank, Bool.or_eq_true, decide_eq_true_eq] at hblank
      rcases hblank with rfl | rfl <;> decide
    · exact hlit b hb
  have htext : blanks ++ (lit "name=" ++ writtenValue quotes n) =
      (blanks ++ lit "name") ++ 61 :: writtenValue quotes n := by
    simp [lit]
  have htrim : trim (blanks ++ lit "name") = lit "name" := by
    rw [trim, List.dropWhile_append_of_pos hblanks]
    decide
  have hvalue : (writtenValue quotes n).dropWhile isBlank = writtenValue quotes n := by
    cases quotes with
    | true => rfl
    | false =>
      rcases n with - | ⟨c, n⟩
      · rfl
      · show (c :: n).dropWhile isBlank = c :: n
        rw [List.dropWhile_cons, (isNameChar_ne (hn c List.mem_cons_self)).2.2.2]
        rfl
  rw [pieceName, htext, List.takeWhile_append_of_pos hkey, List.dropWhile_append_of_pos hkey]
  simp only [List.takeWhile_cons, List.dropWhile_cons, ne_eq, not_true_eq_false, decide_false,
    Bool.false_eq_true, if_false, List.append_nil, htrim, List.tail_cons, hvalue,
    parameterText_writtenValue hn]
  rw [if_pos ⟨by simp, by decide⟩]

/-- **A name that is written is found**: behind any blanks, in quotes or without, in front of the
next parameter or the end of the line. -/
theorem mem_dispositionNames_line {blanks n s : Bytes} (hblanks : ∀ b ∈ blanks, isBlank b = true)
    (hn : ∀ b ∈ n, isNameChar b = true) (quotes : Bool) (hs : EndsPiece s) :
    n ∈ dispositionNames (lit "Content-Disposition: form-data;" ++
      (blanks ++ (lit "name=" ++ writtenValue quotes n) ++ s)) := by
  set rest := blanks ++ (lit "name=" ++ writtenValue quotes n) ++ s with hrest
  have htake : (lit "Content-Disposition: form-data;" ++ rest).takeWhile (· ≠ 58) =
      lit "Content-Disposition" := rfl
  have hdrop : ((lit "Content-Disposition: form-data;" ++ rest).dropWhile (· ≠ 58)).tail =
      lit " form-data;" ++ rest := rfl
  have hfirst : pieces false [] (lit " form-data;" ++ rest) =
      lit " form-data" :: pieces false [] rest := rfl
  have hplain : ∀ b ∈ blanks ++ lit "name=", b ≠ 34 ∧ b ≠ 59 ∧ b ≠ 92 := by
    have hlit : ∀ b ∈ lit "name=", b ≠ 34 ∧ b ≠ 59 ∧ b ≠ 92 := by decide +kernel
    intro b hb
    rcases List.mem_append.1 hb with hb | hb
    · have hblank := hblanks b hb
      simp only [isBlank, Bool.or_eq_true, decide_eq_true_eq] at hblank
      rcases hblank with rfl | rfl <;> decide
    · exact hlit b hb
  have hname : ∀ b ∈ n, b ≠ 34 ∧ b ≠ 59 ∧ b ≠ 92 := fun b hb ↦
    ⟨(isNameChar_ne (hn b hb)).1, (isNameChar_ne (hn b hb)).2.1, (isNameChar_ne (hn b hb)).2.2.1⟩
  -- the piece ends where the value does
  obtain ⟨others, hothers⟩ := exists_pieces_of_endsPiece hs
  have hpieces : pieces false [] rest =
      (blanks ++ (lit "name=" ++ writtenValue quotes n)) :: others := by
    have htext : rest = (blanks ++ lit "name=") ++ (writtenValue quotes n ++ s) := by
      simp [hrest]
    rw [htext, pieces_append hplain, List.nil_append]
    cases quotes with
    | true =>
      have hopen : pieces false (blanks ++ lit "name=") (34 :: (n ++ (34 :: s))) =
          pieces true (blanks ++ lit "name=" ++ [34]) (n ++ (34 :: s)) := rfl
      have hclose : ∀ piece, pieces true piece (34 :: s) = pieces false (piece ++ [34]) s :=
        fun piece ↦ by rw [pieces]
      have hvalue : writtenValue true n ++ s = 34 :: (n ++ (34 :: s)) := by simp [writtenValue]
      rw [hvalue, hopen, pieces_append hname, hclose, hothers]
      simp [writtenValue]
    | false =>
      rw [show writtenValue false n = n from rfl, pieces_append hname, hothers]
      simp
  rw [dispositionNames, htake, if_pos (by decide), hdrop, hfirst, hpieces]
  refine List.mem_filterMap.2 ⟨_, List.mem_cons_of_mem _ List.mem_cons_self, ?_⟩
  exact pieceName_written hblanks hn quotes

end Camlispp
