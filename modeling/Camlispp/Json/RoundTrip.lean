import Camlispp.Json.Grammar

/-!
# JSON is read back

`json_spirit::Generator` writes a value on one line or with indentation. Either way what it writes
is a text of the value (`spells_output`), so that the reader reads it back, **for every value that
the library can hold**: strings of any bytes, integers of 64 bits with or without a sign, and any
nesting. Only fractions are left out, which are written with eight digits.

The rest of the development takes its reader as a parameter. `reader` is the one modelled here as
such a parameter, and `read_eq_reader` that it is the whole of `Json.read`.

## What the results rest on

* `spells_output` rests on the writer alone: an induction on the value, with the level of
  indentation free, since the two writers differ in white space only.
* `read_writeString` is the grammar's `denoted_of_spells` applied to it. Its other half, that
  nothing else is ever read, is `Spells.fits`: a text of an integer has 64 bits, whoever wrote it.
* `reader` needs no more than the second half of the round trip; that it refuses the empty text and
  a page of HTML (`strict_reader`) is `denoted_nil` and `denoted_cons`, which look at one byte.

Behind an integer the next byte must not continue it (`Stops`): of `12` the reader reads `12`, not
the value `1` that it begins with. No other value needs this.
-/

open Bytes

namespace Camlispp

namespace Json

/-! ### The generator -/

/-- `new_line`. -/
def newLine (pretty : Bool) : Bytes := if pretty then [10] else []

/-- `space`. -/
def space (pretty : Bool) : Bytes := if pretty then [32] else []

/-- `indent`. -/
def indent (pretty : Bool) (level : ℕ) : Bytes :=
  if pretty then (List.replicate level (lit "    ")).flatten else []

mutual

/-- `Generator::output`, at a level of indentation. -/
def output (pretty : Bool) : Json → ℕ → Bytes
  | obj ms, level =>
    123 :: (newLine pretty ++
      (outputMembers pretty ms (level + 1) ++ (indent pretty level ++ [125])))
  | arr es, level =>
    91 :: (newLine pretty ++
      (outputElements pretty es (level + 1) ++ (indent pretty level ++ [93])))
  | str s, _ => writeStr s
  | bool b, _ => if b then lit "true" else lit "false"
  | int n, _ => decimalInt n
  | real text, _ => text
  | null, _ => lit "null"

/-- The loop of `output_array_or_obj`, for the members of an object. -/
def outputMembers (pretty : Bool) : List (Bytes × Json) → ℕ → Bytes
  | [], _ => []
  | [m], level => indent pretty level ++ (outputMember pretty m level ++ newLine pretty)
  | m :: n :: ms, level =>
    indent pretty level ++ (outputMember pretty m level ++
      44 :: (newLine pretty ++ outputMembers pretty (n :: ms) level))

/-- A member. -/
def outputMember (pretty : Bool) : Bytes × Json → ℕ → Bytes
  | (name, value), level =>
    writeStr name ++ (space pretty ++ 58 :: (space pretty ++ output pretty value level))

/-- The loop of `output_array_or_obj`, for the elements of an array. -/
def outputElements (pretty : Bool) : List Json → ℕ → Bytes
  | [], _ => []
  | [v], level => indent pretty level ++ (output pretty v level ++ newLine pretty)
  | v :: w :: vs, level =>
    indent pretty level ++ (output pretty v level ++
      44 :: (newLine pretty ++ outputElements pretty (w :: vs) level))

end

/-- `write_string`: compact, or formatted. -/
def writeString (v : Json) (pretty : Bool) : Bytes := output pretty v 0

/-! ### The compact form -/

mutual

theorem output_compact : ∀ (v : Json) (level : ℕ), output false v level = write v
  | obj ms, level => by
    simp only [output, write, newLine, indent, outputMembers_compact ms (level + 1),
      Bool.false_eq_true, if_false, List.nil_append]
  | arr es, level => by
    simp only [output, write, newLine, indent, outputElements_compact es (level + 1),
      Bool.false_eq_true, if_false, List.nil_append]
  | str _, _ => by rw [output, write]
  | bool _, _ => by rw [output, write]
  | int _, _ => by rw [output, write]
  | real _, _ => by rw [output, write]
  | null, _ => by rw [output, write]

theorem outputMembers_compact : ∀ (ms : List (Bytes × Json)) (level : ℕ),
    outputMembers false ms level = writeMembers ms
  | [], _ => by rw [outputMembers, writeMembers]
  | [m], level => by
    simp only [outputMembers, writeMembers, newLine, indent, outputMember_compact m level,
      Bool.false_eq_true, if_false, List.nil_append, List.append_nil]
  | m :: n :: ms, level => by
    simp only [outputMembers, writeMembers, newLine, indent, outputMember_compact m level,
      outputMembers_compact (n :: ms) level, Bool.false_eq_true, if_false, List.nil_append]

theorem outputMember_compact : ∀ (m : Bytes × Json) (level : ℕ),
    outputMember false m level = writeMember m
  | (name, value), level => by
    simp only [outputMember, writeMember, space, output_compact value level, Bool.false_eq_true,
      if_false, List.nil_append]

theorem outputElements_compact : ∀ (vs : List Json) (level : ℕ),
    outputElements false vs level = writeElements vs
  | [], _ => by rw [outputElements, writeElements]
  | [v], level => by
    simp only [outputElements, writeElements, newLine, indent, output_compact v level,
      Bool.false_eq_true, if_false, List.nil_append, List.append_nil]
  | v :: w :: vs, level => by
    simp only [outputElements, writeElements, newLine, indent, output_compact v level,
      outputElements_compact (w :: vs) level, Bool.false_eq_true, if_false, List.nil_append]

end

/-! ### What is written is a text of the value -/

/-- What a value of the library can hold, without fractions: integers have 64 bits. -/
inductive Fits : Json → Prop
  | obj {ms : List (Bytes × Json)} (h : ∀ m ∈ ms, Fits m.2) : Fits (obj ms)
  | arr {vs : List Json} (h : ∀ v ∈ vs, Fits v) : Fits (arr vs)
  | str (s : Bytes) : Fits (str s)
  | bool (b : Bool) : Fits (bool b)
  | int {n : ℤ} (lower : -2 ^ 63 ≤ n) (upper : n < 2 ^ 64) : Fits (int n)
  | null : Fits null

theorem Fits.noReal {v : Json} (h : Fits v) : NoReal v := by
  induction h with
  | obj _ ih => exact .obj ih
  | arr _ ih => exact .arr ih
  | str s => exact .str s
  | bool b => exact .bool b
  | int _ _ => exact .int _
  | null => exact .null

theorem blank_newLine (pretty : Bool) : Blank (newLine pretty) := by
  rcases pretty with - | -
  · exact fun b hb ↦ absurd hb List.not_mem_nil
  · intro b hb
    obtain rfl := List.mem_singleton.1 hb
    rfl

theorem blank_space (pretty : Bool) : Blank (space pretty) := by
  rcases pretty with - | -
  · exact fun b hb ↦ absurd hb List.not_mem_nil
  · intro b hb
    obtain rfl := List.mem_singleton.1 hb
    rfl

theorem blank_indent (pretty : Bool) (level : ℕ) : Blank (indent pretty level) := by
  rcases pretty with - | -
  · exact fun b hb ↦ absurd hb List.not_mem_nil
  · intro b hb
    obtain ⟨s, hs, hbs⟩ := List.mem_flatten.1 hb
    rw [List.eq_of_mem_replicate hs] at hbs
    have hfour : (lit "    ").all isSpace = true := by decide
    exact List.all_eq_true.1 hfour b hbs

theorem Blank.append {w w' : Bytes} (hw : Blank w) (hw' : Blank w') : Blank (w ++ w') :=
  fun b hb ↦ (List.mem_append.1 hb).elim (hw b) (hw' b)

theorem intText_decimalInt {n : ℤ} (lower : -2 ^ 63 ≤ n) (upper : n < 2 ^ 64) :
    IntText n (decimalInt n) := by
  have hdigits : ∀ n, ∀ d ∈ decimal n, isDigit d = true := fun n d hd ↦ isDigit_of_mem_decimal hd
  rcases n with n | n
  · have htext : IntText (decimalValue (decimal n)) (decimal n) := by
      refine .plain (decimal_ne_nil n) (hdigits n) ?_
      rw [decimalValue_decimal]
      exact Int.ofNat_lt.1 upper
    rwa [decimalValue_decimal] at htext
  · have htext : IntText (-(decimalValue (decimal (n + 1)) : ℤ)) (45 :: decimal (n + 1)) := by
      refine .minus (decimal_ne_nil _) (hdigits _) ?_
      rw [decimalValue_decimal]
      rw [Int.negSucc_eq] at lower
      omega
    rwa [decimalValue_decimal] at htext

/-- The entries of an object or an array, in the layout of the generator. -/
def entryTexts (pretty : Bool) (level : ℕ) (us : List Bytes) : List Bytes :=
  us.map fun u ↦ newLine pretty ++ (indent pretty level ++ u)

/-- **A loop that puts commas between its entries** writes texts with commas between them. -/
theorem exists_commas {α : Type} (pretty : Bool) (level : ℕ) (one : α → Bytes)
    (all : List α → Bytes) (hnil : all [] = [])
    (hone : ∀ a, all [a] = indent pretty level ++ (one a ++ newLine pretty))
    (hcons : ∀ a b as, all (a :: b :: as) =
      indent pretty level ++ (one a ++ 44 :: (newLine pretty ++ all (b :: as)))) (as : List α) :
    ∃ u w, newLine pretty ++ all as = u ++ w ∧ Blank w ∧
      Commas (entryTexts pretty level (as.map one)) u := by
  have htail : ∀ a as, ∃ t, newLine pretty ++ all (a :: as) =
      newLine pretty ++ (indent pretty level ++ one a) ++ t ++ newLine pretty ∧
        CommaTail (entryTexts pretty level (as.map one)) t := by
    intro a as
    induction as generalizing a with
    | nil => exact ⟨[], by rw [hone]; simp, .nil⟩
    | cons b as ih =>
      obtain ⟨t, ht, htail⟩ := ih b
      refine ⟨[] ++ 44 :: (newLine pretty ++ (indent pretty level ++ one b) ++ t), ?_,
        .cons (fun c hc ↦ absurd hc List.not_mem_nil) htail⟩
      rw [hcons, ht]
      simp
  rcases as with - | ⟨a, as⟩
  · exact ⟨[], newLine pretty, by rw [hnil, List.append_nil, List.nil_append],
      blank_newLine pretty, rfl⟩
  · obtain ⟨t, ht, htail⟩ := htail a as
    exact ⟨_, newLine pretty, ht, blank_newLine pretty, t, rfl, htail⟩

/-- A member, as the generator writes it. -/
def writtenMember (pretty : Bool) (level : ℕ) (m : Bytes × Json) : MemberText :=
  ⟨newLine pretty ++ indent pretty level, escaped m.1, space pretty, m.2,
    space pretty ++ output pretty m.2 level⟩

/-- An element, with the text that the generator writes for it. -/
def writtenElement (pretty : Bool) (level : ℕ) (v : Json) : Json × Bytes :=
  (v, newLine pretty ++ (indent pretty level ++ output pretty v level))

theorem legal_writtenMember (pretty : Bool) (level : ℕ) (m : Bytes × Json) :
    (writtenMember pretty level m).Legal where
  blank := (blank_newLine pretty).append (blank_indent pretty level)
  body := isBody_escaped m.1
  blank' := blank_space pretty

/-- **What the generator writes is a text of the value.** -/
theorem spells_output (P : RealParser) (pretty : Bool) {v : Json} (hv : Fits v) {w : Bytes}
    (hw : Blank w) (level : ℕ) : Spells P v (w ++ output pretty v level) := by
  induction hv generalizing w level with
  | @obj ms _ ih =>
    obtain ⟨u, w', htext, hw', hu⟩ := exists_commas pretty (level + 1)
      (fun m ↦ outputMember pretty m (level + 1)) (fun ms ↦ outputMembers pretty ms (level + 1))
      rfl (fun m ↦ by rw [outputMembers]) (fun m n ms ↦ by rw [outputMembers]) ms
    have hmember : ∀ m, (writtenMember pretty (level + 1) m).bytes =
        newLine pretty ++ (indent pretty (level + 1) ++ outputMember pretty m (level + 1)) := by
      rintro ⟨name, value⟩
      simp [MemberText.bytes, writtenMember, outputMember, writeStr_eq]
    have hmembers : (ms.map (writtenMember pretty (level + 1))).map MemberText.member = ms := by
      rw [List.map_map]
      refine (List.map_congr_left fun m _ ↦ ?_).trans (List.map_id ms)
      exact Prod.ext (substituteEscChars_escaped m.1) rfl
    have hcommas : Commas ((ms.map (writtenMember pretty (level + 1))).map MemberText.bytes) u := by
      rw [entryTexts, List.map_map] at hu
      rw [List.map_map]
      exact (List.map_congr_left fun m _ ↦ hmember m) ▸ hu
    have hspells : Spells P (obj ((ms.map (writtenMember pretty (level + 1))).map
        MemberText.member)) (w ++ 123 :: (u ++ (w' ++ indent pretty level ++ [125]))) := .obj hw
      (List.forall_mem_map.2 fun m _ ↦ legal_writtenMember pretty (level + 1) m)
      (List.forall_mem_map.2 fun m hm ↦ ih m hm (blank_space pretty) (level + 1)) hcommas
      (hw'.append (blank_indent pretty level))
    rw [hmembers] at hspells
    have hlayout : newLine pretty ++ (outputMembers pretty ms (level + 1) ++
        (indent pretty level ++ [125])) = u ++ (w' ++ indent pretty level ++ [125]) := by
      rw [← List.append_assoc, htext]
      simp
    rw [output, hlayout]
    exact hspells
  | @arr vs _ ih =>
    obtain ⟨u, w', htext, hw', hu⟩ := exists_commas pretty (level + 1)
      (fun v ↦ output pretty v (level + 1)) (fun vs ↦ outputElements pretty vs (level + 1)) rfl
      (fun v ↦ by rw [outputElements]) (fun v w vs ↦ by rw [outputElements]) vs
    have hvalues : (vs.map (writtenElement pretty (level + 1))).map Prod.fst = vs := by
      rw [List.map_map]
      exact List.map_id vs
    have hcommas : Commas ((vs.map (writtenElement pretty (level + 1))).map Prod.snd) u := by
      rw [entryTexts, List.map_map] at hu
      rw [List.map_map]
      exact hu
    have helement : ∀ v ∈ vs, Spells P v (writtenElement pretty (level + 1) v).2 := by
      intro v hv
      rw [writtenElement, ← List.append_assoc]
      exact ih v hv ((blank_newLine pretty).append (blank_indent pretty _)) (level + 1)
    have hspells : Spells P (arr ((vs.map (writtenElement pretty (level + 1))).map Prod.fst))
        (w ++ 91 :: (u ++ (w' ++ indent pretty level ++ [93]))) := .arr hw
      (List.forall_mem_map.2 helement) hcommas (hw'.append (blank_indent pretty level))
    rw [hvalues] at hspells
    have hlayout : newLine pretty ++ (outputElements pretty vs (level + 1) ++
        (indent pretty level ++ [93])) = u ++ (w' ++ indent pretty level ++ [93]) := by
      rw [← List.append_assoc, htext]
      simp
    rw [output, hlayout]
    exact hspells
  | str s =>
    rw [output, writeStr_eq]
    have htext := Spells.str (P := P) hw (isBody_escaped s)
    rwa [substituteEscChars_escaped] at htext
  | bool b =>
    rw [output]
    rcases b with - | -
    · exact .false hw
    · exact .true hw
  | int lower upper =>
    rw [output]
    exact .int hw (intText_decimalInt lower upper)
  | null =>
    rw [output]
    exact .null hw

/-! ### The round trip -/

/-- The texts of integers are texts of integers that have 64 bits. -/
theorem Spells.fits {P : RealParser} {v : Json} {u : Bytes} (h : Spells P v u) (hv : NoReal v) :
    Fits v := by
  induction h with
  | str _ _ => exact .str _
  | real _ _ => cases hv
  | int _ h =>
    obtain @⟨ds, -, -, bound⟩ | @⟨ds, -, -, bound⟩ | @⟨ds, -, -, bound⟩ := h
    · exact .int (by omega) (by omega)
    · exact .int (by omega) (by omega)
    · exact .int (by omega) (by omega)
  | obj _ _ _ _ _ ih =>
    refine .obj (List.forall_mem_map.2 fun x hx ↦ ih x hx ?_)
    cases hv with
    | obj h => exact h x.member (List.mem_map_of_mem hx)
  | arr _ _ _ _ ih =>
    refine .arr (List.forall_mem_map.2 fun x hx ↦ ih x hx ?_)
    cases hv with
    | arr h => exact h x.1 (List.mem_map_of_mem hx)
  | true _ => exact .bool _
  | false _ => exact .bool _
  | null _ => exact .null

theorem denoted_writeString (P : RealParser) {v : Json} (hv : Fits v) (pretty : Bool) {w r : Bytes}
    (hw : Blank w) (hr : ∀ n, v = int n → Stops r) :
    denoted P (w ++ writeString v pretty ++ r) = some v :=
  denoted_of_spells (spells_output P pretty hv hw 0) hv.noReal hr

/-- **The round trip.** A value without fractions is read from some text if and only if its integers
have 64 bits, and then it is read back from what either writer makes of it, with any white space in
front and anything behind it that does not continue a number. -/
theorem read_writeString (P : RealParser) {v : Json} (hv : NoReal v) :
    ((∃ t, read P t = .ok (some v)) ↔ Fits v) ∧
      (Fits v → ∀ pretty w r, Blank w → (∀ n, v = int n → Stops r) →
        read P (w ++ writeString v pretty ++ r) = .ok (some v)) := by
  have hback : Fits v → ∀ pretty w r, Blank w → (∀ n, v = int n → Stops r) →
      read P (w ++ writeString v pretty ++ r) = .ok (some v) := by
    intro hfits pretty w r hw hr
    rw [read_eq, denoted_writeString P hfits pretty hw hr]
  refine ⟨⟨?_, fun hfits ↦ ?_⟩, hback⟩
  · rintro ⟨t, ht⟩
    rw [read_eq] at ht
    obtain ⟨u, r, -, hu⟩ := exists_spells_of_denoted (Except.ok.inj ht)
    exact hu.fits hv
  · exact ⟨_, hback hfits false [] [] (fun b hb ↦ absurd hb List.not_mem_nil)
      fun n _ c hc ↦ by cases hc⟩

/-- A library that is asked for no fraction. -/
def RealParser.none : RealParser where
  parse _ := Option.none
  takes h := by cases h
  nil := rfl
  starts _ _ _ _ := rfl
  strict _ _ _ := ⟨rfl, fun _ _ ↦ rfl⟩

/-- An object with a list of integers, a string with a quote and a NUL, and the smallest integer. -/
theorem read_writeString_sample :
    read .none (lit "  " ++ writeString (obj [([34, 0], arr [int (-2 ^ 63), bool true])]) true ++
      [125]) = .ok (some (obj [([34, 0], arr [int (-2 ^ 63), bool true])])) := by
  have hfits : Fits (obj [([34, 0], arr [int (-2 ^ 63), bool true])]) := by
    refine .obj (List.forall_mem_singleton.2 (.arr (List.forall_mem_cons.2 ⟨?_, ?_⟩)))
    · exact .int le_rfl (by decide)
    · exact List.forall_mem_singleton.2 (.bool true)
  have hblank : Blank (lit "  ") :=
    List.all_eq_true.1 (show (lit "  ").all isSpace = true by decide)
  exact (read_writeString .none hfits.noReal).2 hfits true (lit "  ") [125] hblank
    fun n h ↦ by cases h

/-! ### The reader as a parameter -/

theorem denoted_nil (P : RealParser) : denoted P [] = none := by
  have hnumber : Meaning.number P [] = .ok none := by
    simp [Meaning.number, Reads.alt, Reads.map, Reads.token, skipped, P.nil, int64P, uint64P,
      uintParser]
  have hvalue : Meaning.value P 1 [] = .ok none := by
    refine (Reads.alt_of_none rfl _).trans ((Reads.alt_of_none hnumber _).trans ?_)
    rfl
  rw [denoted, List.length_nil, hvalue]

theorem denoted_cons (P : RealParser) {b : UInt8} (hspace : isSpace b = false)
    (hdigit : isDigit b = false)
    (hnot : b ∉ ([34, 43, 45, 46, 123, 91, 116, 102, 110] : Bytes)) (t : Bytes) :
    denoted P (b :: t) = none := by
  rw [denoted, refuses_value P _ hspace hdigit hnot t]

/-- Plain values are values that the library can hold. -/
theorem Plain.fits {v : Json} (h : Plain v) : Fits v := by
  induction h with
  | obj _ _ ih => exact .obj ih
  | arr _ ih => exact .arr ih
  | str h => exact .str _
  | bool b => exact .bool b
  | int lower upper => exact .int lower upper
  | null => exact .null

/-- **The reader of the library** is a reader of the kind that the rest of the development asks
for. -/
def reader (P : RealParser) : Reader where
  read t := match Json.read P t with
    | .ok v => v
    | .error _ => none
  read_write {v} hv := by
    have hback := (read_writeString P hv.fits.noReal).2 hv.fits false [] crlf
      (fun b hb ↦ absurd hb List.not_mem_nil)
      fun _ _ ↦ stops_cons (show isDigit 13 = false ∧ _ by decide) [10]
    rw [writeString, output_compact, List.nil_append] at hback
    rw [hback]

/-- Nothing else comes of its run than what it returns. -/
theorem read_eq_reader (P : RealParser) (t : Bytes) :
    Json.read P t = .ok ((reader P).read t) := by
  show Json.read P t = .ok (match Json.read P t with | .ok v => v | .error _ => none)
  rw [read_eq]

theorem reader_read (P : RealParser) (t : Bytes) : (reader P).read t = denoted P t :=
  Except.ok.inj ((read_eq_reader P t).symm.trans (read_eq P t))

theorem strict_reader (P : RealParser) : (reader P).Strict where
  nil := (reader_read P []).trans (denoted_nil P)
  html s := (reader_read P (60 :: s)).trans
    (denoted_cons P (by decide) (by decide) (by decide) s)

end Json

end Camlispp
