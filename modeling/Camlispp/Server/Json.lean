import Camlispp.Library.Bytes

/-!
# JSON

The JSON values of the vendored library and its compact writer. The reader is a parameter: a
`Reader` is any function that reads back what the writer wrote for a *plain* value, with a line end
behind it. Plain values have strings of printable ASCII without quotes and backslashes, integers of
64 bits, and no fractions; this is all that two servers exchange.

`plainReader` is such a reader, by recursive descent; `readValue_write` is its round trip.

## Two notions of a reader

* `Json.Read` is any function from bytes to a value, or to nothing. What a hostile peer can do is
  said for every one of them, and so for the real one.
* `Json.Reader` is one that reads back what the writer wrote for a plain value. The results about
  two servers that talk to each other are for every one of them. The grammar of the library is one:
  `Json.reader`, in `RoundTrip`.

`plainReader` has no grammar behind it, and can be run. The witnesses use it.
-/

open Bytes

namespace Camlispp

/-- `json_spirit::Value`. A double is given by the text the stream prints for it. -/
inductive Json
  | obj (members : List (Bytes × Json))
  | arr (elements : List Json)
  | str (s : Bytes)
  | bool (b : Bool)
  | int (n : ℤ)
  | real (text : Bytes)
  | null

namespace Json

/-! ### The writer -/

/-- `to_hex_char`. -/
def toHexChar (c : ℕ) : UInt8 := if c < 10 then UInt8.ofNat (48 + c) else UInt8.ofNat (55 + c)

/-- `add_esc_char`, and what `add_esc_chars` does with the other bytes. In the C locale the
printable ones are 32 to 126. -/
def escape (c : UInt8) : Bytes :=
  if c = 34 then lit "\\\""
  else if c = 92 then lit "\\\\"
  else if c = 8 then lit "\\b"
  else if c = 12 then lit "\\f"
  else if c = 10 then lit "\\n"
  else if c = 13 then lit "\\r"
  else if c = 9 then lit "\\t"
  else if 32 ≤ c ∧ c ≤ 126 then [c]
  else lit "\\u00" ++ [toHexChar (c.toNat / 16), toHexChar (c.toNat % 16)]

/-- A string in quotes. -/
def writeStr (s : Bytes) : Bytes := 34 :: ((s.map escape).flatten ++ [34])

mutual

/-- `json_spirit::write`, compact. -/
def write : Json → Bytes
  | obj members => 123 :: (writeMembers members ++ [125])
  | arr elements => 91 :: (writeElements elements ++ [93])
  | str s => writeStr s
  | bool b => if b then lit "true" else lit "false"
  | int n => decimalInt n
  | real text => text
  | null => lit "null"

/-- The members of an object, with commas between them. -/
def writeMembers : List (Bytes × Json) → Bytes
  | [] => []
  | [m] => writeMember m
  | m :: n :: ms => writeMember m ++ 44 :: writeMembers (n :: ms)

/-- One member. -/
def writeMember : Bytes × Json → Bytes
  | (name, value) => writeStr name ++ 58 :: write value

/-- The elements of an array, with commas between them. -/
def writeElements : List Json → Bytes
  | [] => []
  | [v] => write v
  | v :: w :: vs => write v ++ 44 :: writeElements (w :: vs)

end

/-! ### Reading back -/

/-- Printable ASCII without quotes and backslashes. -/
def PlainStr (s : Bytes) : Prop := ∀ b ∈ s, 32 ≤ b ∧ b ≤ 126 ∧ b ≠ 34 ∧ b ≠ 92

/-- Plain values: plain strings throughout, integers of 64 bits, and no fractions. -/
inductive Plain : Json → Prop
  | obj {ms : List (Bytes × Json)} (names : ∀ m ∈ ms, PlainStr m.1)
      (values : ∀ m ∈ ms, Plain m.2) : Plain (obj ms)
  | arr {vs : List Json} (h : ∀ v ∈ vs, Plain v) : Plain (arr vs)
  | str {s : Bytes} (h : PlainStr s) : Plain (str s)
  | bool (b : Bool) : Plain (bool b)
  | int {n : ℤ} (lower : -2 ^ 63 ≤ n) (upper : n < 2 ^ 64) : Plain (int n)
  | null : Plain null

/-- What `json_spirit::read` is to its callers: none where it returns false. -/
abbrev Read := Bytes → Option Json

/-- A reader that understands the writer. -/
structure Reader where
  read : Read
  /-- What was written for a plain value is read back from a line of its own. -/
  read_write : ∀ {v : Json}, Plain v → read (v.write ++ crlf) = some v

instance : Coe Reader Read := ⟨Reader.read⟩

/-- The reader refuses what does not begin with a value: nothing at all, and a page of HTML. -/
structure Reader.Strict (R : Reader) : Prop where
  nil : R.read [] = none
  html : ∀ s, R.read (60 :: s) = none

/-- A number: an optional sign and digits. -/
def readInt (s : Bytes) : Option (Json × Bytes) :=
  match s with
  | 45 :: s =>
    if s.takeWhile isDigit = [] then none
    else some (int (-(decimalValue (s.takeWhile isDigit) : ℤ)), s.dropWhile isDigit)
  | s =>
    if s.takeWhile isDigit = [] then none
    else some (int (decimalValue (s.takeWhile isDigit)), s.dropWhile isDigit)

/-- The rest of a plain string, behind its opening quote. -/
def readStr (s : Bytes) : Option (Bytes × Bytes) :=
  match s.dropWhile (· ≠ 34) with
  | _ :: r => some (s.takeWhile (· ≠ 34), r)
  | [] => none

mutual

/-- A value, by recursive descent. -/
def readValue : ℕ → Bytes → Option (Json × Bytes)
  | 0, _ => none
  | _ + 1, 123 :: 125 :: s => some (obj [], s)
  | n + 1, 123 :: s => (readMembers n s).map fun x ↦ (obj x.1, x.2)
  | _ + 1, 91 :: 93 :: s => some (arr [], s)
  | n + 1, 91 :: s => (readElements n s).map fun x ↦ (arr x.1, x.2)
  | _ + 1, 34 :: s => (readStr s).map fun x ↦ (str x.1, x.2)
  | _ + 1, 116 :: 114 :: 117 :: 101 :: s => some (bool true, s)
  | _ + 1, 102 :: 97 :: 108 :: 115 :: 101 :: s => some (bool false, s)
  | _ + 1, 110 :: 117 :: 108 :: 108 :: s => some (null, s)
  | _ + 1, s => readInt s

/-- Members up to the closing brace. -/
def readMembers : ℕ → Bytes → Option (List (Bytes × Json) × Bytes)
  | n + 1, 34 :: s =>
    match readStr s with
    | some (name, 58 :: s) =>
      match readValue n s with
      | some (v, 44 :: s) => (readMembers n s).map fun x ↦ ((name, v) :: x.1, x.2)
      | some (v, 125 :: s) => some ([(name, v)], s)
      | _ => none
    | _ => none
  | _, _ => none

/-- Elements up to the closing bracket. -/
def readElements : ℕ → Bytes → Option (List Json × Bytes)
  | 0, _ => none
  | n + 1, s =>
    match readValue n s with
    | some (v, 44 :: s) => (readElements n s).map fun x ↦ (v :: x.1, x.2)
    | some (v, 93 :: s) => some ([v], s)
    | _ => none

end

/-- What may follow a number. -/
def EndsNumber (t : Bytes) : Prop := ∀ b, t.head? = some b → isDigit b = false

theorem endsNumber_cons {b : UInt8} (h : isDigit b = false) (t : Bytes) : EndsNumber (b :: t) := by
  rintro c hc
  obtain rfl := Option.some.inj hc
  exact h

theorem writeStr_plain {s : Bytes} (h : PlainStr s) : writeStr s = 34 :: (s ++ [34]) := by
  have hesc : s.map escape = s.map fun b ↦ [b] := by
    refine List.map_congr_left fun b hb ↦ ?_
    obtain ⟨h32, h126, h34, h92⟩ := h b hb
    have hctl : ∀ c : UInt8, c < 32 → b ≠ c := fun c hc hbc ↦ absurd h32 (not_le.2 (hbc ▸ hc))
    simp [escape, h34, h92, h32, h126, hctl 8 (by decide), hctl 12 (by decide),
      hctl 10 (by decide), hctl 13 (by decide), hctl 9 (by decide)]
  have hflat : (s.map fun b ↦ [b]).flatten = s := by
    rw [← List.flatMap_def, List.flatMap_singleton']
  rw [writeStr, hesc, hflat]

theorem readStr_append {s : Bytes} (h : PlainStr s) (t : Bytes) :
    readStr (s ++ 34 :: t) = some (s, t) := by
  have hall : ∀ b ∈ s, decide (b ≠ 34) = true := fun b hb ↦ decide_eq_true (h b hb).2.2.1
  rw [readStr, List.takeWhile_append_of_pos hall, List.dropWhile_append_of_pos hall]
  simp

theorem run_digits (n : ℕ) {t : Bytes} (ht : EndsNumber t) :
    (decimal n ++ t).takeWhile isDigit = decimal n ∧ (decimal n ++ t).dropWhile isDigit = t := by
  have hall : ∀ b ∈ decimal n, isDigit b = true := fun b hb ↦ isDigit_of_mem_decimal hb
  rw [List.takeWhile_append_of_pos hall, List.dropWhile_append_of_pos hall]
  cases t with
  | nil => simp
  | cons b t => simp [ht b rfl]

theorem readInt_decimalInt (n : ℤ) {t : Bytes} (ht : EndsNumber t) :
    readInt (decimalInt n ++ t) = some (int n, t) := by
  cases n with
  | ofNat n =>
    obtain ⟨htake, hdrop⟩ := run_digits n ht
    obtain ⟨c, s, hcs⟩ := List.exists_cons_of_ne_nil (decimal_ne_nil n)
    have hc : c ≠ 45 := by
      have hdigit : isDigit c = true := isDigit_of_mem_decimal (n := n) (hcs ▸ List.mem_cons_self)
      rintro rfl
      exact absurd hdigit (by decide)
    have hread : readInt (decimal n ++ t) =
        if (decimal n ++ t).takeWhile isDigit = [] then none
        else some (int (decimalValue ((decimal n ++ t).takeWhile isDigit)),
          (decimal n ++ t).dropWhile isDigit) := by
      rw [hcs, List.cons_append, readInt]
      exact fun _ h ↦ hc (List.cons.inj h).1
    rw [decimalInt, hread, htake, hdrop, if_neg (decimal_ne_nil n), decimalValue_decimal]
    rfl
  | negSucc n =>
    obtain ⟨htake, hdrop⟩ := run_digits (n + 1) ht
    rw [decimalInt, List.cons_append, readInt, htake, hdrop, if_neg (decimal_ne_nil _),
      decimalValue_decimal]
    rfl

/-- A byte that no other value starts with starts a number. -/
theorem readValue_number {c : UInt8} (hc : c = 45 ∨ isDigit c = true) (n : ℕ) (s : Bytes) :
    readValue (n + 1) (c :: s) = readInt (c :: s) := by
  have hne : ∀ d : UInt8, (d = 45 ∨ isDigit d = true) = False → c ≠ d := fun d hd h ↦
    (hd ▸ h ▸ hc : False)
  have h123 := hne 123 (by decide)
  have h91 := hne 91 (by decide)
  have h34 := hne 34 (by decide)
  have h116 := hne 116 (by decide)
  have h102 := hne 102 (by decide)
  have h110 := hne 110 (by decide)
  rw [readValue.eq_def]
  split <;> simp_all

theorem write_ne_nil {v : Json} (h : Plain v) : v.write ≠ [] := by
  cases h with
  | obj names values => simp [write]
  | arr h => simp [write]
  | str h => simp [write, writeStr]
  | bool b => cases b <;> simp [write, lit]
  | @int n _ _ => cases n <;> simp [write, decimalInt, decimal_ne_nil]
  | null => simp [write, lit]

/-- An object or an array that is not empty does not begin with its closing character. -/
theorem head?_write_ne {v : Json} (h : Plain v) (t : Bytes) :
    (v.write ++ t).head? ≠ some 93 := by
  cases h with
  | obj names values => simp [write]
  | arr h => simp [write]
  | str h => simp [write, writeStr]
  | bool b => cases b <;> simp [write, lit]
  | @int n _ _ =>
    cases n with
    | ofNat n =>
      obtain ⟨c, s, hcs⟩ := List.exists_cons_of_ne_nil (decimal_ne_nil n)
      have hc : isDigit c = true := isDigit_of_mem_decimal (n := n) (hcs ▸ List.mem_cons_self)
      rw [write, decimalInt, hcs]
      rintro heq
      obtain rfl := Option.some.inj heq
      exact absurd hc (by decide)
    | negSucc n => simp [write, decimalInt]
  | null => simp [write, lit]

mutual

/-- **The round trip**: what was written for a plain value is read back from the front of any text
that does not continue a number. -/
theorem readValue_write : ∀ {v : Json}, Plain v → ∀ (n : ℕ) {t : Bytes}, v.write.length ≤ n →
    EndsNumber t → readValue n (v.write ++ t) = some (v, t)
  | obj [], _, n, t, hn, _ => by
    obtain ⟨n, rfl⟩ : ∃ m, n = m + 1 := ⟨n - 1, by simp [write, writeMembers] at hn; omega⟩
    simp [write, writeMembers, readValue]
  | obj (m :: ms), .obj names values, n, t, hn, _ => by
    rw [write, List.length_cons, List.length_append, List.length_singleton] at hn
    obtain ⟨n, rfl⟩ : ∃ m, n = m + 1 := ⟨n - 1, by omega⟩
    have hms := readMembers_write names values n (List.cons_ne_nil m ms) t (by omega)
    -- a member begins with a quote, so the braces are not taken for an empty object
    obtain ⟨r, hr⟩ : ∃ r, writeMembers (m :: ms) ++ 125 :: t = 34 :: r := by
      obtain ⟨name, v⟩ := m
      cases ms with
      | nil => exact ⟨_, rfl⟩
      | cons m' ms => exact ⟨_, rfl⟩
    rw [write, List.cons_append, List.append_assoc, List.singleton_append]
    rw [hr] at hms ⊢
    rw [readValue, hms]
    · rfl
    · simp
  | arr [], _, n, t, hn, _ => by
    obtain ⟨n, rfl⟩ : ∃ m, n = m + 1 := ⟨n - 1, by simp [write, writeElements] at hn; omega⟩
    simp [write, writeElements, readValue]
  | arr (v :: vs), .arr h, n, t, hn, _ => by
    rw [write, List.length_cons, List.length_append, List.length_singleton] at hn
    obtain ⟨n, rfl⟩ : ∃ m, n = m + 1 := ⟨n - 1, by omega⟩
    have hvs := readElements_write h n (List.cons_ne_nil v vs) t (by omega)
    -- an element does not begin with a bracket that closes
    have hhead : (writeElements (v :: vs) ++ 93 :: t).head? ≠ some 93 := by
      cases vs with
      | nil => exact head?_write_ne (h v List.mem_cons_self) _
      | cons w vs =>
        rw [writeElements, List.append_assoc]
        exact head?_write_ne (h v List.mem_cons_self) _
    rw [write, List.cons_append, List.append_assoc, List.singleton_append, readValue, hvs]
    · rfl
    · intro s hs
      exact hhead (by rw [hs]; rfl)
  | str s, .str h, n, t, hn, _ => by
    obtain ⟨n, rfl⟩ : ∃ m, n = m + 1 := ⟨n - 1, by simp [write, writeStr] at hn; omega⟩
    rw [write, writeStr_plain h, List.cons_append, List.append_assoc, List.singleton_append,
      readValue, readStr_append h]
    rfl
  | bool b, _, n, t, hn, _ => by
    obtain ⟨n, rfl⟩ : ∃ m, n = m + 1 := ⟨n - 1, by cases b <;> simp [write, lit] at hn <;> omega⟩
    cases b with
    | false => rfl
    | true => rfl
  | int k, _, n, t, hn, ht => by
    -- no keyword begins like a number
    obtain ⟨c, s, hcs, hc⟩ : ∃ c s, decimalInt k = c :: s ∧ (c = 45 ∨ isDigit c = true) := by
      cases k with
      | ofNat k =>
        obtain ⟨c, s, hcs⟩ := List.exists_cons_of_ne_nil (decimal_ne_nil k)
        exact ⟨c, s, hcs, Or.inr (isDigit_of_mem_decimal (n := k) (hcs ▸ List.mem_cons_self))⟩
      | negSucc k => exact ⟨45, _, rfl, Or.inl rfl⟩
    rw [write, hcs, List.length_cons] at hn
    obtain ⟨n, rfl⟩ : ∃ m, n = m + 1 := ⟨n - 1, by omega⟩
    rw [write, hcs, List.cons_append, readValue_number hc, ← List.cons_append, ← hcs]
    exact readInt_decimalInt k ht
  | null, _, n, t, hn, _ => by
    obtain ⟨n, rfl⟩ : ∃ m, n = m + 1 := ⟨n - 1, by simp [write, lit] at hn; omega⟩
    rfl

theorem readMembers_write : ∀ {ms : List (Bytes × Json)}, (∀ m ∈ ms, PlainStr m.1) →
    (∀ m ∈ ms, Plain m.2) → ∀ (n : ℕ), ms ≠ [] → ∀ t : Bytes, (writeMembers ms).length + 1 ≤ n →
      readMembers n (writeMembers ms ++ 125 :: t) = some (ms, t)
  | [], _, _, _, hne, _, _ => absurd rfl hne
  | [(name, v)], names, values, n, _, t, hn => by
    have hname := names _ List.mem_cons_self
    have hv := values _ List.mem_cons_self
    obtain ⟨n, rfl⟩ : ∃ m, n = m + 1 := ⟨n - 1, by omega⟩
    have hlen : v.write.length ≤ n := by
      simp only [writeMembers, writeMember, List.length_append, List.length_cons] at hn
      omega
    -- the brace ends a value that is a number
    have hval := readValue_write hv n hlen (endsNumber_cons (show isDigit 125 = false by decide) t)
    have htext : writeMembers [(name, v)] ++ 125 :: t =
        34 :: (name ++ 34 :: (58 :: (v.write ++ 125 :: t))) := by
      simp [writeMembers, writeMember, writeStr_plain hname]
    rw [htext, readMembers, readStr_append hname]
    simp [hval]
  | (name, v) :: m :: ms, names, values, n, _, t, hn => by
    have hname := names _ List.mem_cons_self
    have hv := values _ List.mem_cons_self
    obtain ⟨n, rfl⟩ : ∃ m, n = m + 1 := ⟨n - 1, by omega⟩
    simp only [writeMembers, writeMember, List.length_append, List.length_cons] at hn
    have hval := readValue_write hv n (show v.write.length ≤ n by omega)
      (endsNumber_cons (show isDigit 44 = false by decide) (writeMembers (m :: ms) ++ 125 :: t))
    have hms := readMembers_write (fun q hq ↦ names q (List.mem_cons_of_mem _ hq))
      (fun q hq ↦ values q (List.mem_cons_of_mem _ hq)) n (List.cons_ne_nil m ms) t (by omega)
    have htext : writeMembers ((name, v) :: m :: ms) ++ 125 :: t =
        34 :: (name ++ 34 :: (58 :: (v.write ++ 44 :: (writeMembers (m :: ms) ++ 125 :: t)))) := by
      simp [writeMembers, writeMember, writeStr_plain hname]
    rw [htext, readMembers, readStr_append hname]
    simp [hval, hms]

theorem readElements_write : ∀ {vs : List Json}, (∀ v ∈ vs, Plain v) → ∀ (n : ℕ), vs ≠ [] →
    ∀ t : Bytes, (writeElements vs).length + 1 ≤ n →
      readElements n (writeElements vs ++ 93 :: t) = some (vs, t)
  | [], _, _, hne, _, _ => absurd rfl hne
  | [v], h, n, _, t, hn => by
    obtain ⟨n, rfl⟩ : ∃ m, n = m + 1 := ⟨n - 1, by omega⟩
    rw [writeElements] at hn ⊢
    have hval := readValue_write (h v List.mem_cons_self) n (by omega)
      (endsNumber_cons (show isDigit 93 = false by decide) t)
    rw [readElements, hval]
    rfl
  | v :: w :: vs, h, n, _, t, hn => by
    obtain ⟨n, rfl⟩ : ∃ m, n = m + 1 := ⟨n - 1, by omega⟩
    have hpos := List.length_pos_of_ne_nil (write_ne_nil (h v List.mem_cons_self))
    rw [writeElements, List.length_append, List.length_cons] at hn
    rw [writeElements, List.append_assoc, List.cons_append]
    have hval := readValue_write (h v List.mem_cons_self) n (show v.write.length ≤ n by omega)
      (endsNumber_cons (show isDigit 44 = false by decide) (writeElements (w :: vs) ++ 93 :: t))
    have hvs := readElements_write (fun u hu ↦ h u (List.mem_cons_of_mem _ hu)) n
      (List.cons_ne_nil w vs) t (by omega)
    rw [readElements, hval]
    simp [hvs]

end

/-- A reader by recursive descent, which leaves nothing but white space. -/
def plainReader : Reader where
  read s :=
    match readValue s.length s with
    | some (v, r) => if r.all isSpace then some v else none
    | none => none
  read_write := by
    intro v hv
    have hread := readValue_write hv (v.write ++ crlf).length (t := crlf) (by simp)
      (endsNumber_cons (by decide) _)
    rw [hread]
    rfl

theorem strict_plainReader : plainReader.Strict where
  nil := rfl
  html s := by
    have hvalue : readValue (60 :: s).length (60 :: s) = none := rfl
    simp only [plainReader, hvalue]

end Json

end Camlispp
