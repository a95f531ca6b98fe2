import Camlispp.Json.Reader

/-!
# What the JSON reader builds

The actions of the grammar build a value through a pointer, while it is being read. Here stands the
reader one would rather think about: `value`, which returns the value that a text denotes. The
grammar with its actions follows it (`follows_value_`): wherever a value is read, the actions add
exactly this value to the object or array that is being filled, and leave the pointer and the stack
where they were.

What carries the argument is the state inside an object or array: `Within s c s'` says that the
state `s'` was reached from `s` by opening a container that is now `c`. The value is then as if `c`
had been added whole, and the pointer is at it. So every assertion holds and no pointer dangles, and
`read_eq` reads the result off.

## What the result rests on

* `Follows`, of `Actions`, goes through the operators of the grammar. What is left are the tokens
  and the four actions that open and close.
* `exists_beginCompound` and `Within.exists_endCompound`: between them the state is `Within` the
  container that was opened.
* `at?_modifyAt` and `modifyAt_append`: following a path and changing what is there commute, so a
  pointer that was good before an addition is good afterwards.
* `obeys_value` is by induction on the depth of the nesting, which the length of the text bounds.

An action is never undone. In this grammar a rule that fails does so in front of its first action,
and behind it can only throw; `Follows` makes that an obligation of every rule.
-/

open Bytes

namespace Camlispp

namespace Json

/-! ### The reader without actions -/

namespace Meaning

/-- A rule that returns what it read, or throws a reason. -/
abbrev Rule (α : Type) := Reads Bytes UInt8 α

/-- A string. -/
def string : Rule Bytes := .map getStrText (.token string_)

/-- A number. -/
def number (P : RealParser) : Rule Json :=
  .alt (.map real (.token (skipped P.parse)))
    (.alt (.map int (.token (skipped int64P))) (.map int (.token (skipped uint64P))))

/-- A member of an object. -/
def pair (value : Rule Json) : Rule (Bytes × Json) :=
  .map (fun x ↦ (x.1.1, x.2))
    (.seq (.seq string (.orThrow (.token (chP 58)) (lit "no colon in pair")))
      (.orThrow value (lit "not a value")))

/-- One or more, with commas between them. -/
def commas {α : Type} (p : Rule α) : Rule (List α) :=
  .map (fun x ↦ x.1 :: x.2) (.seq p (.star (.map Prod.snd (.seq (.token (chP 44)) p))))

/-- None or more between brackets. -/
def enclosed {α : Type} (opening closing : UInt8) (p : Rule α) (reason : Bytes) :
    Rule (List α) :=
  .map (fun x ↦ x.1.2.getD [])
    (.seq (.seq (.token (chP opening)) (.opt (commas p))) (.orThrow (.token (chP closing)) reason))

/-- A value that is nested less than `depth` deep. -/
def value (P : RealParser) : ℕ → Rule Json
  | 0 => fun _ ↦ .ok none
  | depth + 1 =>
    .alt (.map str string)
      (.alt (number P)
        (.alt (.map obj (enclosed 123 125 (pair (value P depth)) (lit "not an object")))
          (.alt (.map arr (enclosed 91 93 (value P depth) (lit "not an array")))
            (.alt (.map (fun _ ↦ bool true) (.token (strP (lit "true"))))
              (.alt (.map (fun _ ↦ bool false) (.token (strP (lit "false"))))
                (.map (fun _ ↦ null) (.token (strP (lit "null")))))))))

end Meaning

/-! ### Changing a value at the end of a path -/

theorem modifyAt_append (f : Json → Json) (p q : List ℕ) (v : Json) :
    modifyAt f (p ++ q) v = modifyAt (modifyAt f q) p v := by
  induction p generalizing v with
  | nil => rfl
  | cons i p ih =>
    rw [List.cons_append]
    rcases v with ms | es | _ | _ | _ | _ | _
    · rw [modifyAt, modifyAt]
      congr 2
      funext m
      rw [ih]
    · rw [modifyAt, modifyAt]
      congr 2
      funext e
      exact ih e
    all_goals rfl

theorem modifyAt_modifyAt (f g : Json → Json) (p : List ℕ) (v : Json) :
    modifyAt g p (modifyAt f p v) = modifyAt (g ∘ f) p v := by
  induction p generalizing v with
  | nil => rfl
  | cons i p ih =>
    rcases v with ms | es | _ | _ | _ | _ | _
    · simp only [modifyAt, List.modify_modify_eq]
      congr 2
      funext m
      exact congrArg (Prod.mk m.1) (ih m.2)
    · simp only [modifyAt, List.modify_modify_eq]
      congr 2
      funext e
      exact ih e
    all_goals rfl

theorem at?_modifyAt (f : Json → Json) (p : List ℕ) (v : Json) :
    (modifyAt f p v).at? p = (v.at? p).map f := by
  induction p generalizing v with
  | nil => rfl
  | cons i p ih =>
    rcases v with ms | es | _ | _ | _ | _ | _
    · rw [modifyAt, at?, at?, List.getElem?_modify_eq]
      rcases ms[i]? with - | m
      · rfl
      · exact ih m.2
    · rw [modifyAt, at?, at?, List.getElem?_modify_eq]
      rcases es[i]? with - | e
      · rfl
      · exact ih e
    all_goals rfl

theorem at?_append (p q : List ℕ) (v : Json) : v.at? (p ++ q) = (v.at? p).bind (at? q) := by
  induction p generalizing v with
  | nil => rfl
  | cons i p ih =>
    rw [List.cons_append]
    rcases v with ms | es | _ | _ | _ | _ | _
    · rw [at?, at?, Option.bind_assoc]
      congr 1
      funext m
      exact ih m.2
    · rw [at?, at?, Option.bind_assoc]
      congr 1
      funext e
      exact ih e
    all_goals rfl

theorem modify_length {α : Type} (f : α → α) (l : List α) (a : α) :
    (l ++ [a]).modify l.length f = l ++ [f a] := by
  rw [List.modify_eq_take_cons_drop (by simp)]
  simp

theorem modify_congr {α : Type} {f g : α → α} {l : List α} {i : ℕ} {a : α} (h : l[i]? = some a)
    (hfg : f a = g a) : l.modify i f = l.modify i g := by
  refine List.ext_getElem? fun j ↦ ?_
  rw [List.getElem?_modify, List.getElem?_modify]
  split_ifs with hij
  · rw [← hij, h]
    exact congrArg some hfg
  · rfl

/-- Only what is at the end of the path matters. -/
theorem modifyAt_congr {f g : Json → Json} {p : List ℕ} {v c : Json} (h : v.at? p = some c)
    (hfg : f c = g c) : modifyAt f p v = modifyAt g p v := by
  induction p generalizing v with
  | nil =>
    obtain rfl := Option.some.inj h
    exact hfg
  | cons i p ih =>
    rcases v with ms | es | _ | _ | _ | _ | _
    · obtain ⟨m, hm, hc⟩ := Option.bind_eq_some_iff.1 h
      exact congrArg obj (modify_congr hm (congrArg (Prod.mk m.1) (ih hc)))
    · obtain ⟨e, he, hc⟩ := Option.bind_eq_some_iff.1 h
      exact congrArg arr (modify_congr he (ih hc))
    all_goals cases h

/-- Arrays and objects. -/
inductive IsCompound : Json → Prop
  | arr (es : List Json) : IsCompound (arr es)
  | obj (ms : List (Bytes × Json)) : IsCompound (obj ms)

/-- How many elements or members there are. -/
def size : Json → ℕ
  | arr es => es.length
  | obj ms => ms.length
  | _ => 0

/-- What was added last is at the end of the path to it. -/
theorem at?_push {c : Json} (hc : c.IsCompound) (name : Bytes) (v : Json) :
    (push name v c).at? [c.size] = some v := by
  rcases hc with es | ms
  · simp [push, size, at?]
  · simp [push, size, at?]

/-- Changing what was added last is adding it changed. -/
theorem modifyAt_push {c : Json} (hc : c.IsCompound) (name : Bytes) (f : Json → Json) (v : Json) :
    modifyAt f [c.size] (push name v c) = push name (f v) c := by
  rcases hc with es | ms
  · exact congrArg arr (modify_length _ es v)
  · exact congrArg obj (modify_length _ ms (name, v))

/-! ### What the actions do -/

namespace SemanticActions

variable {s s' s'' : SemanticActions} {c v : Json}

/-- The pointer is at an array or an object, if it is not null. -/
def Ready (s : SemanticActions) : Prop :=
  ∀ p, s.current = some p → ∃ c, s.value.at? p = some c ∧ c.IsCompound

/-- The state with one more value. -/
def add (s : SemanticActions) (v : Json) : SemanticActions :=
  match s.current with
  | none => { s with value := v, current := some [] }
  | some p => { s with value := s.value.modifyAt (push s.name v) p }

/-- The pointer to the next value that is added. -/
def inner (s : SemanticActions) : List ℕ :=
  match s.current with
  | none => []
  | some p => p ++ [((s.value.at? p).map size).getD 0]

/-- The stack inside the next value that is added. -/
def outer (s : SemanticActions) : List (List ℕ) :=
  match s.current with
  | none => s.stack
  | some p => p :: s.stack

/-- One more value, and any name. -/
def Added (s : SemanticActions) (v : Json) (s' : SemanticActions) : Prop :=
  ∃ name, s' = { s.add v with name := name }

/-- Inside of `c`, which is the next value to be added: it is in its place already, and the pointer
is at it. -/
def Within (s : SemanticActions) (c : Json) (s' : SemanticActions) : Prop :=
  ∃ name, s' = { s.add c with current := some s.inner, stack := s.outer, name := name }

theorem addToCurrent_eq (hs : s.Ready) (v : Json) :
    s.addToCurrent v = .ok (s.add v, s.inner) := by
  rw [addToCurrent, add, inner]
  rcases hcur : s.current with - | p
  · simp only [addFirst, hcur, if_true]
  · obtain ⟨c, hc, hcomp⟩ := hs p hcur
    rcases hcomp with es | ms
    · simp only [hc, Option.map_some, Option.getD_some, size]
    · simp only [hc, Option.map_some, Option.getD_some, size]

theorem addValue_eq (hs : s.Ready) (v : Json) : s.addValue v = .ok (s.add v) := by
  rw [addValue, addToCurrent_eq hs]
  rfl

theorem Ready.added (hs : s.Ready) (v : Json) : ∃ s', s.addValue v = .ok s' ∧ s.Added v s' :=
  ⟨s.add v, addValue_eq hs v, s.add v |>.name, rfl⟩

/-- What was added last is where the pointer to it says. -/
theorem at?_inner (hs : s.Ready) (c : Json) : (s.add c).value.at? s.inner = some c := by
  rw [add, inner]
  rcases hcur : s.current with - | p
  · rfl
  · obtain ⟨d, hd, hcomp⟩ := hs p hcur
    simp only [at?_append, at?_modifyAt, hd, Option.map_some, Option.getD_some, Option.bind_some]
    exact at?_push hcomp s.name c

/-- Changing it there is adding it changed. -/
theorem modifyAt_inner (hs : s.Ready) (f : Json → Json) (c : Json) :
    (s.add c).value.modifyAt f s.inner = (s.add (f c)).value := by
  rw [add, inner, add]
  rcases hcur : s.current with - | p
  · rfl
  · obtain ⟨d, hd, hcomp⟩ := hs p hcur
    simp only [modifyAt_append, modifyAt_modifyAt, hd, Option.map_some, Option.getD_some]
    exact modifyAt_congr hd (modifyAt_push hcomp s.name f c)

theorem exists_beginCompound (hs : s.Ready) (c : Json) :
    ∃ s', s.beginCompound c = .ok s' ∧ s.Within c s' := by
  rcases hcur : s.current with - | p
  · refine ⟨_, ?_, s.name, rfl⟩
    simp only [beginCompound, hcur, addFirst, if_true, Except.map, add, inner, outer]
  · obtain ⟨value, current, stack, name⟩ := s
    obtain rfl : current = some p := hcur
    have hs' : Ready ⟨value, some p, p :: stack, name⟩ := hs
    refine ⟨_, ?_, name, rfl⟩
    simp only [beginCompound, addToCurrent_eq hs', add, inner, outer]

theorem Within.exists_endCompound (h : s.Within c s') :
    ∃ s'', s'.endCompound = .ok s'' ∧ s.Added c s'' := by
  obtain ⟨name, rfl⟩ := h
  refine ⟨{ s.add c with name := name }, ?_, name, rfl⟩
  rw [endCompound]
  rcases hcur : s.current with - | p
  · simp only [inner, outer, add, hcur, if_true]
  · simp only [inner, outer, add, hcur]
    simp

theorem Within.at? (hs : s.Ready) (h : s.Within c s') :
    ∃ p, s'.current = some p ∧ s'.value.at? p = some c := by
  obtain ⟨name, rfl⟩ := h
  exact ⟨s.inner, rfl, at?_inner hs c⟩

theorem Within.ready (hs : s.Ready) (h : s.Within c s') (hc : c.IsCompound) : s'.Ready := by
  obtain ⟨p, hp, hat⟩ := h.at? hs
  intro q hq
  obtain rfl := Option.some.inj (hp.symm.trans hq)
  exact ⟨c, hat, hc⟩

/-- **One more value inside** of a container makes the container larger by this value. -/
theorem Within.add (hs : s.Ready) (h : s.Within c s') (h' : s'.Added v s'') :
    s.Within (push s'.name v c) s'' := by
  obtain ⟨name, rfl⟩ := h
  obtain ⟨name', rfl⟩ := h'
  refine ⟨name', ?_⟩
  have hvalue := modifyAt_inner hs (push name v) c
  simp only [SemanticActions.add] at hvalue ⊢
  rw [hvalue]

/-- The name may change. -/
theorem Within.rename (h : s.Within c s') (name : Bytes) :
    s.Within c { s' with name := name } := by
  obtain ⟨_, rfl⟩ := h
  exact ⟨name, rfl⟩

end SemanticActions

/-! ### The grammar follows the reader -/

section Follows

open SemanticActions Grammer

/-- Inside of a container with some entries. -/
def Filling {β : Type} (wrap : List β → Json) (s : SemanticActions) : Prop :=
  ∃ (s₀ : SemanticActions) (us : List β), s₀.Ready ∧ s₀.Within (wrap us) s

/-- The entries `bs` have been added to the container that is being filled. -/
def Extends {β : Type} (wrap : List β → Json) (s : SemanticActions) (bs : List β)
    (s' : SemanticActions) : Prop :=
  ∀ (s₀ : SemanticActions) (us : List β), s₀.Ready → s₀.Within (wrap us) s →
    s₀.Within (wrap (us ++ bs)) s'

/-- The rule `p` does what `q` says it read. -/
abbrev Obeys {α : Type} (I : SemanticActions → Prop)
    (F : SemanticActions → α → SemanticActions → Prop) (p : Grammer.Rule)
    (q : Meaning.Rule α) : Prop :=
  Follows Interrupt.thrown I F p q

theorem eq_of_chP {c a : UInt8} {t r : Bytes} (h : chP c t = some (a, r)) : a = c := by
  rw [chP, skipped] at h
  rcases ht : t.dropWhile isSpace with - | ⟨b, u⟩
  · rw [ht] at h
    cases h
  · rw [ht, Peg.satisfy] at h
    split_ifs at h with hb
    obtain ⟨rfl, -⟩ := Prod.mk.inj (Option.some.inj h)
    exact of_decide_eq_true hb

/-- A token without an action. -/
theorem obeys_noAction {α : Type} (p : Peg UInt8 α) :
    Obeys (fun _ ↦ True) (fun s _ s' ↦ s' = s) (noAction p) (Reads.token p) :=
  follows_token p fun s _ _ _ _ _ ↦ ⟨s, rfl, rfl⟩

/-- A token whose action adds a value. -/
theorem obeys_token {α : Type} (p : Peg UInt8 α) {f : SemanticActions → α → _} (g : α → Json)
    (h : ∀ s t a r, p t = some (a, r) → f s a = s.addValue (g a)) :
    Obeys Ready (fun s a s' ↦ s.Added (g a) s') (.token p f) (Reads.token p) := by
  refine follows_token p fun s t a r hs hp ↦ ?_
  rw [h s t a r hp]
  exact hs.added (g a)

theorem obeys_newStr :
    Obeys Ready Added (.token string_ newStr) (.map str Meaning.string) := by
  have htoken := obeys_token string_ (f := newStr) (fun a ↦ str (getStrText a)) fun s t a r h ↦ by
    obtain ⟨v, -, rfl, -⟩ := stringText_eq_some_iff.1 h
    rw [newStr, getStr_, if_neg (by simp)]
    rfl
  have hstring : Obeys Ready (fun s x s' ↦ s.Added (str x) s') (.token string_ newStr)
      Meaning.string := htoken.map fun s a s' _ h ↦ h
  exact hstring.map fun s a s' _ h ↦ h

theorem obeys_number (P : RealParser) : Obeys Ready Added (number_ P) (Meaning.number P) :=
  ((obeys_token _ real fun _ _ _ _ _ ↦ rfl).map fun _ _ _ _ h ↦ h).alt
    (((obeys_token _ int fun _ _ _ _ _ ↦ rfl).map fun _ _ _ _ h ↦ h).alt
      ((obeys_token _ int fun _ _ _ _ _ ↦ rfl).map fun _ _ _ _ h ↦ h))

/-- `true`, `false` and `null`. -/
theorem obeys_keyword (keyword : Bytes) (v : Json) :
    Obeys Ready Added (.token (strP keyword) (newKeyword keyword v))
      (.map (fun _ ↦ v) (.token (strP keyword))) := by
  have htoken := obeys_token (strP keyword) (f := newKeyword keyword v) (fun _ ↦ v)
      fun s t a r h ↦ by
    obtain ⟨x, hx, rfl⟩ := Peg.text_eq_some h
    rw [Peg.literal] at hx
    split_ifs at hx with hpre
    obtain ⟨-, rfl⟩ := Prod.mk.inj (Option.some.inj hx)
    have hle := (List.isPrefixOf_iff_prefix.1 hpre).length_le
    have htake : (t.dropWhile isSpace).length - ((t.dropWhile isSpace).drop keyword.length).length =
        keyword.length := by
      rw [List.length_drop]
      omega
    rw [newKeyword, htake, ← List.prefix_iff_eq_take.1 (List.isPrefixOf_iff_prefix.1 hpre), isEq,
      if_pos (by simp)]
  exact htoken.map fun s a s' _ h ↦ h

theorem obeys_newName : Obeys (Filling obj) (fun s name s' ↦ s' = { s with name := name })
    (.token string_ newName) Meaning.string := by
  have htoken : Obeys (Filling obj) (fun s a s' ↦ s' = { s with name := getStrText a })
      (.token string_ newName) (.token string_) := by
    refine follows_token string_ fun s t a r hs h ↦ ?_
    obtain ⟨s₀, ms, hready, hwithin⟩ := hs
    obtain ⟨p, hp, hat⟩ := hwithin.at? hready
    obtain ⟨v, -, rfl, -⟩ := stringText_eq_some_iff.1 h
    refine ⟨_, ?_, rfl⟩
    simp only [newName, hp, hat, getStr_]
    rw [if_neg (by simp)]
    rfl
  exact htoken.map fun s a s' _ h ↦ h

variable {value_ : Grammer.Rule} {value : Meaning.Rule Json}

/-- **A member.** Its name is set when its value is added. -/
theorem obeys_pair (h : Obeys Ready Added value_ value) :
    Obeys (Filling obj) (fun s m s' ↦ Extends obj s [m] s') (pair_ value_)
      (Meaning.pair value) := by
  have hcolon := (obeys_noAction (chP 58)).orThrow (lit "no colon in pair")
  have hname := obeys_newName.seq hcolon (fun _ _ _ _ _ ↦ trivial)
    (Or.inl Reads.orThrow_ne_none)
  have hpair := hname.seq (h.orThrow (lit "not a value")) ?_ (Or.inl Reads.orThrow_ne_none)
  · refine hpair.map ?_
    rintro s ⟨⟨name, c⟩, v⟩ s' - ⟨s₂, ⟨s₁, rfl, rfl⟩, hadded⟩ s₀ ms hready hwithin
    exact (hwithin.rename name).add hready hadded
  · rintro s ⟨name, c⟩ s' ⟨s₀, ms, hready, hwithin⟩ ⟨s₁, rfl, rfl⟩
    exact (hwithin.rename name).ready hready (.obj ms)

/-- An element. -/
theorem obeys_element (h : Obeys Ready Added value_ value) :
    Obeys (Filling arr) (fun s v s' ↦ Extends arr s [v] s') value_ value := by
  refine h.mono ?_ ?_
  · rintro s ⟨s₀, es, hready, hwithin⟩
    exact hwithin.ready hready (.arr es)
  · intro s v s' _ hadded s₀ es hready hwithin
    exact hwithin.add hready hadded

variable {β : Type} {wrap : List β → Json} {p : Grammer.Rule} {q : Meaning.Rule β}

theorem Filling.extends {s s' : SemanticActions} {bs : List β} (hs : Filling wrap s)
    (h : Extends wrap s bs s') : Filling wrap s' := by
  obtain ⟨s₀, us, hready, hwithin⟩ := hs
  exact ⟨s₀, us ++ bs, hready, h s₀ us hready hwithin⟩

/-- Entries added one at a time. -/
theorem extends_of_iterates {s s' : SemanticActions} {bs : List β}
    (h : Iterates (fun s b s' ↦ Extends wrap s [b] s') s bs s') : Extends wrap s bs s' := by
  induction h with
  | nil s =>
    intro s₀ us hready hwithin
    rwa [List.append_nil]
  | cons head tail ih =>
    intro s₀ us hready hwithin
    have hrest := ih s₀ _ hready (head s₀ us hready hwithin)
    rwa [List.append_assoc, List.singleton_append] at hrest

/-- Entries with commas between them. -/
theorem obeys_commas (h : Obeys (Filling wrap) (fun s b s' ↦ Extends wrap s [b] s') p q) :
    Obeys (Filling wrap) (Extends wrap) (.seq p (.star (.seq (noAction (chP 44)) p)))
      (Meaning.commas q) := by
  have hcomma : Obeys (Filling wrap) (fun s b s' ↦ Extends wrap s [b] s')
      (.seq (noAction (chP 44)) p) (.map Prod.snd (.seq (.token (chP 44)) q)) := by
    have hnone := (obeys_noAction (chP 44)).mono (fun (s : SemanticActions) (_ : Filling wrap s) ↦
      trivial) fun _ _ _ _ h ↦ h
    refine (hnone.seq h (fun s _ s' hs h ↦ h ▸ hs) (Or.inr fun _ _ _ h ↦ h)).map ?_
    rintro s ⟨c, b⟩ s' - ⟨s₁, rfl, hext⟩
    exact hext
  have hstar := hcomma.star fun s b s' hs h ↦ hs.extends h
  refine (h.seq hstar (fun s b s' hs h ↦ hs.extends h) (Or.inl Reads.star_ne_none)).map ?_
  rintro s ⟨b, bs⟩ s' - ⟨s₁, hhead, htail⟩
  exact extends_of_iterates (.cons hhead (by simpa using htail))

/-- **An object or an array.** It is opened, its entries are added, and it is closed. -/
theorem obeys_enclosed (opening closing : UInt8) (start finish : SemanticActions → UInt8 → _)
    (hstart : ∀ s, start s opening = beginCompound s (wrap []))
    (hfinish : ∀ s, finish s closing = endCompound s)
    (h : Obeys (Filling wrap) (fun s b s' ↦ Extends wrap s [b] s') p q) (reason : Bytes) :
    Obeys Ready (fun s bs s' ↦ s.Added (wrap bs) s')
      (.seq (.seq (.token (chP opening) start)
          (.opt (.seq p (.star (.seq (noAction (chP 44)) p)))))
        (.orThrow (.token (chP closing) finish) (.thrown reason)))
      (Meaning.enclosed opening closing q reason) := by
  have hopen : Obeys Ready (fun s _ s' ↦ s.Ready ∧ s.Within (wrap []) s')
      (.token (chP opening) start) (.token (chP opening)) := by
    refine follows_token _ fun s t a r hs ha ↦ ?_
    obtain ⟨s', hs', hwithin⟩ := exists_beginCompound hs (wrap [])
    rw [eq_of_chP ha, hstart]
    exact ⟨s', hs', hs, hwithin⟩
  -- closing needs to know what was opened, so it is described by the state behind it
  have hclose : Obeys (Filling wrap)
      (fun s _ s' ↦ ∀ (s₀ : SemanticActions) us, s₀.Within (wrap us) s → s₀.Added (wrap us) s')
      (.token (chP closing) finish) (.token (chP closing)) := by
    refine follows_token _ fun s t a r hs ha ↦ ?_
    obtain ⟨s₀, us, hready, hwithin⟩ := hs
    obtain ⟨s', hs', hadded⟩ := hwithin.exists_endCompound
    rw [eq_of_chP ha, hfinish]
    refine ⟨s', hs', fun s₁ us' hwithin' ↦ ?_⟩
    obtain ⟨s'', hs'', hadded'⟩ := hwithin'.exists_endCompound
    obtain rfl := Except.ok.inj (hs'.symm.trans hs'')
    exact hadded'
  have hentries := hopen.seq (obeys_commas h).opt
    (fun s _ s' _ hs' ↦ ⟨s, [], hs'.1, hs'.2⟩) (Or.inl Reads.opt_ne_none)
  have hext : ∀ {s s' : SemanticActions} {x : Option (List β)},
      Iterates (Extends wrap) s x.toList s' → Extends wrap s (x.getD []) s' := by
    intro s s' x hx
    rcases x with - | bs
    · cases hx
      exact extends_of_iterates (.nil s)
    · obtain - | ⟨head, tail⟩ := hx
      cases tail
      exact head
  have hall := hentries.seq (hclose.orThrow reason) ?_ (Or.inl Reads.orThrow_ne_none)
  · refine hall.map ?_
    rintro s ⟨⟨a, x⟩, c⟩ s' - ⟨s₂, ⟨s₁, ⟨hready, hwithin⟩, hx⟩, hadded⟩
    have hwithin₂ := hext hx s [] hready hwithin
    rw [List.nil_append] at hwithin₂
    exact hadded s _ hwithin₂
  · rintro s ⟨a, x⟩ s₂ - ⟨s₁, ⟨hready, hwithin⟩, hx⟩
    exact ⟨s, [] ++ x.getD [], hready, hext hx s [] hready hwithin⟩

/-- **The grammar with its actions adds the value that is read**, and leaves the pointer and the
stack as they were. By induction on the depth. -/
theorem obeys_value (P : RealParser) (depth : ℕ) :
    Obeys Ready Added (Grammer.value_ P depth) (Meaning.value P depth) := by
  induction depth with
  | zero => exact fun s t _ ↦ rfl
  | succ depth ih =>
    have hobj := (obeys_enclosed 123 125 beginObj endObj (fun _ ↦ rfl) (fun _ ↦ rfl)
      (obeys_pair ih) (lit "not an object")).map fun s ms s' (_ : Ready s) h ↦ h
    have harr := (obeys_enclosed 91 93 beginArray endArray (fun _ ↦ rfl) (fun _ ↦ rfl)
      (obeys_element ih) (lit "not an array")).map fun s es s' (_ : Ready s) h ↦ h
    exact obeys_newStr.alt ((obeys_number P).alt (hobj.alt (harr.alt
      ((obeys_keyword (lit "true") (bool true)).alt
        ((obeys_keyword (lit "false") (bool false)).alt
          (obeys_keyword (lit "null") null))))))

end Follows

/-- The value that a text begins with. -/
def denoted (P : RealParser) (t : Bytes) : Option Json :=
  match Meaning.value P (t.length + 1) t with
  | .ok (some (v, _)) => some v
  | _ => none

/-- **The reader is right, and no assertion of it fails**: it returns the value that the text
begins with, and false where there is none. -/
theorem read_eq (P : RealParser) (t : Bytes) : read P t = .ok (denoted P t) := by
  have hjson := (obeys_value P (t.length + 1)).orThrow (lit "not a value")
  have hinit : SemanticActions.Ready ⟨null, none, [], []⟩ := fun p hp ↦ by cases hp
  rw [read, readRangeOrThrow, Grammer.json_, denoted]
  rcases hvalue : Meaning.value P (t.length + 1) t with reason | - | ⟨v, r⟩
  · rw [hjson.of_error hinit (d := reason) (by rw [Reads.orThrow, hvalue])]
  · rw [hjson.of_error hinit (d := lit "not a value") (by rw [Reads.orThrow, hvalue])]
  · obtain ⟨s, hs, name, rfl⟩ := hjson.of_some hinit (by rw [Reads.orThrow, hvalue])
    rw [hs]
    rfl

end Json

end Camlispp
