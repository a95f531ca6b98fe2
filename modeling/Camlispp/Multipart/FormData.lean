import Camlispp.Library.OrdMap
import Camlispp.Multipart.Grammar

/-!
# Reading a multipart body

`MultiPartFormData` and the classes around it: the chunks of a body, the tokens of a chunk, and the
part they make. The last token of a chunk is its payload, without its last CRLF; the others are
header lines.

## Where a part is lost

A chunk whose tokens cannot be read is passed over, and so is a body that has no chunks; neither is
an error to the caller. A header line without a colon, or with parameters that cannot be read, is
left out of its part, and the part is kept.

`chunkParts` is the same reading with each chunk beside its part (`map_snd_chunkParts`). It is there
for statements about what a sender wrote, which the part alone does not show.

The payload rests on the last token only: header lines are added to a part that has it already
(`Part.payload_addHeader`).
-/

open Bytes Peg

namespace Camlispp

/-! ### The classes -/

/-- A header with the parameters of its value. -/
structure Header where
  name : Bytes
  attributes : OrdMap Bytes Bytes
deriving DecidableEq

/-- The value of the first attribute, in map order, whose name matches up to case. -/
def Header.attributeValue (h : Header) (name : Bytes) : Option Bytes :=
  (h.attributes.entries.find? fun e ↦ lower e.1 = lower name).map Prod.snd

/-- One part of a form. -/
structure Part where
  headers : List Header
  payload : Bytes
deriving DecidableEq

/-- `Part::add_header(std::string)`. -/
def Part.addHeader (part : Part) (input : Bytes) : Part :=
  let split := findUnsigned (lit ":") input
  if split = npos then part
  else
    let headerName := input.take split
    let headerText := input.drop ((split + 1) % 2 ^ 32)
    match headerTokens headerText with
    | none => part
    | some (tokens, _) =>
      { part with headers := part.headers ++ [⟨headerName, OrdMap.collect tokens⟩] }

/-- The part of a token vector, which is walked from its end. -/
def Part.ofTokens (tokens : List Bytes) : Part :=
  match tokens.reverse with
  | [] => ⟨[], []⟩
  | last :: rest => rest.foldl Part.addHeader ⟨[], eraseLast crlf last⟩

/-- The constructor of `MultiPartFormData`, as the list of its parts. -/
def multiPartFormData (boundry input : Bytes) : List Part :=
  match chunks boundry input with
  | none => []
  | some (chunksVector, _) =>
    chunksVector.filterMap fun chunkData ↦ (chunkTokens chunkData).map fun x ↦ Part.ofTokens x.1

/-- The parts of a body, each with the chunk it is made of. -/
def chunkParts (boundry input : Bytes) : List (Bytes × Part) :=
  match chunks boundry input with
  | none => []
  | some (chunksVector, _) =>
    chunksVector.filterMap fun chunkData ↦
      (chunkTokens chunkData).map fun x ↦ (chunkData, Part.ofTokens x.1)

theorem map_snd_chunkParts (boundry input : Bytes) :
    (chunkParts boundry input).map Prod.snd = multiPartFormData boundry input := by
  rw [chunkParts, multiPartFormData]
  rcases chunks boundry input with - | ⟨cs, r⟩
  · rfl
  · dsimp only
    rw [List.map_filterMap]
    refine List.filterMap_congr fun c _ ↦ ?_
    rw [Option.map_map]
    rfl

/-- `parse_boundry_header`. -/
def parseBoundryHeader (headerText : Bytes) : Header :=
  match headerTokens headerText with
  | none => ⟨lit "Content-Type", .empty⟩
  | some (tokens, _) => ⟨lit "Content-Type", OrdMap.collect tokens⟩

@[simp] theorem Part.payload_addHeader (part : Part) (input : Bytes) :
    (part.addHeader input).payload = part.payload := by
  simp only [Part.addHeader]
  split_ifs
  · rfl
  · split <;> rfl

theorem Part.payload_foldl_addHeader (inputs : List Bytes) (part : Part) :
    (inputs.foldl Part.addHeader part).payload = part.payload := by
  induction inputs generalizing part with
  | nil => rfl
  | cons i is ih => rw [List.foldl_cons, ih, Part.payload_addHeader]

/-- The payload is the last token without its last CRLF. -/
theorem Part.payload_ofTokens_append (tokens : List Bytes) (last : Bytes) :
    (Part.ofTokens (tokens ++ [last])).payload = eraseLast crlf last := by
  rw [Part.ofTokens, List.reverse_append]
  exact Part.payload_foldl_addHeader _ _

end Camlispp
