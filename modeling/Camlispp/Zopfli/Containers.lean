import Camlispp.Library.Gzip
import Camlispp.Server.Containment
import Camlispp.Zopfli.Deflate

/-!
# Containers

`ZopfliCompress` puts the stream between the header and the trailer of one of three formats. **What
it returns is read back, as long as there is something to compress** (`decode_zopfliCompress_iff`):
nothing is written for no input, not even an empty block, and that is no file of any of the formats
(`decode_zopfliCompress_nil`). So a client that asks `handle_get` for an encoding gets the bytes of
the file (`decodeReply_handleGet`).

The checksums are the fast ones, a table for the CRC and a reduction after 5550 bytes for Adler-32;
`crc_eq` and `adler32_eq` say that they are the slow ones, the latter because the sums do not
overflow in between.

## What each result rests on

* `exists_zopfliDeflate` gives the stream, and the readers of `Gzip` the file around it
  (`gunzip_deflated`, `unzlib_deflated`, `undeflate_deflated`).
* `crc_eq` is `crcByte_eq` for a table of 256 entries. `adler32_eq` rests on `Sums`: in 5550 bytes
  neither sum reaches `2 ^ 32`.
* `decodeReply_handleGet` says it of `handle_get`: the compressor of the environment is this one,
  with the default options (`Compresses`), and the strategies are sound.

A gzip file takes less than `2 ^ 31` bytes, since the length of the checksum's loop is an `int`, and
a zlib file less than `2 ^ 32`.
-/

namespace Camlispp

namespace Zopfli

open Bits Bytes Http Inflate Gzip

/-! ### CRC -/

/-- `MakeCRCTable`. -/
def crcTable : List ℕ := (List.range 256).map fun n ↦ (List.range 8).foldl (fun c _ ↦
  if c &&& 1 ≠ 0 then 0xedb88320 ^^^ (c >>> 1) else c >>> 1) n

/-- `UpdateCRC`. -/
def updateCRC (crc : ℕ) (buf : Bytes) : ℕ :=
  let c := crc ^^^ 0xffffffff
  let c := buf.foldl (fun c b ↦ crcTable.getD ((c ^^^ b.toNat) &&& 0xff) 0 ^^^ (c >>> 8)) c
  c ^^^ 0xffffffff

/-- `CRC` of a buffer, whose size becomes an `int`: a negative one is a `size_t` that runs past the
end of the buffer. -/
def crc (buf : Bytes) : Option ℕ :=
  let len := buf.length % 2 ^ 32
  if len < 2 ^ 31 then some (updateCRC 0 (buf.take len)) else none

/-- The entries of the table. -/
theorem getD_crcTable {n : ℕ} (h : n < 256) : crcTable.getD n 0 = crcBit^[8] n := by
  have hstep : ∀ c : ℕ, (if c &&& 1 ≠ 0 then 0xedb88320 ^^^ (c >>> 1) else c >>> 1) = crcBit c := by
    intro c
    rw [crcBit, Nat.and_one_is_mod]
    obtain hc | hc := Nat.mod_two_eq_zero_or_one c <;> simp [hc]
  rw [crcTable, List.getD_eq_getElem _ 0 (by simpa using h), List.getElem_map, List.getElem_range]
  simp only [hstep]
  rfl

/-- **The table gives the CRC.** -/
theorem crc_eq {buf : Bytes} (h : buf.length < 2 ^ 31) : crc buf = some (crc32 buf) := by
  have hlen : buf.length % 2 ^ 32 = buf.length := Nat.mod_eq_of_lt (h.trans (by norm_num))
  have hbyte : (fun (c : ℕ) (b : UInt8) ↦
      crcTable.getD ((c ^^^ b.toNat) &&& 0xff) 0 ^^^ (c >>> 8)) = crcByte := by
    funext c b
    rw [show 0xff = 2 ^ 8 - 1 from rfl, Nat.and_two_pow_sub_one_eq_mod,
      getD_crcTable (Nat.mod_lt _ (by norm_num)), crcByte_eq]
  simp only [crc, hlen, if_pos h, List.take_length, updateCRC, hbyte, Nat.zero_xor, crc32]

/-! ### Adler-32 -/

/-- The inner loop of `adler32`. -/
def adlerSums (data : Bytes) (s : UInt32 × UInt32) : UInt32 × UInt32 :=
  data.foldl (fun (s1, s2) b ↦ (s1 + b.toUInt32, s2 + (s1 + b.toUInt32))) s

/-- The outer loop of `adler32`. -/
def adlerLoop (data : Bytes) (s1 s2 : UInt32) : UInt32 × UInt32 :=
  if _h : data.length > 0 then
    let amount := if data.length > 5550 then 5550 else data.length
    let (s1, s2) := adlerSums (data.take amount) (s1, s2)
    adlerLoop (data.drop amount) (s1 % 65521) (s2 % 65521)
  else (s1, s2)
termination_by data.length
decreasing_by
  rw [List.length_drop]
  split <;> omega

/-- `adler32` of data, whose size becomes an `unsigned`. -/
def adler32 (data : Bytes) : UInt32 :=
  let (s1, s2) := adlerLoop (data.take (data.length % 2 ^ 32)) 1 ((1 : UInt32) >>> 16)
  s2 <<< 16 ||| s1

/-- The sums after `k` bytes since they were reduced: they have not overflowed. -/
structure Sums (k : ℕ) (u : UInt32 × UInt32) (s : ℕ × ℕ) : Prop where
  fst_le : u.1.toNat ≤ 65520 + 255 * k
  snd_le : 2 * u.2.toNat ≤ 131040 + 131040 * k + 255 * (k * (k + 1))
  fst_mod : u.1.toNat % 65521 = s.1
  snd_mod : u.2.toNat % 65521 = s.2

/-- **5550 bytes do not overflow the sums.** -/
theorem Sums.adlerByte {k : ℕ} {u : UInt32 × UInt32} {s : ℕ × ℕ} (h : Sums k u s) (hk : k < 5550)
    (b : UInt8) :
    Sums (k + 1) (u.1 + b.toUInt32, u.2 + (u.1 + b.toUInt32)) (adlerByte s b) := by
  obtain ⟨hfst, hsnd, hmod, hmod'⟩ := h
  have hb : b.toNat ≤ 255 := Nat.le_of_lt_succ b.toNat_lt
  have hsquare : k * (k + 1) ≤ 5549 * 5550 := Nat.mul_le_mul (by omega) (by omega)
  have hgrow : (k + 1) * (k + 1 + 1) = k * (k + 1) + 2 * (k + 1) := by ring
  have h₁ : (u.1 + b.toUInt32).toNat = u.1.toNat + b.toNat := by
    rw [UInt32.toNat_add, UInt8.toNat_toUInt32]
    exact Nat.mod_eq_of_lt (by omega)
  have h₂ : (u.2 + (u.1 + b.toUInt32)).toNat = u.2.toNat + (u.1.toNat + b.toNat) := by
    rw [UInt32.toNat_add, h₁]
    exact Nat.mod_eq_of_lt (by omega)
  refine ⟨?_, ?_, ?_, ?_⟩
  · show (u.1 + b.toUInt32).toNat ≤ _
    omega
  · show 2 * (u.2 + (u.1 + b.toUInt32)).toNat ≤ _
    rw [h₂, hgrow]
    omega
  · show (u.1 + b.toUInt32).toNat % 65521 = (s.1 + b.toNat) % 65521
    rw [h₁, ← hmod]
    omega
  · show (u.2 + (u.1 + b.toUInt32)).toNat % 65521 = (s.2 + (s.1 + b.toNat)) % 65521
    rw [h₂, ← hmod, ← hmod']
    omega

theorem Sums.adlerSums {data : Bytes} : ∀ {k : ℕ} {u : UInt32 × UInt32} {s : ℕ × ℕ}, Sums k u s →
    k + data.length ≤ 5550 →
    Sums (k + data.length) (adlerSums data u) (data.foldl Gzip.adlerByte s) := by
  induction data with
  | nil => exact fun h _ ↦ h
  | cons b data ih =>
    intro k u s h hk
    rw [List.length_cons] at hk
    have := ih (h.adlerByte (by omega) b) (by omega)
    rwa [Nat.add_right_comm] at this

/-- Sums that are reduced start again. -/
theorem Sums.reduce {k : ℕ} {u : UInt32 × UInt32} {s : ℕ × ℕ} (h : Sums k u s) :
    Sums 0 (u.1 % 65521, u.2 % 65521) s := by
  have h₁ : (u.1 % 65521).toNat = u.1.toNat % 65521 := UInt32.toNat_mod _ _
  have h₂ : (u.2 % 65521).toNat = u.2.toNat % 65521 := UInt32.toNat_mod _ _
  have := Nat.mod_lt u.1.toNat (show 0 < 65521 by norm_num)
  have := Nat.mod_lt u.2.toNat (show 0 < 65521 by norm_num)
  refine ⟨?_, ?_, ?_, ?_⟩
  · show (u.1 % 65521).toNat ≤ _
    omega
  · show 2 * (u.2 % 65521).toNat ≤ _
    omega
  · show (u.1 % 65521).toNat % 65521 = _
    rw [h₁, Nat.mod_mod, h.fst_mod]
  · show (u.2 % 65521).toNat % 65521 = _
    rw [h₂, Nat.mod_mod, h.snd_mod]

theorem Sums.adlerLoop {data : Bytes} {s1 s2 : UInt32} {s : ℕ × ℕ} (h : Sums 0 (s1, s2) s) :
    Sums 0 (adlerLoop data s1 s2) (data.foldl Gzip.adlerByte s) := by
  induction hn : data.length using Nat.strong_induction_on generalizing data s1 s2 s with
  | _ n ih =>
    rw [Zopfli.adlerLoop]
    split
    · rename_i hpos
      set amount := if data.length > 5550 then 5550 else data.length with hamount
      have hle : amount ≤ 5550 ∧ 0 < amount := by
        rw [hamount]
        split <;> omega
      have hchunk := @Sums.adlerSums (data.take amount) 0 (s1, s2) s h (by
        rw [List.length_take]
        omega)
      have := ih (data.drop amount).length (by rw [List.length_drop]; omega) hchunk.reduce rfl
      rwa [← List.foldl_append, List.take_append_drop] at this
    · rename_i hpos
      rw [List.eq_nil_of_length_eq_zero (by omega : data.length = 0)]
      exact h

/-- **The sums that are reduced now and then give the checksum.** -/
theorem adler32_eq {data : Bytes} (h : data.length < 2 ^ 32) :
    (adler32 data).toNat = Gzip.adler32 data := by
  have hstart : Sums 0 (1, (1 : UInt32) >>> 16) (1, 0) :=
    ⟨by decide, by decide, by decide, by decide⟩
  have hall := @Sums.adlerLoop data _ _ _ hstart
  rw [adler32, Nat.mod_eq_of_lt h, List.take_length]
  set u := adlerLoop data 1 ((1 : UInt32) >>> 16) with hu
  set s := data.foldl Gzip.adlerByte (1, 0) with hs
  have h₁ : u.1.toNat = s.1 := by
    have := hall.fst_le
    rw [← hall.fst_mod, Nat.mod_eq_of_lt (by omega)]
  have h₂ : u.2.toNat = s.2 := by
    have := hall.snd_le
    rw [← hall.snd_mod, Nat.mod_eq_of_lt (by omega)]
  have hlow : u.1.toNat < 2 ^ 16 := by
    have := hall.fst_le
    omega
  have hhigh : u.2.toNat <<< 16 < 2 ^ 32 := by
    have := hall.snd_le
    rw [Nat.shiftLeft_eq]
    omega
  show (u.2 <<< 16 ||| u.1).toNat = s.2 * 65536 + s.1
  rw [UInt32.toNat_or, UInt32.toNat_shiftLeft, show (16 : UInt32).toNat % 32 = 16 from rfl,
    Nat.mod_eq_of_lt hhigh, ← Nat.shiftLeft_add_eq_or_of_lt hlow, Nat.shiftLeft_eq, h₁, h₂]

/-! ### Formats -/

section Formats

variable (opts : Options) (q : Squeeze) (input : Bytes)

/-- `ZopfliGzipCompress`. -/
def zopfliGzipCompress : Option Bytes := do
  let crcvalue ← crc input
  let o : Output := [31, 139, 8, 0, 0, 0, 0, 0, 2, 3].foldl (fun o b ↦ appendData b o) ⟨0, []⟩
  let o ← zopfliDeflate opts q input 2 true o
  let o := appendData (UInt8.ofNat (crcvalue % 256)) o
  let o := appendData (UInt8.ofNat ((crcvalue >>> 8) % 256)) o
  let o := appendData (UInt8.ofNat ((crcvalue >>> 16) % 256)) o
  let o := appendData (UInt8.ofNat ((crcvalue >>> 24) % 256)) o
  let insize := input.length
  let o := appendData (UInt8.ofNat (insize % 256)) o
  let o := appendData (UInt8.ofNat ((insize >>> 8) % 256)) o
  let o := appendData (UInt8.ofNat ((insize >>> 16) % 256)) o
  let o := appendData (UInt8.ofNat ((insize >>> 24) % 256)) o
  some o.out

/-- `ZopfliZlibCompress`. -/
def zopfliZlibCompress : Option Bytes := do
  let checksum := (adler32 input).toNat
  let cmf := 120
  let flevel := 0
  let fdict := 0
  let cmfflg := 256 * cmf + fdict * 32 + flevel * 64
  let fcheck := 31 - cmfflg % 31
  let cmfflg := cmfflg + fcheck
  let o := appendData (UInt8.ofNat (cmfflg / 256)) ⟨0, []⟩
  let o := appendData (UInt8.ofNat (cmfflg % 256)) o
  let o ← zopfliDeflate opts q input 2 true o
  let o := appendData (UInt8.ofNat ((checksum >>> 24) % 256)) o
  let o := appendData (UInt8.ofNat ((checksum >>> 16) % 256)) o
  let o := appendData (UInt8.ofNat ((checksum >>> 8) % 256)) o
  let o := appendData (UInt8.ofNat (checksum % 256)) o
  some o.out

/-- `ZopfliCompress`. -/
def zopfliCompress (output_type : ZopfliFormat) : Option Bytes :=
  match output_type with
  | .gzip => zopfliGzipCompress opts q input
  | .zlib => zopfliZlibCompress opts q input
  | .deflate => (zopfliDeflate opts q input 2 true ⟨0, []⟩).map Output.out

end Formats

/-- Reads a file of a format. -/
def decode : ZopfliFormat → Bytes → Option Bytes
  | .gzip => gunzip
  | .zlib => unzlib
  | .deflate => undeflate

/-- The sizes that the container of a format can take. -/
def SizeFits : ZopfliFormat → ℕ → Prop
  | .gzip, size => size < 2 ^ 31
  | .zlib, size => size < 2 ^ 32
  | .deflate, _ => True

/-- Compressed input is read back, in each format. -/
theorem decode_zopfliCompress (opts : Options) {q : Squeeze} {input : Bytes} (hq : q.Sound input)
    (hne : input ≠ []) {format : ZopfliFormat} (hsize : SizeFits format input.length) :
    ∃ t, zopfliCompress opts q input format = some t ∧ decode format t = some input := by
  have hb : Supported opts 2 := .inr (.inl rfl)
  cases format with
  | gzip =>
    have hcrc : crc input = some (crc32 input) := crc_eq hsize
    obtain ⟨o, t, ho, hout, ht⟩ := exists_zopfliDeflate hq hb hne [31, 139, 8, 0, 0, 0, 0, 0, 2, 3]
    refine ⟨_, ?_, show gunzip _ = some input from gunzip_deflated ht 0 0 0 0 2 3⟩
    have hheader : [31, 139, 8, 0, 0, 0, 0, 0, 2, 3].foldl (fun o b ↦ appendData b o)
        (⟨0, []⟩ : Output) = ⟨0, [31, 139, 8, 0, 0, 0, 0, 0, 2, 3]⟩ := rfl
    simp only [zopfliCompress, zopfliGzipCompress, hcrc, hheader, ho, Option.bind_eq_bind,
      Option.bind_some]
    simp [appendData, hout, leBytes, List.range_succ]
  | zlib =>
    have hadler : (adler32 input).toNat = Gzip.adler32 input := adler32_eq hsize
    obtain ⟨o, t, ho, hout, ht⟩ := exists_zopfliDeflate hq hb hne [120, 1]
    refine ⟨_, ?_, show unzlib _ = some input from
      unzlib_deflated ht 120 1 (by decide) (by decide) (by decide)⟩
    have hheader : appendData (UInt8.ofNat ((256 * 120 + 0 * 32 + 0 * 64 +
        (31 - (256 * 120 + 0 * 32 + 0 * 64) % 31)) % 256)) (appendData (UInt8.ofNat ((256 * 120 +
        0 * 32 + 0 * 64 + (31 - (256 * 120 + 0 * 32 + 0 * 64) % 31)) / 256)) ⟨0, []⟩) =
        (⟨0, [120, 1]⟩ : Output) := rfl
    simp only [zopfliCompress, zopfliZlibCompress, hheader, hadler, ho, Option.bind_eq_bind,
      Option.bind_some]
    simp [appendData, hout, leBytes, List.range_succ]
  | deflate =>
    obtain ⟨o, t, ho, hout, ht⟩ := exists_zopfliDeflate hq hb hne []
    exact ⟨t, by rw [zopfliCompress, ho]; exact congrArg some hout, undeflate_deflated ht⟩

/-- **No input is compressed to what no reader accepts.** -/
theorem decode_zopfliCompress_nil (opts : Options) (q : Squeeze) (format : ZopfliFormat) :
    ∃ t, zopfliCompress opts q [] format = some t ∧ decode format t = none := by
  have hnothing : ∀ o, zopfliDeflate opts q [] 2 true o = some o :=
    fun o ↦ congrFun (deflateFrom_length opts q 2 true) o
  cases format with
  | gzip =>
    have hcrc : crc [] = some 0 := by decide
    refine ⟨[31, 139, 8, 0, 0, 0, 0, 0, 2, 3, 0, 0, 0, 0, 0, 0, 0, 0], ?_, by decide +kernel⟩
    simp only [zopfliCompress, zopfliGzipCompress, hcrc, hnothing, Option.bind_eq_bind,
      Option.bind_some]
    rfl
  | zlib =>
    have hadler : (adler32 []).toNat = 1 := adler32_eq (by norm_num)
    refine ⟨[120, 1, 0, 0, 0, 1], ?_, by decide +kernel⟩
    simp only [zopfliCompress, zopfliZlibCompress, hadler, hnothing, Option.bind_eq_bind,
      Option.bind_some]
    rfl
  | deflate => exact ⟨[], by rw [zopfliCompress, hnothing]; rfl, by decide +kernel⟩

/-! ### Strategies without matches -/

/-- The strategies on data without repetitions: every byte is a literal. -/
def literals (input : Bytes) : Squeeze :=
  let store := fun instart inend ↦
    some (((input.take inend).drop instart).map fun b ↦ (b.toNat, 0))
  ⟨store, store, fun _ ↦ store⟩

theorem parses_literals (input : Bytes) {instart inend : ℕ} (hab : instart ≤ inend) :
    Parses input instart inend (((input.take inend).drop instart).map fun b ↦ (b.toNat, 0)) := by
  have hreplay : ∀ t out : Bytes,
      replay out ((t.map fun b ↦ (b.toNat, 0)).map toItem) = some (out ++ t) := by
    intro t
    induction t with
    | nil => exact fun out ↦ by simp [replay]
    | cons b t ih =>
      intro out
      have := ih (out ++ [b])
      rw [List.append_assoc, List.singleton_append] at this
      simpa [replay, toItem, Item.replay] using this
  refine ⟨fun x hx ↦ ?_, ?_⟩
  · obtain ⟨b, -, rfl⟩ := List.mem_map.1 hx
    simpa [Encodable] using b.toNat_lt
  · rw [hreplay]
    have hsplit := List.take_append_drop instart (input.take inend)
    rw [List.take_take, Nat.min_eq_left hab] at hsplit
    rw [hsplit]

theorem literals_sound (input : Bytes) : (literals input).Sound input :=
  ⟨fun hab _ ↦ ⟨_, rfl, parses_literals input hab.le⟩,
    fun hab _ ↦ ⟨_, rfl, parses_literals input hab.le⟩,
    fun _ _ _ hab _ ↦ ⟨_, rfl, parses_literals input hab.le⟩⟩

/-- **Compressed input is read back if and only if there is any**, in each format, whatever the
options and the strategies, and no assertion fails. -/
theorem decode_zopfliCompress_iff (opts : Options) {q : Squeeze} {input : Bytes}
    (hq : q.Sound input) {format : ZopfliFormat} (hsize : SizeFits format input.length) :
    ∃ t, zopfliCompress opts q input format = some t ∧
      (decode format t = some input ↔ input ≠ []) := by
  obtain rfl | hne := eq_or_ne input []
  · obtain ⟨t, ht, hread⟩ := decode_zopfliCompress_nil opts q format
    exact ⟨t, ht, by simp [hread]⟩
  · obtain ⟨t, ht, hread⟩ := decode_zopfliCompress opts hq hne hsize
    exact ⟨t, ht, by simp [hread, hne]⟩

theorem decode_zopfliCompress_iff_abc : ∃ t,
    zopfliCompress {} (literals [97, 98, 99]) [97, 98, 99] .gzip = some t ∧
      (decode .gzip t = some [97, 98, 99] ↔ ([97, 98, 99] : Bytes) ≠ []) :=
  decode_zopfliCompress_iff {} (literals_sound [97, 98, 99]) (show 3 < 2 ^ 31 by norm_num)

/-! ### What a client reads -/

/-- The content of a reply, as its Content-Encoding says. -/
def decodeReply (rep : Reply) : Option Bytes :=
  let encoding := getHeader rep.headers (lit "Content-Encoding")
  if encoding = lit "gzip" then decode .gzip rep.content
  else if encoding = lit "zlib" then decode .zlib rep.content
  else if encoding = lit "deflate" then decode .deflate rep.content
  else some rep.content

/-- The compressor of the handlers is this one, with the default options. -/
def Compresses (env : Environment) (squeeze : Bytes → Squeeze) : Prop :=
  ∀ {format : ZopfliFormat} {input t : Bytes},
    zopfliCompress {} (squeeze input) input format = some t → env.zopfliCompress format input = t

theorem sizeFits_of_lt {n : ℕ} (h : n < 2 ^ 31) (format : ZopfliFormat) : SizeFits format n := by
  cases format with
  | gzip => exact h
  | zlib => exact h.trans (by norm_num)
  | deflate => trivial

/-- A reply with an encoding is decoded by its format. -/
theorem decodeReply_encoded (content : Bytes) (format : ZopfliFormat) :
    decodeReply { Reply.withContent .ok content "application/octet-stream" with
      headers := (Reply.withContent .ok content "application/octet-stream").headers ++
        [⟨lit "Content-Encoding", format.encoding⟩] } = decode format content := by
  cases format <;> rfl

/-- **A client that reads the reply to a GET as it is marked gets the bytes of the file**, whichever
encoding it asked for. -/
theorem decodeReply_handleGet {env : Environment} {squeeze : Bytes → Squeeze}
    (henv : Compresses env squeeze) (hsound : ∀ input, (squeeze input).Sound input) {st : Store}
    {requestPath : Bytes} {req : Request}
    (hok : (handleGet env st requestPath req).1.status = .ok) :
    ∃ b content, st.get (requestPath.drop 1) = some b ∧ st.files.find b.filePath = some content ∧
      (content ≠ [] → content.length < 2 ^ 31 →
        decodeReply (handleGet env st requestPath req).1 = some content) := by
  rcases hb : st.get (requestPath.drop 1) with - | b
  · simp only [handleGet, hb] at hok
    cases hok
  rcases hcontent : st.files.find b.filePath with - | content
  · simp only [handleGet, hb, hcontent] at hok
    cases hok
  refine ⟨b, content, rfl, hcontent, fun hne hsize ↦ ?_⟩
  simp only [handleGet, hb, hcontent]
  split
  · rfl
  · rename_i format _
    obtain ⟨t, ht, hread⟩ :=
      decode_zopfliCompress {} (hsound content) hne (sizeFits_of_lt hsize format)
    rw [decodeReply_encoded, henv ht, hread]

/-- The environment of a server that compresses data without repetitions. -/
def Environment.sample : Environment :=
  ⟨true, fun _ ↦ none, fun format input ↦
    (zopfliCompress {} (literals input) input format).getD []⟩

theorem compresses_sample : Compresses Environment.sample literals := by
  intro format input t ht
  show (zopfliCompress {} (literals input) input format).getD [] = t
  rw [ht, Option.getD_some]

theorem decodeReply_handleGet_a : ∃ st,
    serve Digests.sample {} Environment.sample .empty [.add ⟨none, [97]⟩] = .ok st ∧
      decodeReply (handleGet Environment.sample st (47 :: keyOfA.blobref)
        ⟨lit "GET", 47 :: keyOfA.blobref, 1, 1, [⟨lit "Accept-Encoding", lit "gzip"⟩], []⟩).1 =
          some [97] := by
  refine ⟨Store.empty.stored Digests.sample {} [97], rfl, ?_⟩
  have hfile : ((Store.empty.stored Digests.sample {} [97]).get keyOfA.blobref).bind
      (fun b ↦ (Store.empty.stored Digests.sample {} [97]).files.find b.filePath) = some [97] := by
    decide +kernel
  have hok : (handleGet Environment.sample (Store.empty.stored Digests.sample {} [97])
      (47 :: keyOfA.blobref) ⟨lit "GET", 47 :: keyOfA.blobref, 1, 1,
        [⟨lit "Accept-Encoding", lit "gzip"⟩], []⟩).1.status = .ok := by decide +kernel
  obtain ⟨b, content, hb, hcontent, hread⟩ :=
    decodeReply_handleGet compresses_sample literals_sound hok
  have hget : (Store.empty.stored Digests.sample {} [97]).get keyOfA.blobref = some b := hb
  rw [hget, Option.bind_some, hcontent] at hfile
  obtain rfl := Option.some.inj hfile
  exact hread (List.cons_ne_nil _ _) (by decide)

end Zopfli

end Camlispp
