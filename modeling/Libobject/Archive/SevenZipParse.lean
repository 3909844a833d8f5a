import Libobject.Archive.SevenZipMap
import Libobject.Lib.Bytes
import Libobject.Lib.Program
import Mathlib.Algebra.GroupWithZero.Nat
import Mathlib.Data.UInt

/-!
# Parsing the next header of a 7z archive

The sections share a cursor into the header. A number that begins behind the end is zero, and one
that is cut off ends there. Tables are lists of as many entries as were allocated, and those that
were not allocated are missing. Allocation does not fail.
-/

namespace Libobject.SevenZip

/-- The bytes at an address, and what is taken for their end. -/
structure Window where
  addr : ℕ
  data : List UInt8
  stop : ℕ

/-- The turns of `__read_number` from the bit `i` of the first byte on, with the cursor at the last
byte that was read. -/
def numberFrom (w : Window) (first : UInt8) : ℕ → ℕ → UInt64 → ℕ → Option (UInt64 × ℕ)
  | 0, _, value, p => some (value, p + 1)
  | n + 1, i, value, p =>
    let mask : UInt8 := 0x80 >>> UInt8.ofNat i
    if first &&& mask = 0 then
      some (value ||| ((first &&& (mask - 1)).toUInt64 <<< UInt64.ofNat (8 * i)), p + 1)
    else if w.stop ≤ p + 1 then some (value, p + 1)
    else
      match w.data[p + 1]? with
      | none => none
      | some b =>
        numberFrom w first n (i + 1) (value ||| (b.toUInt64 <<< UInt64.ofNat (8 * i))) (p + 1)

/-- The number at the cursor and the cursor behind it, if all its bytes can be read. -/
def numberAt (w : Window) (p : ℕ) : Option (UInt64 × ℕ) :=
  if w.stop ≤ p then some (0, p)
  else
    match w.data[p]? with
    | none => none
    | some first => numberFrom w first 8 0 0 p

/-- The bytes for `n` bits; the sum is an unsigned integer. -/
def bitBytes (n : ℕ) : ℕ := (n + 7) % 4294967296 / 8

def get_bit (vec : List UInt8) (i : ℕ) : Bool := (vec.getD (i / 8) 0).toNat.testBit (i % 8)

def streams (folders : List Folder) : ℕ := (folders.map Folder.count).sum

/-- The number of all sub-streams, an unsigned integer. -/
def total (folders : List Folder) : ℕ := streams folders % 4294967296

/-- Each folder takes the next of the CRCs, one for each of its sub-streams. -/
def share_crcs : List UInt32 → List Folder → List Folder
  | _, [] => []
  | crcs, folder :: folders =>
    { folder with substream_crcs := some (crcs.take folder.count) } ::
      share_crcs (crcs.drop folder.count) folders

/-- What the parsers do with memory: a number, the byte at the cursor (of a coder also where nothing
has been compared with the end), some bytes, a sum of a pointer and a number, the first bits of a
vector, the CRCs of all sub-streams, more bytes in the array of a name, an entry of a table, and the
mapping of files. `spin` is a loop that does not end. -/
inductive Op
  | number (w : Window) (p : ℕ)
  | next (w : Window) (p : ℕ)
  | flags (w : Window) (p : ℕ)
  | bytes (w : Window) (p n : ℕ)
  | advance (w : Window) (p : ℕ) (s : UInt64)
  | bits (vec : List UInt8) (n : ℕ)
  | share (crcs : List UInt32) (folders : List Folder)
  | room (used more : ℕ)
  | entry (len i : ℕ)
  | mapping (folders : List Folder) (files : List FileInfo)
  | spin

abbrev Op.Res : Op → Type
  | number _ _ => UInt64 × ℕ
  | next _ _ | flags _ _ => UInt8
  | bytes _ _ _ => List UInt8
  | bits _ _ => List Bool
  | share _ _ => List Folder
  | mapping _ _ => List FileInfo
  | advance _ _ _ | room _ _ | entry _ _ | spin => Unit

/-- What an operation gives, where it is defined. -/
def Op.eval : ∀ o : Op, Option o.Res
  | number w p => numberAt w p
  | next w p | flags w p => w.data[p]?
  | bytes w p n => if p + n ≤ w.data.length then some ((w.data.drop p).take n) else none
  | advance w p s => if w.addr + p + s.toNat < 18446744073709551616 then some () else none
  | bits vec n => if n ≤ 8 * vec.length then some ((List.range n).map (get_bit vec)) else none
  | share crcs folders =>
    if streams folders ≤ crcs.length then some (share_crcs crcs folders) else none
  | room used more => if used + more ≤ 1024 then some () else none
  | entry len i => if i < len then some () else none
  | mapping folders files => map_files_to_substreams folders files
  | spin => none

abbrev Parse := Program Op Op.Res

open Program (require)

def perform (o : Op) : Parse o.Res := Program.perform o

def kEnd : UInt8 := 0x00
def kHeader : UInt8 := 0x01
def kArchiveProperties : UInt8 := 0x02
def kMainStreams : UInt8 := 0x04
def kFilesInfo : UInt8 := 0x05
def kPackInfo : UInt8 := 0x06
def kUnpackInfo : UInt8 := 0x07
def kSubstreamsInfo : UInt8 := 0x08
def kSize : UInt8 := 0x09
def kCrc : UInt8 := 0x0a
def kFolder : UInt8 := 0x0b
def kCodersUnpackSize : UInt8 := 0x0c
def kNumUnpackStream : UInt8 := 0x0d
def kEmptyStream : UInt8 := 0x0e
def kEmptyFile : UInt8 := 0x0f
def kName : UInt8 := 0x11
def kEncodedHeader : UInt8 := 0x17

structure Header where
  pack_pos : UInt64
  packed_sizes : Option (List UInt64)
  packed_crcs : Option (List UInt32)
  folders : List Folder
  files : List FileInfo

def Header.init : Header := ⟨0, none, none, [], []⟩

section Primitives

variable (w : Window)

def read_number (p : ℕ) : Parse (UInt64 × ℕ) := perform (.number w p)

/-- A number that is kept in 32 bits. -/
def read_count (p : ℕ) : Parse (ℕ × ℕ) := do
  let (v, p) ← read_number w p
  return (v.toUInt32.toNat, p)

def read_numbers : ℕ → ℕ → Parse (List UInt64 × ℕ)
  | 0, p => return ([], p)
  | n + 1, p => do
    let (v, p) ← read_number w p
    let (vs, p) ← read_numbers n p
    return (v :: vs, p)

def vectorBytes : ℕ → ℕ → Parse (List UInt8 × ℕ)
  | 0, p => return ([], p)
  | n + 1, p => do
    require (p < w.stop)
    let b ← perform (.next w p)
    let (bs, p) ← vectorBytes n (p + 1)
    return (b :: bs, p)

def read_bit_vector (p n : ℕ) : Parse (List UInt8 × ℕ) := vectorBytes w (bitBytes n) p

def read_le32 (p : ℕ) : Parse UInt32 := do
  let bs ← perform (.bytes w p 4)
  return UInt32.ofNat (leNat bs)

/-- The CRCs that are defined are read, the others are all ones. -/
def definedCrcs : List Bool → ℕ → Parse (List UInt32 × ℕ)
  | [], p => return ([], p)
  | false :: ds, p => do
    let (crcs, p) ← definedCrcs ds p
    return (0xFFFFFFFF :: crcs, p)
  | true :: ds, p => do
    require (p + 4 ≤ w.stop)
    let crc ← read_le32 w p
    let (crcs, p) ← definedCrcs ds (p + 4)
    return (crc :: crcs, p)

def read_crc_section (p count : ℕ) : Parse (List UInt32 × ℕ) := do
  let (all_defined, p) ← read_number w p
  if all_defined.toUInt32 ≠ 0 then definedCrcs w (List.replicate count true) p
  else do
    let (vec, p) ← read_bit_vector w p count
    let ds ← perform (.bits vec count)
    definedCrcs w ds p

/-- The records of a section up to its end record or the end of the window. A record has at least
one byte, so there are no more than the bytes that are left. -/
def recordsFrom {σ : Type} (record : UInt8 → σ → ℕ → Parse (σ × ℕ)) : ℕ → σ → ℕ → Parse (σ × ℕ)
  | 0, s, p => if p < w.stop then do
      perform .spin
      return (s, p)
    else return (s, p)
  | n + 1, s, p =>
    if w.stop ≤ p then return (s, p)
    else do
      let type ← perform (.next w p)
      if type = kEnd then return (s, p + 1)
      else do
        let (s, p) ← record type s (p + 1)
        recordsFrom record n s p

def records {σ : Type} (record : UInt8 → σ → ℕ → Parse (σ × ℕ)) (s : σ) (p : ℕ) : Parse (σ × ℕ) :=
  recordsFrom w record (w.stop - p) s p

end Primitives

section Streams

variable (w : Window)

def parse_pack_info (h : Header) (p : ℕ) : Parse (Header × ℕ) := do
  let (pos, p) ← read_number w p
  let (n, p) ← read_count w p
  require (n ≠ 0)
  let h := { h with
    pack_pos := (32 + pos.toUInt32).toUInt64
    packed_sizes := some (List.replicate n 0)
    packed_crcs := some (List.replicate n 0xFFFFFFFF) }
  records w (fun type h p ↦
    if type = kSize then do
      let (sizes, p) ← read_numbers w n p
      return ({ h with packed_sizes := some sizes }, p)
    else if type = kCrc then do
      let (crcs, p) ← read_crc_section w p n
      return ({ h with packed_crcs := some crcs }, p)
    else .fail) h p

/-- The numbers of a coder's streams, one of each unless the flags say otherwise. -/
def coderStreams (flags : UInt8) (p : ℕ) : Parse (UInt32 × UInt32 × ℕ) :=
  if flags &&& 0x10 ≠ 0 then do
    let (ins, p) ← read_number w p
    let (outs, p) ← read_number w p
    return (ins.toUInt32, outs.toUInt32, p)
  else return (1, 1, p)

def coderProperties (flags : UInt8) (p : ℕ) : Parse (Option (List UInt8) × ℕ) :=
  if flags &&& 0x20 ≠ 0 then do
    let (n, p) ← read_count w p
    require (p + n ≤ w.stop)
    let bs ← perform (.bytes w p n)
    return (some bs, p + n)
  else return (none, p)

/-- The flags are read without a look at the end. -/
def parse_coder (p : ℕ) : Parse (Coder × ℕ) := do
  let flags ← perform (.flags w p)
  let p := p + 1
  let id_size := (flags &&& 0x0F).toNat
  require (id_size ≠ 0 ∧ id_size ≤ 8 ∧ p + id_size ≤ w.stop)
  let method_id ← perform (.bytes w p id_size)
  let (ins, outs, p) ← coderStreams w flags (p + id_size)
  let (properties, p) ← coderProperties w flags p
  return (⟨method_id, ins, outs, properties⟩, p)

def parse_coders : ℕ → ℕ → Parse (List Coder × ℕ)
  | 0, p => return ([], p)
  | n + 1, p => do
    let (coder, p) ← parse_coder w p
    let (coders, p) ← parse_coders n p
    return (coder :: coders, p)

def read_pairs : ℕ → ℕ → Parse (List (UInt32 × UInt32) × ℕ)
  | 0, p => return ([], p)
  | n + 1, p => do
    let (a, p) ← read_number w p
    let (b, p) ← read_number w p
    let (pairs, p) ← read_pairs n p
    return ((a.toUInt32, b.toUInt32) :: pairs, p)

/-- One coder with one stream in and out; nothing is said of how its streams are bound. -/
def simple : List Coder → Bool
  | [coder] => coder.num_in_streams = 1 && coder.num_out_streams = 1
  | _ => false

def parse_folder (p : ℕ) : Parse (Folder × ℕ) := do
  let (num, p) ← read_count w p
  let (coders, p) ← parse_coders w num p
  let folder : Folder :=
    { coders
      bind_pairs := []
      packed_indices := [0]
      first_packed_stream := 0
      unpack_sizes := none
      total_out_streams := (coders.map Coder.num_out_streams).sum
      num_substreams := 0
      substream_sizes := none
      substream_crcs := none }
  if simple coders then return (folder, p)
  else do
    let (num, p) ← read_count w p
    let (bind_pairs, p) ← read_pairs w num p
    let (num, p) ← read_count w p
    let (indices, p) ← read_numbers w num p
    return ({ folder with bind_pairs, packed_indices := indices.map UInt64.toUInt32 }, p)

def parse_folders : ℕ → ℕ → Parse (List Folder × ℕ)
  | 0, p => return ([], p)
  | n + 1, p => do
    let (folder, p) ← parse_folder w p
    let (folders, p) ← parse_folders n p
    return (folder :: folders, p)

/-- Each folder is given the number of its first packed stream. -/
def withFirst : UInt32 → List Folder → List Folder
  | _, [] => []
  | acc, folder :: folders =>
    { folder with first_packed_stream := acc } ::
      withFirst (acc + UInt32.ofNat folder.packed_indices.length) folders

/-- For each folder the sizes of what its coders put out, in a table that is never empty. -/
def read_unpack_sizes : List Folder → ℕ → Parse (List Folder × ℕ)
  | [], p => return ([], p)
  | folder :: folders, p => do
    let (sizes, p) ← read_numbers w folder.total_out_streams.toNat p
    let (folders, p) ← read_unpack_sizes folders p
    return ({ folder with unpack_sizes := some (if sizes = [] then [0] else sizes) } :: folders, p)

def parse_unpack_info (h : Header) (p : ℕ) : Parse (Header × ℕ) := do
  require (p < w.stop)
  let type ← perform (.next w p)
  require (type = kFolder)
  let (num_folders, p) ← read_count w (p + 1)
  let (ext, p) ← read_count w p
  require (ext = 0)
  let (folders, p) ← parse_folders w num_folders p
  records w (fun type h p ↦
    if type = kCodersUnpackSize then do
      let (folders, p) ← read_unpack_sizes w h.folders p
      return ({ h with folders }, p)
    else if type = kCrc then do
      let (_, p) ← read_crc_section w p num_folders
      return (h, p)
    else .fail) { h with folders := withFirst 0 folders } p

/-- The numbers of sub-streams, with new tables for the sizes where there are several. -/
def read_num_substreams : List Folder → ℕ → Parse (List Folder × ℕ)
  | [], p => return ([], p)
  | folder :: folders, p => do
    let (v, p) ← read_number w p
    let n := v.toUInt32
    let sizes := if 1 < n then some (List.replicate (n.toNat - 1) 0) else folder.substream_sizes
    let (folders, p) ← read_num_substreams folders p
    return ({ folder with num_substreams := n, substream_sizes := sizes } :: folders, p)

/-- The sizes of all sub-streams of a folder but the last one, where there are several. -/
def read_substream_sizes : List Folder → ℕ → Parse (List Folder × ℕ)
  | [], p => return ([], p)
  | folder :: folders, p => do
    if 1 < folder.num_substreams then
      let (sizes, p) ← read_numbers w (folder.num_substreams.toNat - 1) p
      let (folders, p) ← read_substream_sizes folders p
      return ({ folder with substream_sizes := some sizes } :: folders, p)
    else
      let (folders, p) ← read_substream_sizes folders p
      return (folder :: folders, p)

def parse_substreams_info (h : Header) (p : ℕ) : Parse (Header × ℕ) :=
  records w (fun type h p ↦
    if type = kNumUnpackStream then do
      let (folders, p) ← read_num_substreams w h.folders p
      return ({ h with folders }, p)
    else if type = kSize then do
      let (folders, p) ← read_substream_sizes w h.folders p
      return ({ h with folders }, p)
    else if type = kCrc then
      if total h.folders = 0 then return (h, p)
      else do
        let (crcs, p) ← read_crc_section w p (total h.folders)
        let folders ← perform (.share crcs h.folders)
        return ({ h with folders }, p)
    else .fail) h p

def parse_main_streams (h : Header) (p : ℕ) : Parse (Header × ℕ) :=
  records w (fun type h p ↦
    if type = kPackInfo then parse_pack_info w h p
    else if type = kUnpackInfo then parse_unpack_info w h p
    else if type = kSubstreamsInfo then parse_substreams_info w h p
    else .fail) h p

end Streams

section Files

variable (w : Window)

/-- The unit at `q`. -/
def read_unit (q : ℕ) : Parse UInt32 := do
  let bs ← perform (.bytes w q 2)
  return UInt32.ofNat (leNat bs)

/-- The last `n` of the six-bit groups of a code point, each with a leading one. -/
def groups (cp : UInt32) : ℕ → List UInt8
  | 0 => []
  | n + 1 => (0x80 ||| ((cp >>> UInt32.ofNat (6 * n)) &&& 0x3F)).toUInt8 :: groups cp n

/-- A code point that takes a first byte and `n` more. -/
def multibyte (lead cp : UInt32) (n : ℕ) : List UInt8 :=
  (lead ||| (cp >>> UInt32.ofNat (6 * n))).toUInt8 :: groups cp n

/-- The loop of `__utf16le_to_utf8` over the units up to `nend`, into an array of 1024 bytes. It
makes sure of room for one byte and the zero only. -/
def utf16le_to_utf8 (nend : ℕ) : ℕ → ℕ → List UInt8 → Parse (List UInt8)
  | 0, _, out => do
    perform .spin
    return out
  | n + 1, q, out =>
    if q + 1 < nend ∧ out.length + 1 < 1024 then do
      let cp ← read_unit w q
      if cp = 0 then do
        perform (.room out.length 1)
        return out
      else if cp < 0x80 then utf16le_to_utf8 nend n (q + 2) (out ++ [cp.toUInt8])
      else if cp < 0x800 then do
        perform (.room out.length 2)
        utf16le_to_utf8 nend n (q + 2) (out ++ multibyte 0xC0 cp 1)
      else if 0xD800 ≤ cp ∧ cp ≤ 0xDBFF ∧ q + 3 < nend then do
        let lo ← read_unit w (q + 2)
        let cp := (0x10000 : UInt32) + ((cp - 0xD800) <<< 10) + (lo - 0xDC00)
        perform (.room out.length 4)
        utf16le_to_utf8 nend n (q + 4) (out ++ multibyte 0xF0 cp 3)
      else do
        perform (.room out.length 3)
        utf16le_to_utf8 nend n (q + 2) (out ++ multibyte 0xE0 cp 2)
    else do
      perform (.room out.length 1)
      return out

/-- The names of the files; the cursor goes on by the length of the converted name. -/
def read_names (nend : ℕ) : List FileInfo → ℕ → Parse (List FileInfo)
  | [], _ => return []
  | file :: files, np =>
    if np < nend then do
      let name ← utf16le_to_utf8 w nend 1024 np []
      let files ← read_names nend files (np + 2 * (name.length + 1))
      return { file with name := some name } :: files
    else return file :: files

/-- The files without a stream take the bits in turn. -/
def empty_files : List Bool → List FileInfo → List FileInfo
  | _, [] => []
  | bits, file :: files =>
    if file.empty_stream then
      { file with empty_file := bits.headD false } :: empty_files bits.tail files
    else file :: empty_files bits files

/-- The names begin behind a zero. -/
def names_start (p nend : ℕ) : Parse ℕ :=
  if p < nend then do
    let b ← perform (.next w p)
    return if b = 0 then p + 1 else p
  else return p

def skip_record (p : ℕ) : Parse ℕ := do
  let (s, p) ← read_number w p
  perform (.advance w p s)
  require (p + s.toNat ≤ w.stop)
  return p + s.toNat

def file_record (num_files : ℕ) (type : UInt8) (h : Header) (p : ℕ) : Parse (Header × ℕ) :=
  if type = kEmptyStream then do
    let (vec, p) ← read_bit_vector w p num_files
    let bits ← perform (.bits vec num_files)
    let files := List.zipWith (fun file b ↦ { file with empty_stream := b }) h.files bits
    return ({ h with files }, p)
  else if type = kEmptyFile then do
    let count := h.files.countP FileInfo.empty_stream
    let (vec, p) ← read_bit_vector w p count
    let bits ← perform (.bits vec count)
    return ({ h with files := empty_files bits h.files }, p)
  else if type = kName then do
    let (names_size, p) ← read_count w p
    require (p + names_size ≤ w.stop)
    let np ← names_start w p (p + names_size)
    let files ← read_names w (p + names_size) h.files np
    return ({ h with files }, p + names_size)
  else if type = kCrc then do
    let (crcs, p) ← read_crc_section w p num_files
    let files := List.zipWith (fun file crc ↦ { file with crc }) h.files crcs
    return ({ h with files }, p)
  else do
    let p ← skip_record w p
    return (h, p)

def parse_files_info (h : Header) (p : ℕ) : Parse (Header × ℕ) := do
  let (num_files, p) ← read_count w p
  require (num_files ≠ 0)
  let file : FileInfo := ⟨none, 0, 0xFFFFFFFF, false, false, 0xFFFFFFFF, 0⟩
  records w (file_record w num_files) { h with files := List.replicate num_files file } p

end Files

section Headers

def parse_header (w : Window) (h : Header) (p : ℕ) : Parse Header := do
  let (h, _) ← records w (fun type h p ↦
    if type = kMainStreams then parse_main_streams w h p
    else if type = kFilesInfo then parse_files_info w h p
    else if type = kArchiveProperties then do
      let p ← skip_record w p
      return (h, p)
    else .fail) h p
  let files ← perform (.mapping h.folders h.files)
  return { h with files }

/-- What is not in the header: the archive's bytes from a place on, the decoder, and where a decoded
header lies in memory. -/
structure Outside where
  read : UInt64 → UInt64 → Option (List UInt8)
  lzma_raw_decode : List UInt8 → UInt64 → Bool → UInt32 → UInt32 → UInt32 → UInt32 →
    Option (List UInt8)
  decoded_addr : ℕ

/-- The number of entries of a table that may be missing. -/
def entries {α : Type} (table : Option (List α)) : ℕ := table.elim 0 List.length

def entryOf (table : Option (List UInt64)) (i : ℕ) : Parse UInt64 := do
  perform (.entry (entries table) i)
  return (table.getD []).getD i 0

/-- The first byte of a coder's properties. -/
def firstProperty (coder : Coder) : Parse UInt8 := do
  perform (.entry (entries coder.properties) 0)
  return (coder.properties.getD []).getD 0 0

/-- The sum of the sizes from `i` on, `n` of them. -/
def sum_sizes (sizes : Option (List UInt64)) : ℕ → ℕ → Parse UInt64
  | 0, _ => return 0
  | n + 1, i => do
    let size ← entryOf sizes i
    let rest ← sum_sizes sizes n (i + 1)
    return size + rest

def lzma2_prop_to_dict (prop : UInt8) : UInt32 :=
  if 40 ≤ prop then 0 else (2 ||| (prop &&& 1).toUInt32) <<< (prop / 2 + 11).toUInt32

def ofOption {α : Type} : Option α → Parse α
  | none => .fail
  | some a => return a

/-- What the folder's coder makes of the packed bytes. -/
def decode (out : Outside) (coder : Coder) (packed : List UInt8) (out_size : UInt64) :
    Parse (List UInt8) :=
  match coder.method_id with
  | [] => copy
  | 0x00 :: _ => copy
  | [0x21] => do
    let prop ← if coder.properties.isSome then firstProperty coder else pure 0
    ofOption (out.lzma_raw_decode packed out_size true (lzma2_prop_to_dict prop) 3 0 2)
  | [0x03, 0x01, 0x01] => do
    let prop ← firstProperty coder
    let bytes := coder.properties.getD []
    let dict := if 5 ≤ bytes.length then UInt32.ofNat (leNat ((bytes.drop 1).take 4)) else 0
    ofOption (out.lzma_raw_decode packed out_size false dict (prop % 9).toUInt32
      (prop / 9 % 5).toUInt32 (prop / 45).toUInt32)
  | _ => .fail
where
  /-- What is missing is zero. -/
  copy : Parse (List UInt8) :=
    return packed.take out_size.toNat ++ List.replicate (out_size.toNat - packed.length) 0

def decode_folder (out : Outside) (h : Header) (folder : Folder) : Parse (List UInt8) :=
  match folder.coders with
  | [coder] => do
    require (folder.bind_pairs = [] ∧ folder.packed_indices.length = 1)
    let ps := folder.first_packed_stream.toNat
    let off ← sum_sizes h.packed_sizes ps 0
    let packed_size ← entryOf h.packed_sizes ps
    let packed ← ofOption (out.read (h.pack_pos + off) packed_size)
    let out_size ← entryOf folder.unpack_sizes 0
    decode out coder packed out_size
  | _ => .fail

/-- A header that is not encoded is parsed with the end, a pointer, as its size. -/
def parse_next_header (out : Outside) (addr : ℕ) (data : List UInt8) : Parse Header := do
  let w : Window := ⟨addr, data, data.length⟩
  require (0 < w.stop)
  let type ← perform (.next w 0)
  if type = kHeader then
    parse_header { w with stop := 1 + (addr + data.length) % 4294967296 } Header.init 1
  else if type = kEncodedHeader then do
    let (h, _) ← parse_main_streams w Header.init 1
    match h.folders with
    | [folder] => do
      let decoded ← decode_folder out h folder
      parse_header ⟨out.decoded_addr, decoded, decoded.length % 4294967296⟩
        { Header.init with pack_pos := h.pack_pos } 0
    | _ => .fail
  else .fail

end Headers

end Libobject.SevenZip
