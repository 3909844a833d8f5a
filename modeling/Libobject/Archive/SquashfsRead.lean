import Libobject.Lib.Buffer
import Libobject.Lib.Bytes
import Libobject.Lib.Machine

/-!
# Opening a SquashFS image

The tables are loaded block by block and the directories are walked from the root on. A step that
reads outside a table, writes outside a buffer, divides by zero or frees a pointer that was never
set is wild. The walk keeps the directories it is in on a stack.
-/

namespace Libobject.Squashfs

open Scan

inductive Region
  | super
  | inodes
  | dirs
  | fragments
  deriving DecidableEq

/-- What an image is read from. `stale` is what stands in the buffer of a read where the file has no
byte, `seekable` says where the file may be sought, and `uncompress` has room for 8192 bytes. -/
structure Source where
  file : List UInt8
  stale : Region → ℕ → UInt8
  seekable : ℕ → Bool
  uncompress : List UInt8 → Option (List UInt8)
  length_uncompress : ∀ raw out, uncompress raw = some out → out.length ≤ 8192

def Source.read (src : Source) (region : Region) (pos n : ℕ) : List UInt8 :=
  (List.range n).map fun i ↦ (src.file[pos + i]?).getD (src.stale region (pos + i))

/-- The offset of `fseek` is signed. -/
def Source.seek (src : Source) (pos : UInt64) : Bool :=
  decide (pos.toNat < 2 ^ 63) && src.seekable pos.toNat

/-- The number in the `w` bytes at `off`. -/
def numAt (tbl : List UInt8) (off w : ℕ) : ℕ := leNat (field tbl off w)

/-- The fields of the superblock that are used after it was checked. -/
structure Super where
  block_size : UInt32
  fragment_count : UInt32
  root_inode : UInt64
  bytes_used : UInt64
  id_table_start : UInt64
  inode_table_start : UInt64
  directory_table_start : UInt64
  fragment_table_start : UInt64
  lookup_table_start : UInt64

/-- The superblock, if the size of the file is not taken for none, as a signed number, and the magic
and the compression are right. -/
def superblockOf (src : Source) : Option Super :=
  let sb := src.read .super 0 96
  if (BitVec.ofNat 32 src.file.length).toInt ≤ 0 then none
  else if numAt sb 0 4 ≠ 0x73717368 then none
  else if numAt sb 20 2 ≠ 1 then none
  else some
    { block_size := UInt32.ofNat (numAt sb 12 4)
      fragment_count := UInt32.ofNat (numAt sb 16 4)
      root_inode := UInt64.ofNat (numAt sb 32 8)
      bytes_used := UInt64.ofNat (numAt sb 40 8)
      id_table_start := UInt64.ofNat (numAt sb 48 8)
      inode_table_start := UInt64.ofNat (numAt sb 64 8)
      directory_table_start := UInt64.ofNat (numAt sb 72 8)
      fragment_table_start := UInt64.ofNat (numAt sb 80 8)
      lookup_table_start := UInt64.ofNat (numAt sb 88 8) }

/-- Why a function does not return a value. -/
inductive Fault
  | wild
  | error
  deriving DecidableEq

section Load

structure Loading where
  region : Region
  pos : UInt64
  stop : UInt64
  buf : List UInt8
  cap : ℕ

/-- The capacity that there is when a block is put in. -/
def Loading.grown (l : Loading) : ℕ :=
  if l.buf.length + 8192 > l.cap then if l.cap = 0 then 8192 * 16 else l.cap * 2 else l.cap

def Loading.put (l : Loading) (pos : UInt64) (bytes : List UInt8) : Except Fault (Option Loading) :=
  if l.buf.length + bytes.length > l.grown then .error .wild
  else .ok (some { l with pos := pos, buf := l.buf ++ bytes, cap := l.grown })

/-- A turn of the loop of `__load_metadata_region`; `none` at its end. -/
def load_metadata_block (src : Source) (l : Loading) : Except Fault (Option Loading) :=
  if l.pos + 2 ≤ l.stop then
    if src.seek l.pos then
      let h := leNat (src.read l.region l.pos.toNat 2)
      let csize := h % 0x8000
      let pos := l.pos + 2
      if csize = 0 then .ok none
      else if pos + UInt64.ofNat csize > l.stop then .error .error
      else
        let raw := src.read l.region pos.toNat csize
        if h.testBit 15 then l.put (pos + UInt64.ofNat csize) raw
        else
          match src.uncompress raw with
          | none => .error .error
          | some out => l.put (pos + UInt64.ofNat csize) out
    else .error .error
  else .ok none

end Load

structure Tables where
  inodes : List UInt8
  dirs : List UInt8
  fragments : List UInt8

section Parse

def word (tbl : List UInt8) (off w : ℕ) : Except Fault ℕ :=
  match Buffer.get tbl off w with
  | some bs => .ok (leNat bs)
  | none => .error .wild

def words (tbl : List UInt8) : ℕ → ℕ → Except Fault (List ℕ)
  | _, 0 => .ok []
  | off, n + 1 => do
    let w ← word tbl off 4
    let ws ← words tbl (off + 4) n
    return w :: ws

def isFile (type : ℕ) : Bool := type = 2 || type = 9

def isDir (type : ℕ) : Bool := type = 1 || type = 8

structure Inode where
  type : ℕ
  start_block : ℕ
  fragment : ℕ
  fragment_offset : ℕ
  file_size : ℕ
  block_list : List ℕ
  dir_start : ℕ
  dir_offset : ℕ
  dir_file_size : ℕ

def blockCount (block_size : UInt32) (file_size fragment : ℕ) : ℕ :=
  if fragment ≠ 0xFFFFFFFF ∧ file_size % block_size.toNat ≠ 0 then file_size / block_size.toNat
  else (file_size + block_size.toNat - 1) / block_size.toNat

variable (T : Tables) (block_size : UInt32)

def parse_file_inode (off type : ℕ) : Except Fault Inode := do
  let start_block ← word T.inodes (off + 16) 4
  let fragment ← word T.inodes (off + 20) 4
  let fragment_offset ← word T.inodes (off + 24) 4
  let file_size ← word T.inodes (off + 28) 4
  -- the size is divided by the size of a block
  if block_size = 0 then .error .wild
  else
    (words T.inodes (off + 32) (blockCount block_size file_size fragment)).map fun block_list ↦
      ⟨type, start_block, fragment, fragment_offset, file_size, block_list, 0, 0, 0⟩

def parse_dir_inode (off type : ℕ) : Except Fault Inode := do
  let dir_start ← word T.inodes (off + 16) 4
  let dir_file_size ← word T.inodes (off + 24) 2
  let dir_offset ← word T.inodes (off + 26) 2
  return ⟨type, 0, 0, 0, 0, [], dir_start, dir_offset, dir_file_size⟩

/-- Where the inode at `offset` behind the block `block` starts. -/
def inodeOff (block : UInt32) (offset : UInt16) : ℕ := block.toNat * 8192 + offset.toNat

/-- Where there is no room for the head of an inode, what stands in the caller's `block_list` is
freed, and no one has set it. -/
def parse_inode (block : UInt32) (offset : UInt16) : Except Fault Inode :=
  let off := inodeOff block offset
  if off + 16 > T.inodes.length then .error .wild
  else do
    let type ← word T.inodes off 2
    if isFile type then parse_file_inode T block_size off type
    else if isDir type then parse_dir_inode T off type
    else return ⟨type, 0, 0, 0, 0, [], 0, 0, 0⟩

end Parse

section Walk

/-- A directory that is walked: where its data is read, where it stops, how many entries of the
header are left and the block of their inodes. -/
structure Frame where
  path : Text
  dstart : UInt32
  p : ℕ
  stop : ℕ
  left : ℕ
  start_block : UInt32

structure Found where
  name : Text
  size : ℕ
  inode_block : UInt32
  inode_offset : UInt16

variable (T : Tables) (block_size : UInt32)

def walk_dir (path : Text) (dstart : UInt32) : Except Fault Frame := do
  let ino ← parse_inode T block_size (dstart >>> 16) dstart.toUInt16
  if ¬isDir ino.type ∨ ino.dir_start ≠ 0 ∨ ino.dir_offset ≥ T.dirs.length then .error .error
  else return ⟨path, dstart, ino.dir_offset, ino.dir_offset + (ino.dir_file_size - 3), 0, 0⟩

/-- The header of a run of entries, with its index. -/
def dir_header (f : Frame) : Except Fault Frame := do
  let raw_count ← word T.dirs f.p 4
  let start_block ← word T.dirs (f.p + 4) 4
  let _ ← word T.dirs (f.p + 8) 4
  let g := { f with
    p := f.p + 12
    left := raw_count % 0x8000 + 1
    start_block := UInt32.ofNat start_block }
  if raw_count.testBit 15 then do
    let isize ← word T.dirs (f.p + 20) 4
    if f.p + 12 + (12 + isize + 1) > f.stop then .error .error
    else return { g with p := f.p + 12 + (12 + isize + 1) }
  else return g

def joinPath (path name : Text) : Text := if path = [] then name else path ++ 47 :: name

/-- What an entry says. -/
structure Entry where
  offset : UInt16
  type : ℕ
  name : Text

/-- An entry of a directory whose data ends at `stop`, with its size, and its name in a buffer of
256 bytes together with a zero. -/
def read_entry (p stop : ℕ) : Except Fault (Entry × ℕ) :=
  if p + 8 > stop then .error .error
  else do
    let offset ← word T.dirs p 2
    let _ ← word T.dirs (p + 2) 2
    let type ← word T.dirs (p + 4) 2
    let size ← word T.dirs (p + 6) 2
    if p + 8 + (size + 1) > stop then .error .error
    else
      match Buffer.get T.dirs (p + 8) (size + 1) with
      | none => .error .wild
      | some name =>
        if size + 2 > 256 then .error .wild
        else return (⟨UInt16.ofNat offset, type, cString name⟩, size)

/-- Where the directory of an entry is. -/
def Entry.dstart (e : Entry) (f : Frame) : UInt32 :=
  f.start_block <<< 16 ||| UInt32.ofNat e.offset.toNat

/-- What is walked after an entry, and the file that was found. -/
def enter_entry (f : Frame) (e : Entry) (size : ℕ) : Except Fault (List Frame × List Found) :=
  if f.path.length + 1 + e.name.length + 1 ≥ 1024 then .error .error
  else
    let full := joinPath f.path e.name
    if full.length + 1 > 1024 then .error .wild
    else
      let g := { f with p := f.p + 8 + (size + 1), left := f.left - 1 }
      if isFile e.type then
        (parse_inode T block_size f.start_block e.offset).map fun ino ↦
          ([g], [⟨full, ino.file_size, f.start_block, e.offset⟩])
      else if isDir e.type then
        (walk_dir T block_size full (e.dstart f)).map fun sub ↦ ([sub, g], [])
      else .ok ([g], [])

def dir_entry (f : Frame) : Except Fault (List Frame × List Found) := do
  let (e, size) ← read_entry T f.p f.stop
  enter_entry T block_size f e size

/-- A step of `__walk_dir_entries`: the frames that come in place of `f`. -/
def walk_step (f : Frame) : Except Fault (List Frame × List Found) :=
  if f.left = 0 then
    if f.p + 12 ≤ f.stop then (dir_header T f).map fun g ↦ ([g], []) else .ok ([], [])
  else dir_entry T block_size f

end Walk

section Open

inductive State
  | load (l : Loading) (T : Tables)
  | enter (T : Tables)
  | walk (T : Tables) (stack : List Frame) (files : List Found)

/-- The answer and the files that were found. -/
structure Opened where
  ret : ℤ
  files : List Found

variable (src : Source) (sup : Super)

def unset (pos : UInt64) : Prop := pos = 0 ∨ pos = 0xFFFFFFFFFFFFFFFF

instance : DecidablePred unset := fun _ ↦ inferInstanceAs (Decidable (_ ∨ _))

def dirEnd : UInt64 :=
  let e := sup.fragment_table_start
  let e := if unset e then sup.lookup_table_start else e
  let e := if unset e then sup.id_table_start else e
  if unset e then sup.bytes_used else e

def fragEnd : UInt64 :=
  if unset sup.lookup_table_start then sup.bytes_used else sup.lookup_table_start

def beginLoad : Region → Loading
  | .super | .inodes => ⟨.inodes, sup.inode_table_start, sup.directory_table_start, [], 0⟩
  | .dirs => ⟨.dirs, sup.directory_table_start, dirEnd sup, [], 0⟩
  | .fragments => ⟨.fragments, sup.fragment_table_start, fragEnd sup, [], 0⟩

/-- What comes after a region. -/
def loaded (l : Loading) (T : Tables) : State :=
  match l.region with
  | .super | .inodes => .load (beginLoad sup .dirs) { T with inodes := l.buf }
  | .dirs =>
    if sup.fragment_count ≠ 0 ∧ sup.fragment_table_start ≠ 0 then
      .load (beginLoad sup .fragments) { T with dirs := l.buf }
    else .enter { T with dirs := l.buf }
  | .fragments => .enter { T with fragments := l.buf }

/-- An error ends everything. -/
def ofExcept {α : Type} (files : List Found) (r : Except Fault α) (next : α → Move State Opened) :
    Move State Opened :=
  match r with
  | .ok a => next a
  | .error .error => .done ⟨-1, files⟩
  | .error .wild => .wild

/-- A step of `open` after the superblock. -/
def openStep : State → Move State Opened
  | .load l T => ofExcept [] (load_metadata_block src l) fun
      | some l => .next (.load l T)
      | none => .next (loaded sup l T)
  | .enter T => ofExcept [] (walk_dir T sup.block_size [] sup.root_inode.toUInt32) fun f ↦
      .next (.walk T [f] [])
  | .walk _ [] files => .done ⟨1, files⟩
  | .walk T (f :: rest) files => ofExcept files (walk_step T sup.block_size f) fun r ↦
      .next (.walk T (r.1 ++ rest) (files ++ r.2))

def openStart : State := .load (beginLoad sup .inodes) ⟨[], [], []⟩

/-- An image with a right superblock is opened or refused, without a wild step on the way. -/
def OpensWell : Prop :=
  ∀ sup, superblockOf src = some sup → Machine.Ends (openStep src sup) (openStart sup)

end Open

end Libobject.Squashfs
