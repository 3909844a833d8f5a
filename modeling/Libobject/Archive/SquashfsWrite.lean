import Libobject.Lib.Buffer
import Libobject.Lib.Bytes
import Libobject.Lib.Rose
import Libobject.Lib.Scan

/-!
# Saving a SquashFS image

The names of the added files are split into segments and grown into a tree, and three walks over
the tree number the inodes, list the directories and write the inodes. What is written into the
three fixed buffers on the way is kept as a list of records; a record that does not fit is kept
too, although what happens after it is undefined.
-/

namespace Libobject.Squashfs

open Scan

def SQFS_INODE_DIR : ℕ := 1

def SQFS_INODE_FILE : ℕ := 2

def SQFS_NO_FRAGMENT : ℕ := 0xFFFFFFFF

def SQFS_COMPRESSED_BIT : ℕ := 0x8000

/-- What `add_file` keeps of a file. `pending_size` is the entry of `pending_sizes` for it, where
its data starts. -/
structure FileEntry where
  name : Text
  size : UInt64
  block_list : List UInt32
  num_blocks : UInt32
  pending_size : UInt32
  length_block_list : block_list.length = num_blocks.toNat

/-- The buffers of `save`: the segments of a name, the directory block and the inode block. -/
inductive Table
  | segs
  | dirs
  | inodes
  deriving DecidableEq

def Table.capacity : Table → ℕ
  | segs => 64 * 256
  | dirs | inodes => 8192

/-- Something that is written into a table: its place, its size and the bytes that come there. -/
structure Record where
  table : Table
  off : ℕ
  size : ℕ
  bytes : List UInt8
  deriving DecidableEq

/-- A record is whole and inside its table. -/
def Record.Fits (r : Record) : Prop :=
  r.bytes.length = r.size ∧ r.off + r.size ≤ r.table.capacity

instance : DecidablePred Record.Fits := fun _ ↦ inferInstanceAs (Decidable (_ ∧ _))

section Grow

/-- The parts of a name between slashes that are not empty. -/
def segments (name : Text) : List Text :=
  ((((name.take 1023).splitOn 47).filter (· ≠ [])).map (·.take 255))

/-- Each segment is filled up with zeros to its row of 256 bytes. -/
def segRecords (name : Text) : List Record :=
  (segments name).mapIdx fun k s ↦ ⟨.segs, 256 * k, 256, s ++ List.replicate (256 - s.length) 0⟩

/-- A node of the directory tree. A directory has no file. -/
structure Meta where
  name : Text
  file : Option FileEntry
  inode_no : UInt32
  inode_off : UInt32
  dir_off : ℕ
  dir_size : ℕ

abbrev Node := Rose Meta

def newNode (name : Text) (file : Option FileEntry) (child : List Node) : Node :=
  .node ⟨name, file, 0, 0, 0, 0⟩ child

def node_find (name : Text) (child : List Node) : Option ℕ :=
  child.findIdx? fun c ↦ c.data.name = name

/-- The place of a new name among the children. -/
def insert_pos (name : Text) (child : List Node) : ℕ :=
  child.findIdx fun c ↦ strcmp name c.data.name = .lt

/-- The children of a node after a file was put under it, down the segments of its name. -/
def grow (file : FileEntry) : List Text → List Node → Option (List Node)
  | [], child => some child
  | s :: rest, child =>
    match node_find s child with
    | some k => do
      let nx ← child[k]?
      if rest = [] ∨ nx.data.file.isSome then none
      else
        let sub ← grow file rest nx.child
        return child.set k (.node nx.data sub)
    | none => do
      let sub ← grow file rest []
      let nx := newNode s (if rest = [] then some file else none) sub
      return child.insertIdx (insert_pos s child) nx

/-- The children of the root after all files, and what was written for it. -/
def growAll : List FileEntry → List Node → Option (List Node) × List Record
  | [], child => (some child, [])
  | f :: files, child =>
    let segs := segments f.name
    if segs.length = 0 ∨ 64 ≤ segs.length then (none, segRecords f.name)
    else
      match grow f segs child with
      | none => (none, segRecords f.name)
      | some child =>
        let (root, written) := growAll files child
        (root, segRecords f.name ++ written)

end Grow

section Visit

/-- What the walks share. `written` is what they wrote so far. -/
structure Ctx where
  inode_no : UInt32
  inode_off : UInt32
  dir_count : UInt32
  dir_off : ℕ
  inode_len : UInt32
  err : ℤ
  dirs : List UInt8
  inodes : List UInt8
  written : List Record

def Ctx.init : Ctx :=
  ⟨1, 0, 0, 0, 0, 0, List.replicate 8192 0, List.replicate 8192 0, []⟩

def Ctx.write (c : Ctx) (r : Record) : Ctx :=
  match r.table with
  | .segs => { c with written := c.written ++ [r] }
  | .dirs =>
    { c with
      dirs := (Buffer.put c.dirs r.off r.bytes).getD c.dirs
      written := c.written ++ [r] }
  | .inodes =>
    { c with
      inodes := (Buffer.put c.inodes r.off r.bytes).getD c.inodes
      written := c.written ++ [r] }

def layout_visit (_ : Option Meta) (m : Meta) (_ : List Node) (c : Ctx) : Meta × Ctx × ℤ :=
  let m := { m with inode_no := c.inode_no, inode_off := c.inode_off }
  let c := { c with inode_no := c.inode_no + 1 }
  match m.file with
  | none => (m, { c with inode_off := c.inode_off + 32, dir_count := c.dir_count + 1 }, 0)
  | some f => (m, { c with inode_off := c.inode_off + (32 + 4 * f.num_blocks) }, 0)

def dirHeader (nchild : ℕ) (first : Meta) : List UInt8 :=
  leBytes 4 (nchild - 1) ++ leBytes 4 0 ++ leBytes 4 first.inode_no.toNat

def dirEntry (first m : Meta) : List UInt8 :=
  leBytes 2 m.inode_off.toNat ++ leBytes 2 (m.inode_no - first.inode_no).toNat ++
    leBytes 2 (if m.file.isNone then SQFS_INODE_DIR else SQFS_INODE_FILE) ++
    leBytes 2 (UInt32.ofNat m.name.length - 1).toNat ++ m.name

/-- The loop over the children of a directory whose listing starts at `off`: the length of the
listing, or `none` where an entry has no room. -/
def putEntries (first : Meta) (off cap : ℕ) : List Node → ℕ → Ctx → Option ℕ × Ctx
  | [], len, c => (some len, c)
  | n :: ns, len, c =>
    if len + 8 + n.data.name.length > cap then (none, c)
    else
      putEntries first off cap ns (len + 8 + n.data.name.length)
        (c.write ⟨.dirs, off + len, 8 + n.data.name.length, dirEntry first n.data⟩)

def serialize_visit (_ : Option Meta) (m : Meta) (child : List Node) (c : Ctx) :
    Meta × Ctx × ℤ :=
  if m.file.isSome then (m, c, 0)
  else
    let cap := 8192 - c.dir_off
    let m := { m with dir_off := c.dir_off }
    match child with
    | [] => (m, c, 0)
    | first :: _ =>
      if cap < 12 then (m, { c with err := -1 }, -1)
      else
        match putEntries first.data c.dir_off cap child 12
          (c.write ⟨.dirs, c.dir_off, 12, dirHeader child.length first.data⟩) with
        | (none, c) => (m, { c with err := -1 }, -1)
        | (some len, c) => ({ m with dir_size := len }, { c with dir_off := c.dir_off + len }, 0)

def inodeHead (type mode : ℕ) (m : Meta) : List UInt8 :=
  leBytes 2 type ++ leBytes 2 mode ++ leBytes 2 0 ++ leBytes 2 0 ++ leBytes 4 0 ++
    leBytes 4 m.inode_no.toNat

def dirInode (parent : Option Meta) (m : Meta) (child : List Node) : List UInt8 :=
  inodeHead SQFS_INODE_DIR 0x41ED m ++ leBytes 4 0 ++
    leBytes 4 (child.countP (fun n ↦ n.data.file.isNone) + 2) ++ leBytes 2 (m.dir_size + 3) ++
    leBytes 2 m.dir_off ++ leBytes 4 (parent.elim 1 fun p ↦ p.inode_no.toNat)

/-- The blocks are counted by a signed number. -/
def fileInode (m : Meta) (f : FileEntry) : List UInt8 :=
  inodeHead SQFS_INODE_FILE 0x81A4 m ++ leBytes 4 f.pending_size.toNat ++
    leBytes 4 SQFS_NO_FRAGMENT ++ leBytes 4 0 ++ leBytes 4 f.size.toNat ++
    (f.block_list.take f.num_blocks.toBitVec.toInt.toNat).flatMap fun b ↦ leBytes 4 b.toNat

def inode (parent : Option Meta) (m : Meta) (child : List Node) : List UInt8 :=
  match m.file with
  | none => dirInode parent m child
  | some f => fileInode m f

def inodeSize : Option FileEntry → ℕ
  | none => 32
  | some f => 32 + 4 * f.num_blocks.toNat

def write_visit (parent : Option Meta) (m : Meta) (child : List Node) (c : Ctx) :
    Meta × Ctx × ℤ :=
  let bytes := inode parent m child
  let c := c.write ⟨.inodes, m.inode_off.toNat, inodeSize m.file, bytes⟩
  -- the place behind the inode is taken for files only
  let last := if m.file.isNone then m.inode_off else m.inode_off + UInt32.ofNat bytes.length
  (m, if last > c.inode_len then { c with inode_len := last } else c, 0)

end Visit

section Save

/-- The fields of the archive that `save` reads and sets. -/
structure Archive where
  add_flag : Bool
  files : List FileEntry
  block_size : UInt32
  block_log : UInt16
  num_inodes : UInt32
  write_pos : UInt64
  inode_table_start : UInt64
  directory_table_start : UInt64
  id_table_start : UInt64

/-- What `save` leaves: its answer, the records it wrote into its tables and the bytes it wrote
into the image, each with its place there. -/
structure Saved where
  sq : Archive
  ret : ℤ
  written : List Record
  image : List (UInt64 × List UInt8)

variable (compress : List UInt8 → ℕ → Option (List UInt8))

def metadataBlock (data : List UInt8) : List UInt8 :=
  match compress data (data.length + 64) with
  | some c =>
    if c.length + 2 < data.length then leBytes 2 c.length ++ c
    else leBytes 2 (SQFS_COMPRESSED_BIT ||| data.length) ++ data
  | none => leBytes 2 (SQFS_COMPRESSED_BIT ||| data.length) ++ data

def superblock (sq : Archive) (root_inode_loc : ℕ) : List UInt8 :=
  leBytes 4 0x73717368 ++ leBytes 4 sq.num_inodes.toNat ++ leBytes 4 0 ++
    leBytes 4 sq.block_size.toNat ++ leBytes 4 0 ++ leBytes 2 1 ++ leBytes 2 sq.block_log.toNat ++
    leBytes 2 0x100 ++ leBytes 2 1 ++ leBytes 2 4 ++ leBytes 2 0 ++ leBytes 8 root_inode_loc ++
    leBytes 8 sq.write_pos.toNat ++ leBytes 8 sq.id_table_start.toNat ++
    leBytes 8 0xFFFFFFFFFFFFFFFF ++ leBytes 8 sq.inode_table_start.toNat ++
    leBytes 8 sq.directory_table_start.toNat ++ leBytes 8 0 ++ leBytes 8 0xFFFFFFFFFFFFFFFF

/-- The tables, one behind the other, and the superblock in front of everything. -/
def writeTables (sq : Archive) (inodes dirs : List UInt8) :
    Archive × List (UInt64 × List UInt8) :=
  let inodeBlock := metadataBlock compress inodes
  let dirBlock := metadataBlock compress dirs
  let idBlock := metadataBlock compress [0, 0, 0, 0]
  let dirStart := sq.write_pos + UInt64.ofNat inodeBlock.length
  let idPos := dirStart + UInt64.ofNat dirBlock.length
  let idStart := idPos + UInt64.ofNat idBlock.length
  let sq' := { sq with
    inode_table_start := sq.write_pos
    directory_table_start := dirStart
    id_table_start := idStart
    write_pos := idStart + 8 }
  ({ sq' with add_flag := false },
    [(sq.write_pos, inodeBlock), (dirStart, dirBlock), (idPos, idBlock),
      (idStart, leBytes 8 idPos.toNat), (0, superblock sq' 0)])

/-- The three walks over the tree, the second of which may fail: the last state and the answer. -/
def walks (root : Node) (c : Ctx) : Ctx × ℤ :=
  let (root, c, _) := root.preorder layout_visit none c
  let (root, c, _) := root.preorder serialize_visit none c
  if c.err ≠ 0 then (c, -1)
  else
    let (_, c, _) := root.preorder write_visit none c
    if c.inode_len > 8192 then (c, -1) else (c, 1)

def save (sq : Archive) : Saved :=
  if sq.add_flag = false then ⟨sq, 1, [], []⟩
  else
    match growAll sq.files [] with
    | (none, written) => ⟨sq, -1, written, []⟩
    | (some child, written) =>
      let (c, r) := walks (newNode [] none child) Ctx.init
      let sq := { sq with num_inodes := UInt32.ofNat sq.files.length + c.dir_count }
      if r < 0 then ⟨sq, r, written ++ c.written, []⟩
      else
        let (sq, image) :=
          writeTables compress sq (c.inodes.take c.inode_len.toNat) (c.dirs.take c.dir_off)
        ⟨sq, 1, written ++ c.written, image⟩

/-- Every record is whole and inside its table. -/
def StaysInBounds (sq : Archive) : Prop := ∀ r ∈ (save compress sq).written, r.Fits

instance (sq : Archive) : Decidable (StaysInBounds compress sq) :=
  inferInstanceAs (Decidable (∀ r ∈ (save compress sq).written, r.Fits))

end Save

end Libobject.Squashfs
