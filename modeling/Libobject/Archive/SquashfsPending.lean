import Libobject.Archive.SquashfsRead
import Libobject.Archive.SquashfsSave
import Libobject.Lib.Run

/-!
# The files of an image and the data that waits to be saved

An object lists its files in one array and keeps in another where the data of each starts. Opening
an image lists files, `add_file` lists one after it stored its data, and `save` takes for the `i`-th
file what stands at the `i`-th place of both arrays. A session is an object together with what each
of its files was listed with.
-/

namespace Libobject.Squashfs

open Scan

def SQFS_BLOCK_UNCOMPRESSED_BIT : UInt32 := 0x1000000

/-- The entry of a file. Opening an image leaves the list of blocks empty. -/
structure Listed where
  name : Text
  size : UInt64
  inode_block : UInt32
  inode_offset : UInt16
  block_list : List UInt32
  num_blocks : UInt32
  length_block_list : block_list.length = num_blocks.toNat

/-- The fields that adding and saving use. `save` sets the starts of the tables before it uses
them. -/
structure Object where
  add_flag : Bool
  block_size : UInt32
  block_log : UInt16
  num_inodes : UInt32
  write_pos : UInt64
  files : List Listed
  pending_sizes : List UInt32
  pending_count : ℕ

def construct : Object := ⟨false, 131072, 17, 0, 0, [], [], 0⟩

section Open

def Found.listed (f : Found) : Listed :=
  ⟨f.name, UInt64.ofNat f.size, f.inode_block, f.inode_offset, [], 0, rfl⟩

/-- The object and the answer; `none` where the walk does something undefined or needs more than
`turns` turns. The size of a block is set before the compression is looked at. -/
def Object.open (sq : Object) (src : Source) (turns : ℕ) : Option (Object × ℤ) :=
  let sb := src.read .super 0 96
  if (BitVec.ofNat 32 src.file.length).toInt ≤ 0 then some (sq, 1)
  else if numAt sb 0 4 ≠ 0x73717368 then some (sq, -1)
  else
    let sq := { sq with
      block_size := UInt32.ofNat (numAt sb 12 4)
      block_log := UInt16.ofNat (numAt sb 22 2) }
    match superblockOf src with
    | none => some (sq, -1)
    | some sup =>
      match Machine.after (openStep src sup) turns (openStart sup) with
      | .done r => some ({ sq with files := sq.files ++ r.files.map Found.listed }, r.ret)
      | _ => none

end Open

section Add

/-- Where `add_file` can fail: reading the file, writing the place of the superblock, memory for the
starts, for a compressed block and for the sizes of the blocks, writing a block, memory for the
entries and for the name. -/
inductive Stage
  | file
  | superblock
  | pending_sizes
  | cmpr
  | block_list
  | block (i : ℕ)
  | files
  | name
  deriving DecidableEq

/-- The part of a path behind its last slash, or the path where nothing is behind it. -/
def basename (path : Text) : Text :=
  let base := (path.reverse.takeWhile (· ≠ 47)).reverse
  if base = [] then path else base

def stored_name (adding_path file_name : Text) : Text :=
  let rel := (file_name.drop adding_path.length).dropWhile (· = 47)
  if 2 < adding_path.length ∧ adding_path <+: file_name ∧ rel ≠ [] then rel else basename file_name

def blockNum (size : ℕ) (block_size : UInt32) : UInt32 :=
  let blocks := UInt32.ofNat ((size + block_size.toNat - 1) / block_size.toNat)
  if blocks = 0 then 1 else blocks

variable (compress : List UInt8 → ℕ → Option (List UInt8))

def chunk (block_size : UInt32) (data : List UInt8) (i : ℕ) : List UInt8 :=
  (data.drop (i * block_size.toNat)).take block_size.toNat

/-- The size of a block with its flag and how many bytes are written. -/
def storeChunk (block_size : UInt32) (bs : List UInt8) : UInt32 × UInt32 :=
  let size := UInt32.ofNat bs.length
  match compress bs (block_size + 64).toNat with
  | none => (size ||| SQFS_BLOCK_UNCOMPRESSED_BIT, size)
  | some c =>
    let clen := UInt32.ofNat c.length
    if clen ≥ size then (size ||| SQFS_BLOCK_UNCOMPRESSED_BIT, size) else (clen, clen)

/-- The loop over the blocks from the `i`-th on, `n` of them: their sizes and where the next data
goes. An empty block is not written. -/
def storeBlocks (block_size : UInt32) (data : List UInt8) (fails : Option Stage) :
    ℕ → ℕ → UInt64 → Option (List UInt32 × UInt64)
  | 0, _, pos => some ([], pos)
  | n + 1, i, pos =>
    let bs := chunk block_size data i
    if bs = [] then
      (storeBlocks block_size data fails n (i + 1) pos).map fun r ↦ (0 :: r.1, r.2)
    else if fails = some (.block i) then none
    else
      let (size, stored) := storeChunk compress block_size bs
      (storeBlocks block_size data fails n (i + 1) (pos + stored.toUInt64)).map fun r ↦
        (size :: r.1, r.2)

theorem length_storeBlocks {block_size : UInt32} {data : List UInt8} {fails : Option Stage}
    {n i : ℕ} {pos : UInt64} {r : List UInt32 × UInt64}
    (h : storeBlocks compress block_size data fails n i pos = some r) : r.1.length = n := by
  induction n generalizing i pos r with
  | zero =>
    obtain rfl := Option.some.inj h
    rfl
  | succ n ih =>
    rw [storeBlocks] at h
    split at h
    · obtain ⟨r', hr', rfl⟩ := Option.map_eq_some_iff.mp h
      exact congrArg (· + 1) (ih hr')
    · split at h
      · cases h
      · obtain ⟨r', hr', rfl⟩ := Option.map_eq_some_iff.mp h
        exact congrArg (· + 1) (ih hr')

/-- The place of the superblock is left free in front of the first file. -/
def Object.dataStart (sq : Object) : UInt64 := if sq.add_flag then sq.write_pos else 96

/-- The start of the data is put behind the others, before anything is stored. -/
def Object.begin_file (sq : Object) : Object := { sq with
  add_flag := true
  write_pos := sq.dataStart
  pending_sizes := sq.pending_sizes.take sq.pending_count ++ [sq.dataStart.toUInt32] }

/-- The object and the answer; `none` is the division by a size of no bytes. -/
def Object.add_file (sq : Object) (name : Text) (data : List UInt8) (fails : Option Stage) :
    Option (Object × ℤ) :=
  if fails = some .file then some (sq, -1)
  else if sq.add_flag = false ∧ fails = some .superblock then some (sq, -1)
  else if sq.block_size = 0 then none
  else
    let blocks := blockNum data.length sq.block_size
    if fails = some .pending_sizes then
      some ({ sq with add_flag := true, write_pos := sq.dataStart }, -1)
    else if fails = some .cmpr ∨ fails = some .block_list then some (sq.begin_file, -1)
    else
      match h : storeBlocks compress sq.block_size data fails blocks.toNat 0 sq.dataStart with
      | none => some (sq.begin_file, -1)
      | some (block_list, pos) =>
        let sq' := { sq.begin_file with write_pos := pos, pending_count := sq.pending_count + 1 }
        if fails = some .files ∨ fails = some .name then some (sq', -1)
        else
          some ({ sq' with files := sq.files ++
            [⟨name, UInt64.ofNat data.length, UInt32.ofNat sq.pending_count, 0, block_list, blocks,
              length_storeBlocks compress h⟩] }, 1)

end Add

section Save

variable (compress : List UInt8 → ℕ → Option (List UInt8))

def Listed.entry (f : Listed) (pending_size : UInt32) : FileEntry :=
  ⟨f.name, f.size, f.block_list, f.num_blocks, pending_size, f.length_block_list⟩

/-- What `save` finds in the object. -/
def Object.archive (sq : Object) : Archive where
  add_flag := sq.add_flag
  files := sq.files.mapIdx fun i f ↦ f.entry (sq.pending_sizes[i]?.getD 0)
  block_size := sq.block_size
  block_log := sq.block_log
  num_inodes := sq.num_inodes
  write_pos := sq.write_pos
  inode_table_start := 0
  directory_table_start := 0
  id_table_start := 0

/-- Whether `save` gets as far as the inodes, for which it reads where the data starts. -/
def Archive.writesInodes (sq : Archive) : Bool :=
  sq.add_flag &&
    match growAll sq.files [] with
    | (none, _) => false
    | (some child, _) =>
      let (root, c, _) := (newNode [] none child).preorder layout_visit none Ctx.init
      let (_, c, _) := root.preorder serialize_visit none c
      decide (c.err = 0)

/-- Writing outside of a table and reading behind the starts are undefined. `fails` is the number of
a write into the image that fails; the flag stays then. -/
def Object.save (sq : Object) (fails : Option ℕ) : Option (Object × ℤ) :=
  let saved := Squashfs.save compress sq.archive
  if StaysInBounds compress sq.archive ∧
      (sq.archive.writesInodes = true → sq.files.length ≤ sq.pending_sizes.length) then
    let cut := fails.bind fun k ↦ (saved.image[k]?).map fun w ↦
      if k = 4 then saved.sq.write_pos else w.1
    let sq := { sq with num_inodes := saved.sq.num_inodes }
    match cut with
    | none => some ({ sq with
        add_flag := saved.sq.add_flag
        write_pos := saved.sq.write_pos }, saved.ret)
    | some pos => some ({ sq with write_pos := pos }, -1)
  else none

end Save

section Session

/-- What a file was listed with. -/
structure Place where
  name : Text
  size : UInt64
  start : UInt64
  block_list : List UInt32
  deriving DecidableEq

/-- What the `i`-th file refers to, in the two arrays. -/
def Object.refers (sq : Object) : List (Option Place) :=
  sq.files.mapIdx fun i f ↦ (sq.pending_sizes[i]?).map fun p ↦
    ⟨f.name, f.size, p.toUInt64, f.block_list⟩

/-- `log` says for each listed file what it was added with; a file of an image that was opened has
no data that waits. -/
structure Session where
  sq : Object
  log : List (Option Place)

inductive Call
  | open (src : Source) (turns : ℕ)
  | add_file (adding_path file_name : Text) (data : List UInt8) (fails : Option Stage)
  | save (fails : Option ℕ)

variable (compress : List UInt8 → ℕ → Option (List UInt8))

def Session.call (s : Session) : Call → Option Session
  | .open src turns => do
    let (sq, _) ← s.sq.open src turns
    return ⟨sq, s.log ++ List.replicate (sq.files.length - s.sq.files.length) none⟩
  | .add_file adding_path file_name data fails => do
    let name := stored_name adding_path file_name
    let (sq, ret) ← s.sq.add_file compress name data fails
    let stored := storeBlocks compress s.sq.block_size data fails
      (blockNum data.length s.sq.block_size).toNat 0 s.sq.dataStart
    let place := stored.map fun r ↦
      (⟨name, UInt64.ofNat data.length, s.sq.dataStart, r.1⟩ : Place)
    return ⟨sq, if ret = 1 then s.log ++ [place] else s.log⟩
  | .save fails => do
    let (sq, _) ← s.sq.save compress fails
    return ⟨sq, s.log⟩

/-- The arrays are of the same length, and each file refers to what it was listed with. -/
def Session.InStep (s : Session) : Prop :=
  s.sq.pending_count = s.sq.files.length ∧ s.sq.refers = s.log

instance : DecidablePred Session.InStep := fun _ ↦ inferInstanceAs (Decidable (_ ∧ _))

def step (s : Option Session) (c : Call) : Option Session := s.bind fun s ↦ s.call compress c

def start : Session := ⟨construct, []⟩

/-- Every call of the sequence is defined and leaves the arrays in step. -/
def KeepsInStep (calls : List Call) : Prop :=
  Run.Steps (step compress) (fun _ _ t ↦ ∃ s ∈ t, s.InStep) (some start) calls

instance (calls : List Call) : Decidable (KeepsInStep compress calls) :=
  inferInstanceAs (Decidable (Run.Steps _ _ _ _))

end Session

section InStep

/-- The image is none, or the walk over it finds no file. -/
def Source.Listless (src : Source) (turns : ℕ) : Prop :=
  ∀ sup, superblockOf src = some sup →
    ∃ r, Machine.after (openStep src sup) turns (openStart sup) = .done r ∧ r.files = []

/-- A block that is to be written cannot be. -/
def StoreFails (block_size : UInt32) (data : List UInt8) (fails : Option Stage) (n : ℕ) : Prop :=
  ∃ i < n, fails = some (.block i) ∧ chunk block_size data i ≠ []

/-- An image that is opened lists no file, `add_file` does not fail after it counted its data, which
starts below 4 GiB, and `save` has room for its tables. -/
def Session.Meets (s : Session) : Call → Prop
  | .open src turns => src.Listless turns
  | .add_file _ _ data fails =>
    fails = some .file ∨ s.sq.add_flag = false ∧ fails = some .superblock ∨
      s.sq.block_size ≠ 0 ∧
        (fails = some .pending_sizes ∨ fails = some .cmpr ∨ fails = some .block_list ∨
          StoreFails s.sq.block_size data fails (blockNum data.length s.sq.block_size).toNat ∨
          fails ≠ some .files ∧ fails ≠ some .name ∧ s.sq.dataStart.toNat < 2 ^ 32)
  | .save _ => s.sq.add_flag = true → Roomy s.sq.archive.files

variable {compress : List UInt8 → ℕ → Option (List UInt8)} {s : Session}

/-- Every start that is counted has been written. -/
structure Session.Sound (s : Session) : Prop where
  inStep : s.InStep
  pending_le : s.sq.pending_count ≤ s.sq.pending_sizes.length

theorem storeBlocks_eq_none_iff {block_size : UInt32} {data : List UInt8} {fails : Option Stage}
    {n i : ℕ} {pos : UInt64} : storeBlocks compress block_size data fails n i pos = none ↔
      ∃ k, i ≤ k ∧ k < i + n ∧ fails = some (.block k) ∧ chunk block_size data k ≠ [] := by
  induction n generalizing i pos with
  | zero =>
    refine iff_of_false (fun h ↦ nomatch h) ?_
    rintro ⟨k, hle, hlt, -⟩
    omega
  | succ n ih =>
    have hsplit : (∃ k, i ≤ k ∧ k < i + (n + 1) ∧ fails = some (.block k) ∧
        chunk block_size data k ≠ []) ↔
        (fails = some (.block i) ∧ chunk block_size data i ≠ []) ∨
          ∃ k, i + 1 ≤ k ∧ k < i + 1 + n ∧ fails = some (.block k) ∧
            chunk block_size data k ≠ [] := by
      constructor
      · rintro ⟨k, hle, hlt, h⟩
        rcases hle.eq_or_lt with rfl | hgt
        · exact .inl h
        · exact .inr ⟨k, hgt, by omega, h⟩
      · rintro (h | ⟨k, hle, hlt, h⟩)
        · exact ⟨i, le_rfl, by omega, h⟩
        · exact ⟨k, by omega, by omega, h⟩
    rw [storeBlocks, hsplit]
    dsimp only
    split_ifs with hempty hfail
    · rw [Option.map_eq_none_iff, ih]
      exact (or_iff_right fun h ↦ h.2 hempty).symm
    · exact iff_of_true rfl (.inl ⟨hfail, hempty⟩)
    · rw [Option.map_eq_none_iff, ih]
      exact (or_iff_right fun h ↦ hfail h.1).symm

variable (compress) in
theorem storeBlocks_eq_none {block_size : UInt32} {data : List UInt8} {fails : Option Stage}
    {n : ℕ} (pos : UInt64) : storeBlocks compress block_size data fails n 0 pos = none ↔
      StoreFails block_size data fails n := by
  rw [storeBlocks_eq_none_iff, StoreFails]
  simp only [Nat.zero_le, true_and, Nat.zero_add]

theorem refers_begin_file {sq : Object} (hfiles : sq.files.length ≤ sq.pending_count)
    (hpending : sq.pending_count ≤ sq.pending_sizes.length) :
    sq.begin_file.refers = sq.refers := by
  rw [Object.refers, Object.refers]
  refine List.ext_getElem? fun i ↦ ?_
  rw [List.getElem?_mapIdx, List.getElem?_mapIdx]
  change (sq.files[i]?).map _ = _
  by_cases hi : i < sq.files.length
  · have hlt : i < (sq.pending_sizes.take sq.pending_count).length := by
      rw [List.length_take]
      omega
    have hget : (sq.begin_file.pending_sizes)[i]? = sq.pending_sizes[i]? := by
      rw [Object.begin_file, List.getElem?_append_left hlt, List.getElem?_take_of_lt (by omega)]
    rw [hget]
  · have hnone : sq.files[i]? = none := List.getElem?_eq_none (by omega)
    rw [hnone]
    rfl

theorem refers_listed {sq : Object} (hfiles : sq.pending_count = sq.files.length)
    (hpending : sq.pending_count ≤ sq.pending_sizes.length) (f : Listed) (pos : UInt64) :
    ({ sq.begin_file with
        write_pos := pos
        pending_count := sq.pending_count + 1
        files := sq.files ++ [f] } : Object).refers =
      sq.refers ++ [some ⟨f.name, f.size, sq.dataStart.toUInt32.toUInt64, f.block_list⟩] := by
  have hbegin := refers_begin_file hfiles.ge hpending
  rw [← hbegin, Object.refers, Object.refers, List.mapIdx_append]
  congr 1
  have hlen : (sq.pending_sizes.take sq.pending_count).length = sq.files.length := by
    rw [List.length_take]
    omega
  rw [List.mapIdx_singleton, Nat.zero_add, Object.begin_file]
  dsimp only
  rw [List.getElem?_append_right hlen.le, hlen, Nat.sub_self]
  rfl

/-- The call keeps everything sound and meets the condition, or it does neither. -/
def Session.Settled (compress : List UInt8 → ℕ → Option (List UInt8)) (s : Session) (c : Call) :
    Prop :=
  (∃ t, s.call compress c = some t ∧ t.Sound) ∧ s.Meets c ∨
    (∀ t, s.call compress c = some t → ¬t.InStep) ∧ ¬s.Meets c

theorem Session.Sound.of_eq {t : Session} (hs : s.Sound) (hfiles : t.sq.files = s.sq.files)
    (hsizes : t.sq.pending_sizes = s.sq.pending_sizes)
    (hcount : t.sq.pending_count = s.sq.pending_count) (hlog : t.log = s.log) : t.Sound := by
  refine ⟨⟨?_, ?_⟩, ?_⟩
  · rw [hcount, hfiles]
    exact hs.inStep.1
  · rw [hlog, ← hs.inStep.2, Object.refers, Object.refers, hfiles, hsizes]
  · rw [hcount, hsizes]
    exact hs.pending_le

theorem open_cases (sq : Object) (src : Source) (turns : ℕ) : ∃ sq' : Object,
    sq'.files = sq.files ∧ sq'.pending_sizes = sq.pending_sizes ∧
    sq'.pending_count = sq.pending_count ∧
      ((superblockOf src = none ∧ ∃ ret, sq.open src turns = some (sq', ret)) ∨
        ∃ sup, superblockOf src = some sup ∧ sq.open src turns =
          match Machine.after (openStep src sup) turns (openStart sup) with
          | .done r => some ({ sq' with files := sq.files ++ r.files.map Found.listed }, r.ret)
          | _ => none) := by
  by_cases hsize : (BitVec.ofNat 32 src.file.length).toInt ≤ 0
  · refine ⟨sq, rfl, rfl, rfl, .inl ⟨?_, 1, ?_⟩⟩
    · rw [superblockOf, if_pos hsize]
    · rw [Object.open, if_pos hsize]
  by_cases hmagic : numAt (src.read .super 0 96) 0 4 ≠ 0x73717368
  · refine ⟨sq, rfl, rfl, rfl, .inl ⟨?_, -1, ?_⟩⟩
    · rw [superblockOf, if_neg hsize, if_pos hmagic]
    · rw [Object.open, if_neg hsize, if_pos hmagic]
  refine ⟨{ sq with
    block_size := UInt32.ofNat (numAt (src.read .super 0 96) 12 4)
    block_log := UInt16.ofNat (numAt (src.read .super 0 96) 22 2) }, rfl, rfl, rfl, ?_⟩
  rw [Object.open, if_neg hsize, if_neg hmagic]
  cases hsup : superblockOf src with
  | none => exact .inl ⟨rfl, -1, rfl⟩
  | some sup => exact .inr ⟨sup, rfl, rfl⟩

theorem Session.Sound.open (hs : s.Sound) (src : Source) (turns : ℕ) :
    s.Settled compress (.open src turns) := by
  obtain ⟨sq', hfiles, hsizes, hcount, ⟨hnone, ret, hcall⟩ | ⟨sup, hsup, hcall⟩⟩ :=
    open_cases s.sq src turns
  · refine .inl ⟨⟨⟨sq', s.log⟩, ?_, hs.of_eq hfiles hsizes hcount rfl⟩, fun sup hsup ↦ ?_⟩
    · rw [Session.call, hcall, Option.bind_eq_bind, Option.bind_some]
      dsimp only
      rw [hfiles, Nat.sub_self, List.replicate_zero, List.append_nil]
      rfl
    · rw [hnone] at hsup
      cases hsup
  · have hmeets : s.Meets (.open src turns) ↔
        ∃ r, Machine.after (openStep src sup) turns (openStart sup) = .done r ∧ r.files = [] := by
      refine ⟨fun h ↦ h sup hsup, fun h sup' hsup' ↦ ?_⟩
      obtain rfl := Option.some.inj (hsup.symm.trans hsup')
      exact h
    rw [Session.Settled, hmeets, Session.call, hcall]
    cases hend : Machine.after (openStep src sup) turns (openStart sup) with
    | next t =>
      refine .inr ⟨fun t ht ↦ (nomatch ht), ?_⟩
      rintro ⟨r, hr, -⟩
      cases hr
    | wild =>
      refine .inr ⟨fun t ht ↦ (nomatch ht), ?_⟩
      rintro ⟨r, hr, -⟩
      cases hr
    | done r =>
      by_cases hr : r.files = []
      · refine .inl ⟨⟨_, rfl, hs.of_eq ?_ hsizes hcount ?_⟩, r, rfl, hr⟩
        · change s.sq.files ++ r.files.map Found.listed = _
          rw [hr, List.map_nil, List.append_nil]
        · change s.log ++ List.replicate
            ((s.sq.files ++ r.files.map Found.listed).length - s.sq.files.length) none = _
          rw [hr, List.map_nil, List.append_nil, Nat.sub_self, List.replicate_zero,
            List.append_nil]
      · refine .inr ⟨fun t ht hstep ↦ hr ?_, ?_⟩
        · obtain rfl := Option.some.inj ht
          have hlen := hstep.1
          have hwas := hs.inStep.1
          change sq'.pending_count = (s.sq.files ++ r.files.map Found.listed).length at hlen
          rw [List.length_append, List.length_map] at hlen
          exact List.length_eq_zero_iff.mp (by omega)
        · rintro ⟨r', hr', hnil⟩
          cases hr'
          exact hr hnil

theorem length_begin_file {sq : Object} (h : sq.pending_count ≤ sq.pending_sizes.length) :
    sq.begin_file.pending_sizes.length = sq.pending_count + 1 := by
  rw [Object.begin_file, List.length_append, List.length_take, Nat.min_eq_left h]
  rfl

theorem Session.Sound.begin_file (hs : s.Sound) : Session.Sound ⟨s.sq.begin_file, s.log⟩ := by
  refine ⟨⟨hs.inStep.1, ?_⟩, ?_⟩
  · exact (refers_begin_file hs.inStep.1.ge hs.pending_le).trans hs.inStep.2
  · exact (Nat.le_succ _).trans_eq (length_begin_file hs.pending_le).symm

theorem call_add_file_of_fail {adding_path file_name : Text} {data : List UInt8}
    {fails : Option Stage} {sq : Object}
    (h : s.sq.add_file compress (stored_name adding_path file_name) data fails = some (sq, -1)) :
    s.call compress (.add_file adding_path file_name data fails) = some ⟨sq, s.log⟩ := by
  rw [Session.call]
  dsimp only
  rw [h]
  rfl

theorem add_file_stored {sq : Object} (name : Text) {data : List UInt8} {fails : Option Stage}
    {r : List UInt32 × UInt64} (hfile : fails ≠ some .file)
    (hsuper : ¬(sq.add_flag = false ∧ fails = some .superblock)) (hzero : sq.block_size ≠ 0)
    (hsizes : fails ≠ some .pending_sizes)
    (hroom : ¬(fails = some .cmpr ∨ fails = some .block_list))
    (hst : storeBlocks compress sq.block_size data fails (blockNum data.length sq.block_size).toNat
      0 sq.dataStart = some r) :
    sq.add_file compress name data fails =
      if fails = some .files ∨ fails = some .name then
        some ({ sq.begin_file with write_pos := r.2, pending_count := sq.pending_count + 1 }, -1)
      else
        some ({ sq.begin_file with
          write_pos := r.2
          pending_count := sq.pending_count + 1
          files := sq.files ++ [⟨name, UInt64.ofNat data.length, UInt32.ofNat sq.pending_count, 0,
            r.1, blockNum data.length sq.block_size, length_storeBlocks compress hst⟩] }, 1) := by
  rw [Object.add_file, if_neg hfile, if_neg hsuper, if_neg hzero, if_neg hsizes, if_neg hroom]
  split
  · next h =>
      rw [hst] at h
      cases h
  · next block_list pos h =>
      obtain rfl := Option.some.inj (hst.symm.trans h)
      rfl

theorem toNat_toUInt32_toUInt64 (n : UInt64) : n.toUInt32.toUInt64 = n ↔ n.toNat < 2 ^ 32 := by
  rw [← UInt64.toNat_inj, UInt32.toNat_toUInt64, UInt64.toNat_toUInt32]
  omega

theorem Session.Sound.add_file (hs : s.Sound) (adding_path file_name : Text) (data : List UInt8)
    (fails : Option Stage) : s.Settled compress (.add_file adding_path file_name data fails) := by
  have hfail sq h := @call_add_file_of_fail compress s adding_path file_name data fails sq h
  rw [Object.add_file] at hfail
  by_cases hfile : fails = some .file
  · rw [if_pos hfile] at hfail
    exact .inl ⟨⟨s, hfail _ rfl, hs⟩, .inl hfile⟩
  by_cases hsuper : s.sq.add_flag = false ∧ fails = some .superblock
  · rw [if_neg hfile, if_pos hsuper] at hfail
    exact .inl ⟨⟨s, hfail _ rfl, hs⟩, .inr (.inl hsuper)⟩
  by_cases hzero : s.sq.block_size = 0
  · refine .inr ⟨fun t ht ↦ ?_, fun hmeets ↦ ?_⟩
    · rw [Session.call, Object.add_file, if_neg hfile, if_neg hsuper, if_pos hzero] at ht
      cases ht
    · exact (hmeets.resolve_left hfile).elim hsuper fun h ↦ h.1 hzero
  have hmeets : s.Meets (.add_file adding_path file_name data fails) ↔
      (fails = some .pending_sizes ∨ fails = some .cmpr ∨ fails = some .block_list ∨
        StoreFails s.sq.block_size data fails (blockNum data.length s.sq.block_size).toNat ∨
        fails ≠ some .files ∧ fails ≠ some .name ∧ s.sq.dataStart.toNat < 2 ^ 32) := by
    rw [Session.Meets, or_iff_right hfile, or_iff_right hsuper, and_iff_right hzero]
  rw [Session.Settled, hmeets]
  rw [if_neg hfile, if_neg hsuper, if_neg hzero] at hfail
  by_cases hsizes : fails = some .pending_sizes
  · rw [if_pos hsizes] at hfail
    exact .inl ⟨⟨_, hfail _ rfl, hs.of_eq rfl rfl rfl rfl⟩, .inl hsizes⟩
  by_cases hroom : fails = some .cmpr ∨ fails = some .block_list
  · rw [if_neg hsizes, if_pos hroom] at hfail
    exact .inl ⟨⟨_, hfail _ rfl, hs.begin_file⟩, .inr (hroom.imp_right .inl)⟩
  rw [if_neg hsizes, if_neg hroom] at hfail
  rw [or_iff_right hsizes, or_iff_right fun h ↦ hroom (.inl h),
    or_iff_right fun h ↦ hroom (.inr h), ← storeBlocks_eq_none compress s.sq.dataStart]
  cases hst : storeBlocks compress s.sq.block_size data fails
      (blockNum data.length s.sq.block_size).toNat 0 s.sq.dataStart with
  | none =>
    refine .inl ⟨⟨_, hfail s.sq.begin_file ?_, hs.begin_file⟩, .inl rfl⟩
    split
    · rfl
    · next h =>
        rw [hst] at h
        cases h
  | some r =>
    have hcode := add_file_stored (stored_name adding_path file_name) hfile hsuper hzero hsizes
      hroom hst
    rw [or_iff_right (Option.some_ne_none r)]
    by_cases hentry : fails = some .files ∨ fails = some .name
    · rw [if_pos hentry] at hcode
      refine .inr ⟨fun t ht hstep ↦ ?_, fun h ↦ hentry.elim h.1 h.2.1⟩
      obtain rfl := Option.some.inj ((call_add_file_of_fail hcode).symm.trans ht)
      have hcount : s.sq.pending_count + 1 = s.sq.files.length := hstep.1
      have hwas := hs.inStep.1
      omega
    · rw [if_neg hentry] at hcode
      rw [not_or] at hentry
      rw [and_iff_right hentry.1, and_iff_right hentry.2, ← toNat_toUInt32_toUInt64]
      have hcall : s.call compress (.add_file adding_path file_name data fails) = some
          ⟨{ s.sq.begin_file with
              write_pos := r.2
              pending_count := s.sq.pending_count + 1
              files := s.sq.files ++ [⟨stored_name adding_path file_name,
                UInt64.ofNat data.length, UInt32.ofNat s.sq.pending_count, 0, r.1,
                blockNum data.length s.sq.block_size, length_storeBlocks compress hst⟩] },
            s.log ++ [some ⟨stored_name adding_path file_name, UInt64.ofNat data.length,
              s.sq.dataStart, r.1⟩]⟩ := by
        rw [Session.call]
        dsimp only
        rw [hcode, hst]
        rfl
      have hrefers := refers_listed hs.inStep.1 hs.pending_le
        ⟨stored_name adding_path file_name, UInt64.ofNat data.length,
          UInt32.ofNat s.sq.pending_count, 0, r.1, blockNum data.length s.sq.block_size,
          length_storeBlocks compress hst⟩ r.2
      rw [hs.inStep.2] at hrefers
      rw [hcall]
      by_cases hstart : s.sq.dataStart.toUInt32.toUInt64 = s.sq.dataStart
      · rw [hstart] at hrefers
        refine .inl ⟨⟨_, rfl, ⟨?_, hrefers⟩, (length_begin_file hs.pending_le).ge⟩, hstart⟩
        change s.sq.pending_count + 1 = (s.sq.files ++ [_]).length
        rw [List.length_append, hs.inStep.1]
        rfl
      · refine .inr ⟨fun t ht hstep ↦ hstart ?_, hstart⟩
        obtain rfl := Option.some.inj ht
        have hlog := List.append_cancel_left (hrefers.symm.trans hstep.2)
        simpa using hlog

theorem Session.Sound.save (hs : s.Sound) (fails : Option ℕ) :
    s.Settled compress (.save fails) := by
  have hread : s.sq.archive.writesInodes = true → s.sq.files.length ≤ s.sq.pending_sizes.length :=
    fun _ ↦ hs.inStep.1.ge.trans hs.pending_le
  have hbounds : StaysInBounds compress s.sq.archive ↔ s.Meets (.save fails) := by
    by_cases hflag : s.sq.add_flag = true
    · rw [save_fits_iff compress hflag]
      exact ⟨fun h _ ↦ h, fun h ↦ h hflag⟩
    · exact iff_of_true (save_fits_of_not_flag compress (Bool.not_eq_true _ ▸ hflag))
        fun h ↦ absurd h hflag
  rw [Session.Settled, ← hbounds, Session.call, Object.save]
  by_cases hfits : StaysInBounds compress s.sq.archive
  · refine .inl ⟨?_, hfits⟩
    rw [if_pos ⟨hfits, hread⟩]
    dsimp only
    split
    · exact ⟨_, rfl, hs.of_eq rfl rfl rfl rfl⟩
    · exact ⟨_, rfl, hs.of_eq rfl rfl rfl rfl⟩
  · refine .inr ⟨fun t ht ↦ ?_, hfits⟩
    rw [if_neg fun h ↦ hfits h.1] at ht
    cases ht

variable (compress) in
theorem Session.Sound.settled (hs : s.Sound) (c : Call) : s.Settled compress c := by
  cases c with
  | «open» src turns => exact hs.open src turns
  | add_file adding_path file_name data fails =>
    exact hs.add_file adding_path file_name data fails
  | save fails => exact hs.save fails

theorem sound_start : start.Sound := ⟨⟨rfl, rfl⟩, Nat.le_refl _⟩

end InStep

end Libobject.Squashfs
