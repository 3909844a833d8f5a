import Libobject.Archive.SquashfsRead
import Libobject.Lib.Digits
import Mathlib.Data.Prod.Lex
import Mathlib.Logic.Relation

/-!
# When an image is opened without a wild step

The code looks at the bytes of a directory before it reads them, but not at what the bytes say of
other places: the room for a metadata block, an inode, the data of a directory, a long name. And it
follows a name without letters from the root without looking where it leads.
-/

namespace Libobject.Squashfs

open Scan Machine

section Inside

/-- The file inode at `off`, with its blocks. -/
def inodeBlocks (inodes : List UInt8) (block_size : UInt32) (off : ℕ) : ℕ :=
  blockCount block_size (numAt inodes (off + 28) 4) (numAt inodes (off + 20) 4)

/-- An inode is in the table with all that is read of it. -/
def InodeInside (T : Tables) (block_size : UInt32) (block : UInt32) (offset : UInt16) : Prop :=
  let off := inodeOff block offset
  let type := numAt T.inodes off 2
  off + 16 ≤ T.inodes.length ∧
    (isFile type → off + 32 ≤ T.inodes.length ∧ block_size ≠ 0 ∧
      off + 32 + 4 * inodeBlocks T.inodes block_size off ≤ T.inodes.length) ∧
    (isDir type → off + 28 ≤ T.inodes.length)

/-- A metadata block that is stored as it is has room in the buffer. -/
def BlockInside (src : Source) (l : Loading) : Prop :=
  let h := leNat (src.read l.region l.pos.toNat 2)
  let csize := h % 0x8000
  l.pos + 2 ≤ l.stop → src.seek l.pos = true → csize ≠ 0 →
    l.pos + 2 + UInt64.ofNat csize ≤ l.stop → h.testBit 15 = true →
      l.buf.length + csize ≤ l.grown

/-- A header of entries is in the table. -/
def HeaderInside (T : Tables) (f : Frame) : Prop :=
  f.p + 12 ≤ f.stop → f.p + 12 ≤ T.dirs.length ∧
    ((numAt T.dirs f.p 4).testBit 15 = true → f.p + 24 ≤ T.dirs.length)

/-- The size of the entry at `p`. -/
def entrySize (T : Tables) (p : ℕ) : ℕ := numAt T.dirs (p + 6) 2

def entryAt (T : Tables) (p : ℕ) : Entry :=
  ⟨UInt16.ofNat (numAt T.dirs p 2), numAt T.dirs (p + 4) 2,
    cString (field T.dirs (p + 8) (entrySize T p + 1))⟩

/-- An entry is in the table and its name in the buffer for it, the inode that it leads to is in its
table, and if it has no path it leads to no directory that the walk is in. -/
def EntryInside (T : Tables) (block_size : UInt32) (f : Frame) (rest : List Frame) : Prop :=
  let e := entryAt T f.p
  let size := entrySize T f.p
  f.p + 8 ≤ f.stop → f.p + 8 ≤ T.dirs.length ∧
    (f.p + 9 + size ≤ f.stop → (f.p + 9 + size ≤ T.dirs.length ∧ size ≤ 254) ∧
      (f.path.length + e.name.length < 1022 →
        (isFile e.type → InodeInside T block_size f.start_block e.offset) ∧
        (isDir e.type → InodeInside T block_size (e.dstart f >>> 16) (e.dstart f).toUInt16 ∧
          (joinPath f.path e.name = [] → ∀ g ∈ f :: rest, g.dstart ≠ e.dstart f))))

/-- What the code does not look at before it makes a step. -/
def StepInside (src : Source) (sup : Super) : State → Prop
  | .load l _ => BlockInside src l
  | .enter T =>
    InodeInside T sup.block_size (sup.root_inode.toUInt32 >>> 16)
      sup.root_inode.toUInt32.toUInt16
  | .walk _ [] _ => True
  | .walk T (f :: rest) _ =>
    if f.left = 0 then HeaderInside T f else EntryInside T sup.block_size f rest

end Inside

section Wild

/-- The result of a function that did something undefined. -/
def Wild {α : Type} (r : Except Fault α) : Prop := r = .error .wild

variable {α β : Type} {tbl : List UInt8} {off w : ℕ}

@[simp] theorem wild_ok (a : α) : Wild (.ok a : Except Fault α) ↔ False :=
  iff_of_false (fun h ↦ nomatch h) id

@[simp] theorem wild_pure (a : α) : Wild (pure a : Except Fault α) ↔ False := wild_ok a

@[simp] theorem wild_error (e : Fault) : Wild (.error e : Except Fault α) ↔ e = .wild :=
  ⟨fun h ↦ Except.error.inj h, fun h ↦ congrArg _ h⟩

@[simp] theorem wild_map (f : α → β) (r : Except Fault α) : Wild (r.map f) ↔ Wild r := by
  cases r with
  | ok a => exact iff_of_false (fun h ↦ nomatch h) (fun h ↦ nomatch h)
  | error e => exact ⟨fun h ↦ congrArg _ (Except.error.inj h),
      fun h ↦ congrArg _ (Except.error.inj h)⟩

theorem word_eq (h : off + w ≤ tbl.length) : word tbl off w = .ok (numAt tbl off w) := by
  rw [word, Buffer.get, if_pos h]
  rfl

theorem word_eq_wild (h : ¬off + w ≤ tbl.length) : word tbl off w = .error .wild := by
  rw [word, Buffer.get, if_neg h]

@[simp] theorem wild_word_bind (f : ℕ → Except Fault α) :
    Wild (word tbl off w >>= f) ↔ (off + w ≤ tbl.length → Wild (f (numAt tbl off w))) := by
  by_cases h : off + w ≤ tbl.length
  · rw [word_eq h]
    exact ⟨fun hf _ ↦ hf, fun hf ↦ hf h⟩
  · rw [word_eq_wild h]
    exact iff_of_true rfl fun hle ↦ absurd hle h

theorem wild_words (off n : ℕ) (hoff : off ≤ tbl.length) :
    Wild (words tbl off n) ↔ ¬off + 4 * n ≤ tbl.length := by
  induction n generalizing off with
  | zero =>
    rw [words, wild_ok, Nat.mul_zero, Nat.add_zero]
    exact iff_of_false id (not_not.mpr hoff)
  | succ n ih =>
    rw [words, wild_word_bind]
    by_cases hw : off + 4 ≤ tbl.length
    · have hrest : Wild (do let ws ← words tbl (off + 4) n; return numAt tbl off 4 :: ws) ↔
          Wild (words tbl (off + 4) n) := wild_map _ _
      rw [forall_prop_of_true hw, hrest, ih (off + 4) hw]
      omega
    · exact iff_of_true (fun h ↦ absurd h hw) (by omega)

end Wild

section Inodes

variable (T : Tables) (block_size : UInt32)

theorem wild_parse_file_inode (off type : ℕ) :
    Wild (parse_file_inode T block_size off type) ↔
      ¬(off + 32 ≤ T.inodes.length ∧ block_size ≠ 0 ∧
        off + 32 + 4 * inodeBlocks T.inodes block_size off ≤ T.inodes.length) := by
  rw [parse_file_inode]
  simp only [wild_word_bind]
  by_cases hroom : off + 32 ≤ T.inodes.length
  · rw [forall_prop_of_true (show off + 16 + 4 ≤ T.inodes.length by omega),
      forall_prop_of_true (show off + 20 + 4 ≤ T.inodes.length by omega),
      forall_prop_of_true (show off + 24 + 4 ≤ T.inodes.length by omega),
      forall_prop_of_true (show off + 28 + 4 ≤ T.inodes.length by omega), and_iff_right hroom]
    by_cases hsize : block_size = 0
    · rw [if_pos hsize, wild_error]
      exact iff_of_true rfl fun h ↦ h.1 hsize
    · rw [if_neg hsize, wild_map, wild_words _ _ hroom, and_iff_right hsize]
      rfl
  · exact iff_of_true (fun _ _ _ h ↦ absurd h hroom) fun h ↦ hroom h.1

theorem wild_parse_dir_inode (off type : ℕ) :
    Wild (parse_dir_inode T off type) ↔ ¬off + 28 ≤ T.inodes.length := by
  rw [parse_dir_inode]
  simp only [wild_word_bind, wild_pure]
  constructor
  · intro h hroom
    exact h (by omega) (by omega) (by omega)
  · intro h _ _ hlast
    exact h (by omega)

theorem not_isDir_of_isFile {type : ℕ} (h : isFile type) : ¬isDir type := by
  simp only [isFile, isDir, Bool.or_eq_true, decide_eq_true_eq] at h ⊢
  omega

theorem wild_parse_inode (block : UInt32) (offset : UInt16) :
    Wild (parse_inode T block_size block offset) ↔ ¬InodeInside T block_size block offset := by
  rw [InodeInside, parse_inode]
  generalize inodeOff block offset = off
  by_cases hhead : off + 16 ≤ T.inodes.length
  · rw [if_neg (Nat.not_lt.mpr hhead), and_iff_right hhead, wild_word_bind,
      forall_prop_of_true (show off + 2 ≤ T.inodes.length by omega)]
    generalize numAt T.inodes off 2 = type
    by_cases hfile : isFile type
    · rw [if_pos hfile, wild_parse_file_inode, forall_prop_of_true hfile,
        and_iff_left fun hdir ↦ absurd hdir (not_isDir_of_isFile hfile)]
    · rw [if_neg hfile, and_iff_right fun h ↦ absurd h hfile]
      by_cases hdir : isDir type
      · rw [if_pos hdir, wild_parse_dir_inode, forall_prop_of_true hdir]
      · rw [if_neg hdir, wild_pure]
        exact iff_of_false id (not_not.mpr fun h ↦ absurd h hdir)
  · rw [if_pos (Nat.lt_of_not_le hhead), wild_error]
    exact iff_of_true rfl fun h ↦ hhead h.1

theorem wild_walk_dir (path : Text) (dstart : UInt32) :
    Wild (walk_dir T block_size path dstart) ↔
      ¬InodeInside T block_size (dstart >>> 16) dstart.toUInt16 := by
  rw [walk_dir, ← wild_parse_inode]
  cases parse_inode T block_size (dstart >>> 16) dstart.toUInt16 with
  | error e => exact (wild_error (α := Frame) e).trans (wild_error e).symm
  | ok ino =>
    refine iff_of_false (fun h ↦ ?_) (fun h ↦ nomatch h)
    change Wild (if _ then _ else _) at h
    split at h
    · exact nomatch h
    · exact nomatch h

theorem wild_dir_header (f : Frame) (hroom : f.p + 12 ≤ f.stop) :
    Wild (dir_header T f) ↔ ¬HeaderInside T f := by
  rw [dir_header, HeaderInside, forall_prop_of_true hroom]
  simp only [wild_word_bind]
  by_cases hhead : f.p + 12 ≤ T.dirs.length
  · rw [forall_prop_of_true (show f.p + 4 ≤ T.dirs.length by omega),
      forall_prop_of_true (show f.p + 4 + 4 ≤ T.dirs.length by omega),
      forall_prop_of_true (show f.p + 8 + 4 ≤ T.dirs.length by omega), and_iff_right hhead]
    by_cases hindex : (numAt T.dirs f.p 4).testBit 15 = true
    · rw [if_pos hindex, wild_word_bind, forall_prop_of_true hindex]
      constructor
      · intro h hlen
        have hwild := h (by omega)
        split at hwild
        · exact nomatch hwild
        · exact nomatch hwild
      · intro h hlen
        exact absurd hlen h
    · rw [if_neg hindex, wild_pure]
      exact iff_of_false id (not_not.mpr fun h ↦ absurd h hindex)
  · exact iff_of_true (fun _ _ h ↦ absurd h hhead) fun h ↦ hhead h.1

theorem length_joinPath (path name : Text) :
    (joinPath path name).length ≤ path.length + 1 + name.length := by
  rw [joinPath]
  split
  · omega
  · rw [List.length_append, List.length_cons]
    omega

/-- What an entry with a path that is short enough says of inodes. -/
def EntryLeads (f : Frame) (e : Entry) : Prop :=
  (isFile e.type → InodeInside T block_size f.start_block e.offset) ∧
    (isDir e.type → InodeInside T block_size (e.dstart f >>> 16) (e.dstart f).toUInt16)

theorem wild_enter_entry (f : Frame) (e : Entry) (size : ℕ) :
    Wild (enter_entry T block_size f e size) ↔
      ¬(f.path.length + e.name.length < 1022 → EntryLeads T block_size f e) := by
  rw [enter_entry, EntryLeads]
  have hlength := length_joinPath f.path e.name
  by_cases hlong : f.path.length + 1 + e.name.length + 1 ≥ 1024
  · rw [if_pos hlong, wild_error]
    exact iff_of_false (fun h ↦ nomatch h) (not_not.mpr fun h ↦ absurd h (by omega))
  · rw [if_neg hlong, if_neg (by omega),
      forall_prop_of_true (show f.path.length + e.name.length < 1022 by omega)]
    by_cases hfile : isFile e.type
    · rw [if_pos hfile, wild_map, wild_parse_inode, forall_prop_of_true hfile,
        and_iff_left fun hdir ↦ absurd hdir (not_isDir_of_isFile hfile)]
    · rw [if_neg hfile, and_iff_right fun h ↦ absurd h hfile]
      by_cases hdir : isDir e.type
      · rw [if_pos hdir, wild_map, wild_walk_dir, forall_prop_of_true hdir]
      · rw [if_neg hdir, wild_ok]
        exact iff_of_false id (not_not.mpr fun h ↦ absurd h hdir)

theorem read_entry_eq {p stop : ℕ} (hstop : p + 8 ≤ stop) (htable : p + 8 ≤ T.dirs.length) :
    read_entry T p stop =
      if stop < p + 9 + entrySize T p then .error .error
      else if p + 9 + entrySize T p ≤ T.dirs.length ∧ entrySize T p ≤ 254 then
        .ok (entryAt T p, entrySize T p)
      else .error .wild := by
  have hsize : numAt T.dirs (p + 6) 2 = entrySize T p := rfl
  rw [read_entry, if_neg (Nat.not_lt.mpr hstop), word_eq (by omega), word_eq (by omega),
    word_eq (by omega), word_eq (by omega), hsize]
  change (if p + 8 + (entrySize T p + 1) > stop then _ else _) = _
  refine if_congr (by omega) rfl ?_
  by_cases hname : p + 9 + entrySize T p ≤ T.dirs.length
  · rw [Buffer.get, if_pos (by omega)]
    change (if entrySize T p + 2 > 256 then _ else _) = _
    by_cases hbuf : entrySize T p ≤ 254
    · rw [if_neg (by omega), if_pos ⟨hname, hbuf⟩]
      rfl
    · rw [if_pos (by omega), if_neg fun h ↦ hbuf h.2]
  · rw [Buffer.get, if_neg (by omega), if_neg fun h ↦ hname h.1]

theorem wild_read_entry {p stop : ℕ} (hstop : p + 8 ≤ stop) (htable : ¬p + 8 ≤ T.dirs.length) :
    Wild (read_entry T p stop) := by
  rw [read_entry, if_neg (Nat.not_lt.mpr hstop)]
  simp only [wild_word_bind]
  intro _ _ _ h
  exact absurd (by omega) htable

theorem dir_entry_eq_of_ok {f : Frame} {e : Entry} {size : ℕ}
    (h : read_entry T f.p f.stop = .ok (e, size)) :
    dir_entry T block_size f = enter_entry T block_size f e size := by
  rw [dir_entry, h]
  rfl

theorem dir_entry_eq_of_error {f : Frame} {fault : Fault}
    (h : read_entry T f.p f.stop = .error fault) : dir_entry T block_size f = .error fault := by
  rw [dir_entry, h]
  rfl

theorem wild_dir_entry (f : Frame) :
    Wild (dir_entry T block_size f) ↔
      ¬(f.p + 8 ≤ f.stop → f.p + 8 ≤ T.dirs.length ∧
        (f.p + 9 + entrySize T f.p ≤ f.stop →
          (f.p + 9 + entrySize T f.p ≤ T.dirs.length ∧ entrySize T f.p ≤ 254) ∧
            (f.path.length + (entryAt T f.p).name.length < 1022 →
              EntryLeads T block_size f (entryAt T f.p)))) := by
  by_cases hstop : f.p + 8 ≤ f.stop
  · rw [forall_prop_of_true hstop]
    by_cases htable : f.p + 8 ≤ T.dirs.length
    · rw [and_iff_right htable]
      have hread := read_entry_eq T hstop htable
      by_cases hend : f.p + 9 + entrySize T f.p ≤ f.stop
      · rw [if_neg (Nat.not_lt.mpr hend)] at hread
        rw [forall_prop_of_true hend]
        by_cases hname : f.p + 9 + entrySize T f.p ≤ T.dirs.length ∧ entrySize T f.p ≤ 254
        · rw [if_pos hname] at hread
          rw [dir_entry_eq_of_ok T block_size hread, wild_enter_entry, and_iff_right hname]
        · rw [if_neg hname] at hread
          rw [dir_entry_eq_of_error T block_size hread, wild_error]
          exact iff_of_true rfl fun h ↦ hname h.1
      · rw [if_pos (Nat.lt_of_not_le hend)] at hread
        rw [dir_entry_eq_of_error T block_size hread, wild_error]
        exact iff_of_false (fun h ↦ nomatch h) (not_not.mpr fun h ↦ absurd h hend)
    · rw [dir_entry_eq_of_error T block_size (wild_read_entry T hstop htable), wild_error]
      exact iff_of_true rfl fun h ↦ htable h.1
  · have hread : read_entry T f.p f.stop = .error .error := by
      rw [read_entry, if_pos (Nat.lt_of_not_le hstop)]
    rw [dir_entry_eq_of_error T block_size hread, wild_error]
    exact iff_of_false (fun h ↦ nomatch h) (not_not.mpr fun h ↦ absurd h hstop)

theorem dir_entry_ok {f : Frame} {r : List Frame × List Found}
    (h : dir_entry T block_size f = .ok r) :
    f.p + 9 + entrySize T f.p ≤ f.stop ∧
      enter_entry T block_size f (entryAt T f.p) (entrySize T f.p) = .ok r := by
  have hnot : ¬Wild (dir_entry T block_size f) := fun hwild ↦ nomatch h.symm.trans hwild
  have hstop : f.p + 8 ≤ f.stop := by
    by_contra hstop
    have hread : read_entry T f.p f.stop = .error .error := by
      rw [read_entry, if_pos (Nat.lt_of_not_le hstop)]
    rw [dir_entry_eq_of_error T block_size hread] at h
    cases h
  rw [wild_dir_entry, not_not] at hnot
  obtain ⟨htable, hinside⟩ := hnot hstop
  have hread := read_entry_eq T hstop htable
  by_cases hend : f.p + 9 + entrySize T f.p ≤ f.stop
  · rw [if_neg (Nat.not_lt.mpr hend), if_pos (hinside hend).1] at hread
    exact ⟨hend, (dir_entry_eq_of_ok T block_size hread).symm.trans h⟩
  · rw [if_pos (Nat.lt_of_not_le hend)] at hread
    rw [dir_entry_eq_of_error T block_size hread] at h
    cases h

end Inodes

section Load

variable (src : Source) {l l' : Loading}

/-- The buffer is empty or has room for sixteen blocks, and what was read is in it. -/
def Loading.Sound (l : Loading) : Prop := l.buf.length ≤ l.cap ∧ (l.cap = 0 ∨ 131072 ≤ l.cap)

theorem Loading.Sound.room (h : l.Sound) : l.buf.length + 8192 ≤ l.grown ∧ 131072 ≤ l.grown := by
  obtain ⟨hlen, hcap⟩ := h
  rw [Loading.grown]
  split
  · split
    · omega
    · omega
  · omega

theorem wild_put (pos : UInt64) (bytes : List UInt8) :
    Wild (l.put pos bytes) ↔ ¬l.buf.length + bytes.length ≤ l.grown := by
  rw [Loading.put]
  split
  · exact iff_of_true rfl (by omega)
  · exact iff_of_false (fun h ↦ nomatch h) (by omega)

theorem put_ok {pos : UInt64} {bytes : List UInt8} (h : l.put pos bytes = .ok (some l'))
    (hl : l.Sound) : l'.Sound ∧ l'.region = l.region ∧ l'.stop = l.stop ∧ l'.pos = pos := by
  rw [Loading.put] at h
  split at h
  · cases h
  · next hroom =>
      obtain rfl := Option.some.inj (Except.ok.inj h)
      refine ⟨⟨?_, .inr hl.room.2⟩, rfl, rfl, rfl⟩
      rw [List.length_append]
      exact Nat.le_of_not_lt hroom

theorem length_read (region : Region) (pos n : ℕ) : (src.read region pos n).length = n := by
  rw [Source.read, List.length_map, List.length_range]

theorem wild_load (hl : l.Sound) : Wild (load_metadata_block src l) ↔ ¬BlockInside src l := by
  rw [load_metadata_block, BlockInside]
  by_cases hpos : l.pos + 2 ≤ l.stop
  · rw [if_pos hpos, forall_prop_of_true hpos]
    by_cases hseek : src.seek l.pos = true
    · rw [if_pos hseek, forall_prop_of_true hseek]
      generalize leNat (src.read l.region l.pos.toNat 2) = h
      dsimp only
      by_cases hzero : h % 0x8000 = 0
      · rw [if_pos hzero, wild_ok]
        exact iff_of_false id (not_not.mpr fun hne ↦ absurd hzero hne)
      · rw [if_neg hzero, forall_prop_of_true hzero]
        by_cases hend : l.pos + 2 + UInt64.ofNat (h % 0x8000) > l.stop
        · rw [if_pos hend, wild_error]
          refine iff_of_false (fun h ↦ nomatch h) (not_not.mpr fun hle ↦ ?_)
          exact absurd hle (UInt64.not_le.mpr hend)
        · rw [if_neg hend, forall_prop_of_true (UInt64.not_lt.mp hend)]
          by_cases hraw : h.testBit 15 = true
          · rw [if_pos hraw, wild_put, length_read, forall_prop_of_true hraw]
          · rw [if_neg hraw]
            refine iff_of_false ?_ (not_not.mpr fun h ↦ absurd h hraw)
            split
            · exact fun h ↦ nomatch (wild_error (α := Option Loading) .error).mp h
            · next out hout =>
                rw [wild_put, not_not]
                have hlen := src.length_uncompress _ out hout
                have hroom := hl.room.1
                omega
    · rw [if_neg hseek, wild_error]
      exact iff_of_false (fun h ↦ nomatch h) (not_not.mpr fun h ↦ absurd h hseek)
  · rw [if_neg hpos, wild_ok]
    exact iff_of_false id (not_not.mpr fun h ↦ absurd h hpos)

theorem load_ok (h : load_metadata_block src l = .ok (some l')) (hl : l.Sound) :
    l'.Sound ∧ l'.region = l.region ∧
      l'.stop.toNat - l'.pos.toNat < l.stop.toNat - l.pos.toNat := by
  rw [load_metadata_block] at h
  split at h
  · next hpos =>
      split at h
      · next hseek =>
          dsimp only at h
          generalize leNat (src.read l.region l.pos.toNat 2) = hd at h
          split at h
          · cases h
          · next hzero =>
              split at h
              · cases h
              · next hend =>
                  have hbound : l.pos.toNat < 2 ^ 63 := by
                    rw [Source.seek, Bool.and_eq_true, decide_eq_true_eq] at hseek
                    exact hseek.1
                  have hnew : (l.pos + 2 + UInt64.ofNat (hd % 0x8000)).toNat =
                      l.pos.toNat + 2 + hd % 0x8000 := by
                    have hmod : hd % 0x8000 < 0x8000 := Nat.mod_lt _ (by decide)
                    rw [UInt64.toNat_add, UInt64.toNat_add, UInt64.toNat_ofNat']
                    change ((l.pos.toNat + 2) % 2 ^ 64 + hd % 0x8000 % 2 ^ 64) % 2 ^ 64 = _
                    omega
                  have hle := UInt64.le_iff_toNat_le.mp (UInt64.not_lt.mp hend)
                  rw [hnew] at hle
                  have hstep : ∀ bytes, l.put (l.pos + 2 + UInt64.ofNat (hd % 0x8000)) bytes =
                      .ok (some l') → l'.Sound ∧ l'.region = l.region ∧
                        l'.stop.toNat - l'.pos.toNat < l.stop.toNat - l.pos.toNat := by
                    intro bytes hput
                    obtain ⟨hsound, hregion, hstop, hpos'⟩ := put_ok hput hl
                    refine ⟨hsound, hregion, ?_⟩
                    rw [hstop, hpos', hnew]
                    omega
                  split at h
                  · exact hstep _ h
                  · split at h
                    · cases h
                    · exact hstep _ h
      · cases h
  · cases h

end Load

section Walk

variable (T : Tables) (block_size : UInt32) {f sub : Frame}

/-- What is left of a directory's data. -/
def Frame.rem (f : Frame) : ℕ := f.stop - f.p

theorem ok_bind {α β : Type} {r : Except Fault α} {next : α → Except Fault β} {b : β}
    (h : (r >>= next) = .ok b) : ∃ a, r = .ok a ∧ next a = .ok b := by
  cases r with
  | error e => cases h
  | ok a => exact ⟨a, rfl, h⟩

theorem word_ok {tbl : List UInt8} {off w n : ℕ} (h : word tbl off w = .ok n) : n < 256 ^ w := by
  rw [word, Buffer.get] at h
  split at h
  · next bs hget =>
      split at hget
      · next hroom =>
          obtain rfl := Option.some.inj hget
          obtain rfl := Except.ok.inj h
          have hlt := leNat_lt ((tbl.drop off).take w)
          rwa [List.length_take_of_le (by rw [List.length_drop]; omega)] at hlt
      · cases hget
  · cases h

theorem dir_file_size_lt {block : UInt32} {offset : UInt16} {ino : Inode}
    (h : parse_inode T block_size block offset = .ok ino) : ino.dir_file_size < 65536 := by
  rw [parse_inode] at h
  split at h
  · cases h
  · obtain ⟨type, -, h⟩ := ok_bind h
    split at h
    · obtain ⟨_, -, h⟩ := ok_bind h
      obtain ⟨_, -, h⟩ := ok_bind h
      obtain ⟨_, -, h⟩ := ok_bind h
      obtain ⟨_, -, h⟩ := ok_bind h
      split at h
      · cases h
      · obtain ⟨_, -, h⟩ := ok_bind h
        obtain rfl := Except.ok.inj h
        exact Nat.zero_lt_succ _
    · split at h
      · obtain ⟨_, -, h⟩ := ok_bind h
        obtain ⟨size, hsize, h⟩ := ok_bind h
        obtain ⟨_, -, h⟩ := ok_bind h
        obtain rfl := Except.ok.inj h
        exact word_ok hsize
      · obtain rfl := Except.ok.inj h
        exact Nat.zero_lt_succ _

theorem walk_dir_ok {path : Text} {dstart : UInt32}
    (h : walk_dir T block_size path dstart = .ok sub) :
    sub.path = path ∧ sub.dstart = dstart ∧ sub.rem < 65536 := by
  rw [walk_dir] at h
  obtain ⟨ino, hino, h⟩ := ok_bind h
  split at h
  · cases h
  · obtain rfl := Except.ok.inj h
    refine ⟨rfl, rfl, ?_⟩
    have hsize := dir_file_size_lt T block_size hino
    change ino.dir_offset + (ino.dir_file_size - 3) - ino.dir_offset < 65536
    omega

/-- A frame further on in the same directory. -/
def Frame.Ahead (g f : Frame) : Prop := g.path = f.path ∧ g.dstart = f.dstart ∧ g.rem < f.rem

theorem dir_header_ok {g : Frame} (h : dir_header T f = .ok g) (hroom : f.p + 12 ≤ f.stop) :
    g.Ahead f := by
  rw [dir_header] at h
  obtain ⟨_, -, h⟩ := ok_bind h
  obtain ⟨_, -, h⟩ := ok_bind h
  obtain ⟨_, -, h⟩ := ok_bind h
  dsimp only at h
  split at h
  · obtain ⟨isize, -, h⟩ := ok_bind h
    split at h
    · cases h
    · obtain rfl := Except.ok.inj h
      refine ⟨rfl, rfl, ?_⟩
      change f.stop - (f.p + 12 + (12 + isize + 1)) < f.stop - f.p
      omega
  · obtain rfl := Except.ok.inj h
    refine ⟨rfl, rfl, ?_⟩
    change f.stop - (f.p + 12) < f.stop - f.p
    omega

theorem joinPath_longer (path name : Text) :
    joinPath path name = [] ∧ path = [] ∨ path.length < (joinPath path name).length := by
  rw [joinPath]
  split
  · next hpath =>
      subst hpath
      by_cases hname : name = []
      · exact .inl ⟨hname, rfl⟩
      · exact .inr (List.length_pos_iff.mpr hname)
  · rw [List.length_append, List.length_cons]
    exact .inr (by omega)

/-- What a step of the walk puts in the place of a frame: nothing, the frame further on, or that
and a directory that was found in it. -/
inductive Steps (f : Frame) : List Frame → Prop
  | pop : Steps f []
  | ahead {g : Frame} (hg : g.Ahead f) : Steps f [g]
  | push {sub g : Frame} (hg : g.Ahead f) (hleft : f.left ≠ 0) (hdir : isDir (entryAt T f.p).type)
      (hend : f.p + 9 + entrySize T f.p ≤ f.stop)
      (hpath : f.path.length + (entryAt T f.p).name.length < 1022)
      (hsub : walk_dir T block_size (joinPath f.path (entryAt T f.p).name)
        ((entryAt T f.p).dstart f) = .ok sub) : Steps f [sub, g]

theorem steps_of_ok {r : List Frame × List Found} (h : walk_step T block_size f = .ok r) :
    Steps T block_size f r.1 := by
  rw [walk_step] at h
  split at h
  · split at h
    · next hroom =>
        cases hheader : dir_header T f with
        | error e =>
          rw [hheader] at h
          cases h
        | ok g =>
          rw [hheader] at h
          obtain rfl := Except.ok.inj h
          exact .ahead (dir_header_ok T hheader hroom)
    · obtain rfl := Except.ok.inj h
      exact .pop
  · next hleft =>
      obtain ⟨hend, henter⟩ := dir_entry_ok T block_size h
      rw [enter_entry] at henter
      split at henter
      · cases henter
      · next hlong =>
          dsimp only at henter
          split at henter
          · cases henter
          · next hfull =>
              have hahead : Frame.Ahead { f with
                  p := f.p + 8 + (entrySize T f.p + 1), left := f.left - 1 } f := by
                refine ⟨rfl, rfl, ?_⟩
                change f.stop - (f.p + 8 + (entrySize T f.p + 1)) < f.stop - f.p
                omega
              split at henter
              · cases hino : parse_inode T block_size f.start_block (entryAt T f.p).offset with
                | error e =>
                  rw [hino] at henter
                  cases henter
                | ok ino =>
                  rw [hino] at henter
                  obtain rfl := Except.ok.inj henter
                  exact .ahead hahead
              · split at henter
                · next hdir =>
                  cases hsub : walk_dir T block_size (joinPath f.path (entryAt T f.p).name)
                    ((entryAt T f.p).dstart f) with
                  | error e =>
                    rw [hsub] at henter
                    cases henter
                  | ok sub =>
                    rw [hsub] at henter
                    obtain rfl := Except.ok.inj henter
                    exact .push hahead hleft hdir hend (by omega) hsub
                · obtain rfl := Except.ok.inj henter
                  exact .ahead hahead

end Walk

section Stack

open Relation

variable (T : Tables) (block_size : UInt32) {f g sub : Frame} {rest stack stack' A B : List Frame}

/-- One step of the walk, on its stack. -/
def Leads (stack stack' : List Frame) : Prop :=
  ∃ f rest r, stack = f :: rest ∧ walk_step T block_size f = .ok r ∧ stack' = r.1 ++ rest

variable {T block_size}

theorem Leads.append (h : Leads T block_size A B) (S : List Frame) :
    Leads T block_size (A ++ S) (B ++ S) := by
  obtain ⟨f, rest, r, rfl, hr, rfl⟩ := h
  exact ⟨f, rest ++ S, r, rfl, hr, List.append_assoc _ _ _⟩

/-- What holds of the directories that the walk is in. Each of them was entered, and the walk from
there on its own came to what is above it now. -/
structure Walked (T : Tables) (block_size : UInt32) (stack : List Frame) : Prop where
  short : ∀ f ∈ stack, f.path.length ≤ 1022
  rem_lt : ∀ f ∈ stack, f.rem < 65536
  apart : stack.Pairwise fun g f ↦
    f.path.length < g.path.length ∨ (g.path = [] ∧ f.path = []) ∧ g.dstart ≠ f.dstart
  past : ∀ A f S, stack = A ++ f :: S → ∃ f₀, walk_dir T block_size f.path f.dstart = .ok f₀ ∧
    ReflTransGen (Leads T block_size) [f₀] (A ++ [f])

theorem Walked.start {path : Text} {dstart : UInt32} (hpath : path.length ≤ 1022)
    (h : walk_dir T block_size path dstart = .ok f) : Walked T block_size [f] := by
  obtain ⟨hfpath, hfstart, hrem⟩ := walk_dir_ok T block_size h
  refine ⟨?_, ?_, List.pairwise_singleton _ f, ?_⟩
  · intro g hg
    rw [List.mem_singleton.mp hg, hfpath]
    exact hpath
  · intro g hg
    rw [List.mem_singleton.mp hg]
    exact hrem
  · intro A g S hsplit
    obtain ⟨rfl, hgS⟩ | ⟨A', rfl, hA⟩ := List.cons_eq_append_iff.mp hsplit
    · obtain ⟨rfl, -⟩ := List.cons.inj hgS
      refine ⟨g, ?_, .refl⟩
      rw [hfpath, hfstart]
      exact h
    · simp at hA

theorem Walked.past_below (h : Walked T block_size (f :: rest)) {r : List Frame × List Found}
    (hr : walk_step T block_size f = .ok r) {A' S : List Frame} (hrest : rest = A' ++ g :: S) :
    ∃ g₀, walk_dir T block_size g.path g.dstart = .ok g₀ ∧
      ReflTransGen (Leads T block_size) [g₀] (r.1 ++ A' ++ [g]) := by
  obtain ⟨g₀, hg₀, hpast⟩ := h.past (f :: A') g S (by rw [hrest]; rfl)
  exact ⟨g₀, hg₀, hpast.tail ⟨f, A' ++ [g], r, rfl, hr, List.append_assoc _ _ _⟩⟩

theorem Walked.past_top (h : Walked T block_size (f :: rest)) {r : List Frame × List Found}
    (hr : walk_step T block_size f = .ok r) :
    ∃ f₀, walk_dir T block_size f.path f.dstart = .ok f₀ ∧
      ReflTransGen (Leads T block_size) [f₀] r.1 := by
  obtain ⟨f₀, hf₀, hpast⟩ := h.past [] f rest rfl
  exact ⟨f₀, hf₀, hpast.tail ⟨f, [], r, rfl, hr, (List.append_nil _).symm⟩⟩

theorem Walked.tail (h : Walked T block_size (f :: rest)) {r : List Frame × List Found}
    (hr : walk_step T block_size f = .ok r) (hnil : r.1 = []) : Walked T block_size rest := by
  refine ⟨fun g hg ↦ h.short g (List.mem_cons_of_mem f hg),
    fun g hg ↦ h.rem_lt g (List.mem_cons_of_mem f hg), (List.pairwise_cons.mp h.apart).2, ?_⟩
  intro A g S hsplit
  have hpast := h.past_below hr hsplit
  rwa [hnil, List.nil_append] at hpast

theorem Walked.replace (h : Walked T block_size (f :: rest)) {r : List Frame × List Found}
    (hr : walk_step T block_size f = .ok r) (hg : g.Ahead f) (hone : r.1 = [g]) :
    Walked T block_size (g :: rest) := by
  obtain ⟨hpath, hstart, hrem⟩ := hg
  have hapart := List.pairwise_cons.mp h.apart
  refine ⟨?_, ?_, List.pairwise_cons.mpr ⟨?_, hapart.2⟩, ?_⟩
  · rw [List.forall_mem_cons, hpath]
    exact List.forall_mem_cons.mp h.short
  · have hall := List.forall_mem_cons.mp h.rem_lt
    exact List.forall_mem_cons.mpr ⟨hrem.trans hall.1, hall.2⟩
  · rw [hpath, hstart]
    exact hapart.1
  · intro A k S hsplit
    obtain ⟨rfl, hkS⟩ | ⟨A', rfl, hA⟩ := List.cons_eq_append_iff.mp hsplit
    · obtain ⟨rfl, -⟩ := List.cons.inj hkS
      have hpast := h.past_top hr
      rwa [hone, ← hpath, ← hstart] at hpast
    · have hpast := h.past_below hr hA
      rwa [hone] at hpast

theorem Walked.push (h : Walked T block_size (f :: rest)) {r : List Frame × List Found}
    (hr : walk_step T block_size f = .ok r) (hg : g.Ahead f)
    (hpath : f.path.length + (entryAt T f.p).name.length < 1022)
    (hsub : walk_dir T block_size (joinPath f.path (entryAt T f.p).name)
      ((entryAt T f.p).dstart f) = .ok sub)
    (hfresh : joinPath f.path (entryAt T f.p).name = [] →
      ∀ g ∈ f :: rest, g.dstart ≠ (entryAt T f.p).dstart f)
    (htwo : r.1 = [sub, g]) : Walked T block_size (sub :: g :: rest) := by
  obtain ⟨hgpath, hgstart, hgrem⟩ := hg
  obtain ⟨hspath, hsstart, hsrem⟩ := walk_dir_ok T block_size hsub
  have hapart := List.pairwise_cons.mp h.apart
  have hlength := length_joinPath f.path (entryAt T f.p).name
  have hall := List.forall_mem_cons.mp h.rem_lt
  have habove : ∀ k : Frame, (k.path = f.path ∧ k.dstart = f.dstart ∨ k ∈ rest) →
      k.path.length < sub.path.length ∨ (sub.path = [] ∧ k.path = []) ∧ sub.dstart ≠ k.dstart := by
    intro k hk
    rw [hspath, hsstart]
    rcases joinPath_longer f.path (entryAt T f.p).name with ⟨hempty, hroot⟩ | hlonger
    · right
      rcases hk with ⟨hkpath, hkstart⟩ | hk
      · refine ⟨⟨hempty, hkpath.trans hroot⟩, fun heq ↦ ?_⟩
        exact hfresh hempty f List.mem_cons_self (hkstart.symm.trans heq.symm)
      · refine ⟨⟨hempty, ?_⟩, fun heq ↦ ?_⟩
        · rcases hapart.1 k hk with hlt | ⟨⟨-, hkpath⟩, -⟩
          · rw [hroot] at hlt
            exact absurd hlt (Nat.not_lt_zero _)
          · exact hkpath
        · exact hfresh hempty k (List.mem_cons_of_mem f hk) heq.symm
    · left
      rcases hk with ⟨hkpath, -⟩ | hk
      · rw [hkpath]
        exact hlonger
      · rcases hapart.1 k hk with hlt | ⟨⟨hfpath, hkpath⟩, -⟩
        · exact hlt.trans hlonger
        · rw [hkpath, ← hfpath]
          exact hlonger
  refine ⟨?_, ?_, List.pairwise_cons.mpr ⟨?_, List.pairwise_cons.mpr ⟨?_, hapart.2⟩⟩, ?_⟩
  · rw [List.forall_mem_cons, List.forall_mem_cons, hgpath, hspath]
    refine ⟨by omega, ?_⟩
    exact List.forall_mem_cons.mp h.short
  · exact List.forall_mem_cons.mpr ⟨hsrem, List.forall_mem_cons.mpr ⟨hgrem.trans hall.1, hall.2⟩⟩
  · rw [List.forall_mem_cons]
    exact ⟨habove g (.inl ⟨hgpath, hgstart⟩), fun k hk ↦ habove k (.inr hk)⟩
  · rw [hgpath, hgstart]
    exact hapart.1
  · intro A k S hsplit
    obtain ⟨rfl, hkS⟩ | ⟨A', rfl, hA⟩ := List.cons_eq_append_iff.mp hsplit
    · obtain ⟨rfl, -⟩ := List.cons.inj hkS
      refine ⟨_, ?_, .refl⟩
      rw [hspath, hsstart]
      exact hsub
    · obtain ⟨rfl, hkS⟩ | ⟨A'', rfl, hA'⟩ := List.cons_eq_append_iff.mp hA
      · obtain ⟨rfl, -⟩ := List.cons.inj hkS
        have hpast := h.past_top hr
        rwa [htwo, ← hgpath, ← hgstart] at hpast
      · have hpast := h.past_below hr hA'
        rwa [htwo] at hpast

/-- How many directories the walk can be in: their paths differ in length, up to 1022, or are empty
and come from different numbers. -/
theorem Walked.length_le (h : Walked T block_size stack) : stack.length ≤ 1023 * 2 ^ 32 := by
  have hnodup : (stack.map fun f ↦ f.path.length * 2 ^ 32 + f.dstart.toNat).Nodup := by
    rw [List.Nodup, List.pairwise_map]
    refine h.apart.imp fun {g f} hgf heq ↦ ?_
    have hg := g.dstart.toNat_lt
    have hf := f.dstart.toNat_lt
    rcases hgf with hlt | ⟨⟨hg, hf⟩, hne⟩
    · omega
    · rw [hg, hf] at heq
      exact hne (UInt32.toNat_inj.mp (Nat.add_left_cancel heq))
  have hsub : (stack.map fun f ↦ f.path.length * 2 ^ 32 + f.dstart.toNat) ⊆
      List.range (1023 * 2 ^ 32) := by
    intro n hn
    obtain ⟨f, hf, rfl⟩ := List.mem_map.mp hn
    have hshort := h.short f hf
    have hlt := f.dstart.toNat_lt
    rw [List.mem_range]
    omega
  have hle := (hnodup.subperm hsub).length_le
  rwa [List.length_map, List.length_range] at hle

/-- What the walk can still do: a frame counts more than all that can come to stand on it. -/
def work (depth : ℕ) : List Frame → ℕ
  | [] => 0
  | f :: rest => (f.rem + 1) * 65537 ^ (depth - rest.length) + work depth rest

theorem work_pop (depth : ℕ) (f : Frame) (rest : List Frame) :
    work depth rest < work depth (f :: rest) := by
  rw [work]
  have hpos : 0 < (f.rem + 1) * 65537 ^ (depth - rest.length) :=
    Nat.mul_pos (Nat.succ_pos _) (Nat.pow_pos (Nat.succ_pos _))
  omega

theorem work_ahead (depth : ℕ) (hg : g.Ahead f) (rest : List Frame) :
    work depth (g :: rest) < work depth (f :: rest) := by
  rw [work, work]
  have hlt := Nat.mul_lt_mul_of_pos_right (Nat.succ_lt_succ hg.2.2)
    (Nat.pow_pos (n := depth - rest.length) (Nat.succ_pos 65536))
  exact Nat.add_lt_add_right hlt _

theorem work_push {depth : ℕ} (hg : g.Ahead f) (hsub : sub.rem < 65536)
    (hdepth : rest.length < depth) : work depth (sub :: g :: rest) < work depth (f :: rest) := by
  rw [work, work, work, List.length_cons]
  obtain ⟨d, hd⟩ : ∃ d, depth - rest.length = d + 1 := ⟨depth - rest.length - 1, by omega⟩
  have hd' : depth - (rest.length + 1) = d := by omega
  rw [hd, hd']
  have hpow : 0 < 65537 ^ d := Nat.pow_pos (Nat.succ_pos _)
  have hnew : (sub.rem + 1) * 65537 ^ d < 65537 ^ (d + 1) := by
    rw [Nat.pow_succ']
    exact Nat.mul_lt_mul_of_pos_right (by omega) hpow
  have hold : (g.rem + 1) * 65537 ^ (d + 1) + 65537 ^ (d + 1) ≤ (f.rem + 1) * 65537 ^ (d + 1) := by
    rw [← Nat.succ_mul]
    exact Nat.mul_le_mul_right _ (Nat.succ_lt_succ hg.2.2)
  omega

theorem not_ends_of_loop (src : Source) (sup : Super) {f₀ : Frame} {V : List Frame}
    (hloop : TransGen (Leads T sup.block_size) [f₀] (f₀ :: V)) {stack : List Frame}
    (hstack : ∃ U V, TransGen (Leads T sup.block_size) U (f₀ :: V) ∧ ∃ S, stack = U ++ S)
    (files : List Found) : ¬Ends (openStep src sup) (.walk T stack files) := by
  refine not_ends_of_forever (P := fun s ↦ ∃ stack files, s = .walk T stack files ∧
    ∃ U V, TransGen (Leads T sup.block_size) U (f₀ :: V) ∧ ∃ S, stack = U ++ S) ?_
    ⟨stack, files, rfl, hstack⟩
  rintro _ ⟨_, files, rfl, U, V', hU, S, rfl⟩
  obtain ⟨W, hlead, hW⟩ := TransGen.head'_iff.mp hU
  obtain ⟨f, rest, r, rfl, hr, rfl⟩ := hlead
  refine ⟨.walk T (r.1 ++ rest ++ S) (files ++ r.2), ?_, _, _, rfl, ?_⟩
  · rw [List.cons_append, openStep, hr, List.append_assoc]
    rfl
  · rcases (reflTransGen_iff_eq_or_transGen.mp hW) with heq | hW
    · refine ⟨f₀ :: V', V ++ V', ?_, S, by rw [← heq]⟩
      have happ := TransGen.lift (· ++ V') (fun A B hAB ↦ Leads.append hAB V') _ _ hloop
      exact happ
    · exact ⟨_, V', hW, S, rfl⟩

end Stack

section Open

open Relation

variable (src : Source) (sup : Super)

/-- What holds of the states that good steps lead to. -/
def Reasonable : State → Prop
  | .load l _ => l.Sound
  | .enter _ => True
  | .walk T stack _ => Walked T sup.block_size stack

/-- How many phases are still to come. -/
def phase : Region → ℕ
  | .super | .inodes => 4
  | .dirs => 3
  | .fragments => 2

def State.size : State → ℕ ×ₗ ℕ
  | .load l _ => toLex (phase l.region, l.stop.toNat - l.pos.toNat)
  | .enter _ => toLex (1, 0)
  | .walk _ stack _ => toLex (0, work (1023 * 2 ^ 32) stack)

theorem sound_beginLoad (region : Region) : (beginLoad sup region).Sound := by
  cases region <;> exact ⟨Nat.le_refl 0, .inl rfl⟩

theorem loaded_smaller (l : Loading) (T : Tables) :
    Reasonable sup (loaded sup l T) ∧ (loaded sup l T).size < (State.load l T).size := by
  rw [loaded]
  cases hregion : l.region with
  | super | inodes =>
    refine ⟨sound_beginLoad sup .dirs, Prod.Lex.toLex_lt_toLex.mpr (.inl ?_)⟩
    rw [hregion]
    exact (by decide : 3 < 4)
  | dirs =>
    dsimp only
    split
    · refine ⟨sound_beginLoad sup .fragments, Prod.Lex.toLex_lt_toLex.mpr (.inl ?_)⟩
      rw [hregion]
      exact (by decide : 2 < 3)
    · refine ⟨trivial, Prod.Lex.toLex_lt_toLex.mpr (.inl ?_)⟩
      rw [hregion]
      exact (by decide : 1 < 3)
  | fragments =>
    refine ⟨trivial, Prod.Lex.toLex_lt_toLex.mpr (.inl ?_)⟩
    rw [hregion]
    exact (by decide : 1 < 2)

theorem Walked.step {T : Tables} {block_size : UInt32} {f : Frame} {rest : List Frame}
    (h : Walked T block_size (f :: rest)) {r : List Frame × List Found}
    (hr : walk_step T block_size f = .ok r)
    (hinside : if f.left = 0 then HeaderInside T f else EntryInside T block_size f rest) :
    Walked T block_size (r.1 ++ rest) ∧
      work (1023 * 2 ^ 32) (r.1 ++ rest) < work (1023 * 2 ^ 32) (f :: rest) := by
  have hsteps := steps_of_ok T block_size hr
  generalize hfs : r.1 = fs at hsteps
  cases hsteps with
  | pop => exact ⟨h.tail hr hfs, work_pop _ f rest⟩
  | ahead hg => exact ⟨h.replace hr hg hfs, work_ahead _ hg rest⟩
  | push hg hleft hdir hend hpath hsub =>
    rw [if_neg hleft] at hinside
    have hfresh := (((hinside (by omega)).2 hend).2 hpath).2 hdir
    have hpushed := h.push hr hg hpath hsub hfresh.2 hfs
    have hlength : rest.length + 1 + 1 ≤ 1023 * 2 ^ 32 := hpushed.length_le
    have hroom : rest.length < 1023 * 2 ^ 32 := by omega
    exact ⟨hpushed, work_push hg (walk_dir_ok T block_size hsub).2.2 hroom⟩

theorem Walked.path_eq_nil {T : Tables} {block_size : UInt32} {f g : Frame} {rest : List Frame}
    (h : Walked T block_size (f :: rest)) (hpath : f.path = []) (hg : g ∈ f :: rest) :
    g.path = [] := by
  rcases List.mem_cons.mp hg with rfl | hmem
  · exact hpath
  · rcases (List.pairwise_cons.mp h.apart).1 g hmem with hlt | ⟨⟨-, hnil⟩, -⟩
    · rw [hpath] at hlt
      exact absurd hlt (Nat.not_lt_zero _)
    · exact hnil

theorem Walked.loop {T : Tables} {f g : Frame} {rest : List Frame}
    (h : Walked T sup.block_size (f :: rest)) {r : List Frame × List Found}
    (hr : walk_step T sup.block_size f = .ok r) (hpath : f.path = []) (hg : g ∈ f :: rest)
    {sub : Frame} {fs : List Frame} (hsub : walk_dir T sup.block_size [] g.dstart = .ok sub)
    (hfs : r.1 = sub :: fs) (files : List Found) :
    ¬Ends (openStep src sup) (.walk T (f :: rest) files) := by
  obtain ⟨A, S, hsplit⟩ := List.append_of_mem hg
  obtain ⟨g₀, hg₀, hpast⟩ := h.past A g S hsplit
  rw [h.path_eq_nil hpath hg, hsub] at hg₀
  obtain rfl := Except.ok.inj hg₀
  obtain ⟨B, hB⟩ : ∃ B, A ++ [g] = f :: B := by
    cases A with
    | nil => exact ⟨[], by rw [(List.cons.inj hsplit).1]; rfl⟩
    | cons a A => exact ⟨A ++ [g], by rw [(List.cons.inj hsplit).1]; rfl⟩
  have hlead : Leads T sup.block_size (A ++ [g]) (sub :: (fs ++ B)) :=
    ⟨f, B, r, hB, hr, by rw [hfs]; rfl⟩
  refine not_ends_of_loop src sup (TransGen.tail' hpast hlead)
    ⟨A ++ [g], _, .single hlead, S, ?_⟩ files
  rw [hsplit, List.append_assoc]
  rfl

theorem not_wild_walk_step {T : Tables} {block_size : UInt32} {f : Frame} {rest : List Frame}
    (h : if f.left = 0 then HeaderInside T f else EntryInside T block_size f rest) :
    ¬Wild (walk_step T block_size f) := by
  rw [walk_step]
  split at h
  · next hleft =>
      rw [if_pos hleft]
      split
      · next hroom =>
          rw [wild_map, wild_dir_header T f hroom, not_not]
          exact h
      · exact fun hwild ↦ nomatch hwild
  · next hleft =>
      rw [if_neg hleft, wild_dir_entry, not_not]
      intro hstop
      obtain ⟨htable, hinside⟩ := h hstop
      refine ⟨htable, fun hend ↦ ⟨(hinside hend).1, fun hpath ↦ ?_⟩⟩
      obtain ⟨hfile, hdir⟩ := (hinside hend).2 hpath
      exact ⟨hfile, fun h ↦ (hdir h).1⟩

theorem loop_of_not_inside {T : Tables} {block_size : UInt32} {f : Frame} {rest : List Frame}
    (h : Walked T block_size (f :: rest)) (hleft : f.left ≠ 0)
    (hbad : ¬EntryInside T block_size f rest) (hnot : ¬Wild (walk_step T block_size f)) :
    ∃ g ∈ f :: rest, ∃ sub fs r, walk_dir T block_size [] g.dstart = .ok sub ∧ f.path = [] ∧
      walk_step T block_size f = .ok r ∧ r.1 = sub :: fs := by
  rw [walk_step, if_neg hleft, wild_dir_entry, not_not] at hnot
  have hstop : f.p + 8 ≤ f.stop := by
    by_contra hstop
    exact hbad fun h ↦ absurd h hstop
  obtain ⟨htable, hinside⟩ := hnot hstop
  have hend : f.p + 9 + entrySize T f.p ≤ f.stop := by
    by_contra hend
    exact hbad fun _ ↦ ⟨htable, fun h ↦ absurd h hend⟩
  obtain ⟨hname, hleads⟩ := hinside hend
  have hpath : f.path.length + (entryAt T f.p).name.length < 1022 := by
    by_contra hpath
    exact hbad fun _ ↦ ⟨htable, fun _ ↦ ⟨hname, fun h ↦ absurd h hpath⟩⟩
  obtain ⟨hfile, hinode⟩ := hleads hpath
  have hdir : isDir (entryAt T f.p).type := by
    by_contra hdir
    exact hbad fun _ ↦ ⟨htable, fun _ ↦ ⟨hname, fun _ ↦ ⟨hfile, fun h ↦ absurd h hdir⟩⟩⟩
  have hloop : ¬(joinPath f.path (entryAt T f.p).name = [] →
      ∀ g ∈ f :: rest, g.dstart ≠ (entryAt T f.p).dstart f) := fun hloop ↦
    hbad fun _ ↦ ⟨htable, fun _ ↦ ⟨hname, fun _ ↦ ⟨hfile, fun hd ↦ ⟨hinode hd, hloop⟩⟩⟩⟩
  push Not at hloop
  obtain ⟨hempty, g, hg, hstart⟩ := hloop
  have hroot : f.path = [] := by
    rcases joinPath_longer f.path (entryAt T f.p).name with ⟨-, hroot⟩ | hlonger
    · exact hroot
    · rw [hempty] at hlonger
      exact absurd hlonger (Nat.not_lt_zero _)
  obtain ⟨A, S, hsplit⟩ := List.append_of_mem hg
  obtain ⟨sub, hsub, -⟩ := h.past A g S hsplit
  rw [h.path_eq_nil hroot hg] at hsub
  refine ⟨g, hg, sub, [{ f with p := f.p + 8 + (entrySize T f.p + 1), left := f.left - 1 }],
    ([sub, { f with p := f.p + 8 + (entrySize T f.p + 1), left := f.left - 1 }], []), hsub, hroot,
    ?_, rfl⟩
  have hread := read_entry_eq T hstop htable
  rw [if_neg (Nat.not_lt.mpr hend), if_pos hname] at hread
  have hlength := length_joinPath f.path (entryAt T f.p).name
  rw [walk_step, if_neg hleft, dir_entry_eq_of_ok T block_size hread, enter_entry,
    if_neg (by omega), if_neg (by omega), if_neg fun h ↦ not_isDir_of_isFile h hdir, if_pos hdir,
    hempty, ← hstart, hsub]
  rfl

theorem open_good (s : State) (hs : Reasonable sup s) (hgood : StepInside src sup s) :
    (∃ r, openStep src sup s = .done r) ∨
      ∃ t, openStep src sup s = .next t ∧ Reasonable sup t ∧ t.size < s.size := by
  cases s with
  | load l T =>
    have hnot : ¬Wild (load_metadata_block src l) := by
      rw [wild_load src hs, not_not]
      exact hgood
    rw [openStep]
    cases hload : load_metadata_block src l with
    | error e =>
      cases e with
      | wild => exact absurd hload hnot
      | error => exact .inl ⟨_, rfl⟩
    | ok next =>
      cases next with
      | none =>
        obtain ⟨hreason, hlt⟩ := loaded_smaller sup l T
        exact .inr ⟨_, rfl, hreason, hlt⟩
      | some l' =>
        obtain ⟨hsound, hregion, hlt⟩ := load_ok src hload hs
        refine .inr ⟨_, rfl, hsound, Prod.Lex.toLex_lt_toLex.mpr (.inr ⟨?_, hlt⟩)⟩
        exact congrArg phase hregion
  | enter T =>
    have hnot : ¬Wild (walk_dir T sup.block_size [] sup.root_inode.toUInt32) := by
      rw [wild_walk_dir, not_not]
      exact hgood
    rw [openStep]
    cases hwalk : walk_dir T sup.block_size [] sup.root_inode.toUInt32 with
    | error e =>
      cases e with
      | wild => exact absurd hwalk hnot
      | error => exact .inl ⟨_, rfl⟩
    | ok f =>
      refine .inr ⟨_, rfl, Walked.start (Nat.zero_le _) hwalk, ?_⟩
      exact Prod.Lex.toLex_lt_toLex.mpr (.inl Nat.zero_lt_one)
  | walk T stack files =>
    cases stack with
    | nil => exact .inl ⟨_, rfl⟩
    | cons f rest =>
      rw [StepInside] at hgood
      have hnot := not_wild_walk_step hgood
      rw [openStep]
      cases hstep : walk_step T sup.block_size f with
      | error e =>
        cases e with
        | wild => exact absurd hstep hnot
        | error => exact .inl ⟨_, rfl⟩
      | ok r =>
        obtain ⟨hwalked, hlt⟩ := hs.step hstep hgood
        refine .inr ⟨_, rfl, hwalked, Prod.Lex.toLex_lt_toLex.mpr (.inr ⟨rfl, hlt⟩)⟩

theorem open_bad (s : State) (hs : Reasonable sup s) (hbad : ¬StepInside src sup s) :
    ¬Ends (openStep src sup) s := by
  cases s with
  | load l T =>
    have hwild : load_metadata_block src l = .error .wild := (wild_load src hs).mpr hbad
    apply not_ends_of_wild
    rw [openStep, hwild]
    rfl
  | enter T =>
    have hwild : walk_dir T sup.block_size [] sup.root_inode.toUInt32 = .error .wild :=
      (wild_walk_dir T _ _ _).mpr hbad
    apply not_ends_of_wild
    rw [openStep, hwild]
    rfl
  | walk T stack files =>
    cases stack with
    | nil => exact absurd trivial hbad
    | cons f rest =>
      by_cases hwild : walk_step T sup.block_size f = .error .wild
      · apply not_ends_of_wild
        rw [openStep, hwild]
        rfl
      · by_cases hleft : f.left = 0
        · rw [StepInside, if_pos hleft, HeaderInside, Classical.not_imp] at hbad
          have hheader := (wild_dir_header T f hbad.1).mpr fun h ↦ hbad.2 (h hbad.1)
          refine absurd ?_ hwild
          rw [walk_step, if_pos hleft, if_pos hbad.1]
          exact (wild_map _ _).mpr hheader
        · rw [StepInside, if_neg hleft] at hbad
          obtain ⟨g, hg, sub, fs, r, hsub, hpath, hr, hfs⟩ :=
            loop_of_not_inside hs hleft hbad hwild
          exact hs.loop src sup hr hpath hg hsub hfs files

/-- The states that the opening of an image comes to are inside. -/
def StaysInside : Prop :=
  ∀ sup, superblockOf src = some sup → ∀ s, Reaches (openStep src sup) (openStart sup) s →
    StepInside src sup s

/-- The root has one entry, whose name takes 301 bytes. -/
def longName : Source where
  file := leBytes 4 0x73717368 ++ leBytes 4 2 ++ leBytes 4 0 ++ leBytes 4 131072 ++ leBytes 4 0 ++
    leBytes 2 1 ++ leBytes 10 0 ++ leBytes 8 0 ++ leBytes 8 453 ++ leBytes 8 453 ++ leBytes 8 0 ++
    leBytes 8 96 ++ leBytes 8 130 ++ leBytes 8 0 ++ leBytes 8 0 ++
    (leBytes 2 (0x8000 + 32) ++ leBytes 2 1 ++ leBytes 22 0 ++ leBytes 2 324 ++ leBytes 2 0 ++
      leBytes 4 1) ++
    (leBytes 2 (0x8000 + 321) ++ leBytes 12 0 ++ leBytes 4 0 ++ leBytes 2 2 ++ leBytes 2 300 ++
      List.replicate 301 97)
  stale _ _ := 0
  seekable _ := true
  uncompress _ := none
  length_uncompress _ _ h := nomatch h

theorem isSome_superblockOf_longName : (superblockOf longName).isSome = true := by decide +kernel

end Open

end Libobject.Squashfs
