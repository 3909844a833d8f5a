import Mathlib.Data.Int.Notation
import Libobject.Core.FileSystem

/-!
# Files between two nodes

`fwrite` sends a local file, or what is listed in a local directory, to another node in blocks, and
`fread` gets it from there. A call through the bus is what the service of the other node does; its
arguments and results are delivered unchanged. A size that is parsed from the text of a list has to
be a C integer; the text, which the service copies into the buffer of its answer, fits there.
-/

namespace Libobject.Transfer

open Scan FileSystem Disk

/-- The service makes the file anew at offset 0 only. -/
def node_write_file (d : Disk) (filename : Text) (offset : ℕ) (buffer : List UInt8) : Run Disk := do
  let ex ← d.fs_is_exist filename
  let d ← (if ex = true ∧ offset = 0 then d.fs_rmfile filename
    else if ex = false then d.fs_mkfile filename
    else .ok d)
  let (d, e) ← d.openAppend filename
  return d.write e buffer

/-- The service answers with as many bytes as it was asked for; those that it has not read are
unknown. -/
def node_read_file (d : Disk) (filename : Text) (offset len : ℕ) : Run (Disk × List UInt8) := do
  let ex ← d.fs_is_exist filename
  if ex = false then .error .thrown
  else
    let (d, e) ← d.openAppend filename
    let bs := (((d.files e).getD []).drop offset).take len
    if bs.length = len then return (d, bs) else .error .undefined

/-- The list of a path, with the sizes as they are parsed. -/
def node_list (n : ℕ) (d : Disk) (path : Text) : Run (List (Text × ℕ)) := do
  let ex ← d.fs_is_exist path
  if ex = false then .error .thrown
  else
    let list ← (if d.fs_is_directory path = 1 then d.fs_tree n path else .ok (d.fs_list path))
    list.mapM fun p ↦
      let size := ((d.files p).getD []).length
      if 2147483648 ≤ size then .error .undefined else .ok (p, size)

/-- The blocks of a file that are still to be sent. -/
def writeBlocks (target : Text) : ℕ → Content → ℕ → Disk → Run Disk
  | 0, _, _, d => .ok d
  | n + 1, rest, offset, d => do
    let buffer := rest.take 1024
    let d ← node_write_file d target offset buffer
    writeBlocks target n (rest.drop 1024) ((offset + buffer.length) % 4294967296) d

def fwrite : ℕ → Disk → Text → Text → Disk → Run Disk
  | 0, _, _, _, _ => .error .endless
  | n + 1, here, source, target, there => do
    let ex ← here.fs_is_exist source
    if ex = false then .error .thrown
    -- also where it is none: what `stat` does not find gives -1
    else if here.fs_is_directory source ≠ 0 then do
      let list ← here.fs_tree n source
      list.foldlM (fun there p ↦
        if dotted p then return there
        else do
          let relative_path ← fs_get_relative_path p source
          fwrite n here p (target ++ relative_path) there) there
    else do
      let content ← here.openRead source
      let size := here.fs_get_size source
      writeBlocks target (size.toNat / 1024 + 1) content 0 there

/-- The blocks of a file that are still to be got; `there` is the disk of the other node. -/
def readBlocks (source e : Text) (size : ℕ) : ℕ → ℕ → ℕ → Disk × Disk → Run (Disk × Disk)
  | 0, _, _, ds => .ok ds
  | n + 1, j, offset, (there, here) => do
    let len := if 1024 < size - j * 1024 then 1024 else size - j * 1024
    let (there, buffer) ← node_read_file there source offset len
    readBlocks source e size n (j + 1) (offset + len) (there, here.write e buffer)

/-- One entry of a list is got. -/
def readEntry (source target : Text) (single : Bool) (ds : Disk × Disk) (entry : Text × ℕ) :
    Run (Disk × Disk) :=
  if dotted entry.1 then return ds
  else do
    let dest ← (if entry.1 = source ∧ single = true then .ok target
      else do
        let relative_path ← fs_get_relative_path entry.1 source
        return target ++ relative_path)
    let ex ← ds.2.fs_is_exist dest
    let here ← (if ex = false then ds.2.fs_mkfile dest else .ok ds.2)
    let (here, e) ← here.openAppend dest
    readBlocks entry.1 e entry.2 (entry.2 / 1024 + 1) 0 0 (ds.1, here)

/-- What is left on the two disks, the other one first. -/
def fread (n : ℕ) (there : Disk) (source target : Text) (here : Disk) : Run (Disk × Disk) := do
  let list ← node_list n there source
  list.foldlM (readEntry source target (list.length = 1)) (there, here)

/-! ## One block -/

section Block

variable {d d' d'' : Disk} {p q : Text} {c c' bs : Content}

/-- A file cannot be made anew at the path. -/
def Unwritable (d : Disk) (p : Text) : Prop :=
  d.refuses p = true ∨
    match d.files p, d.dirAt p with
    | some _, ns => ns.isSome = true
    | none, some ns => ns ≠ []
    | none, none => 47 ∉ p ∧ 92 ∉ p

/-- The file at the path has the content now, and no other file has changed. -/
structure Wrote (d : Disk) (p : Text) (c : Content) (d' : Disk) : Prop where
  files : d'.files = Function.update d.files p (some c)
  refuses : d'.refuses = d.refuses
  dir : d'.dirAt p = none
  dirs : ∀ q, trim q ≠ trim p → d'.dirAt q = d.dirAt q
  writable : d.refuses p = false

theorem Wrote.trans (h : Wrote d p c d') (h' : Wrote d' p c' d'') : Wrote d p c' d'' where
  files := by rw [h'.files, h.files, Function.update_idem]
  refuses := h'.refuses.trans h.refuses
  dir := h'.dir
  dirs := fun q hq ↦ (h'.dirs q hq).trans (h.dirs q hq)
  writable := h.writable

theorem Wrote.files_self (h : Wrote d p c d') : d'.files p = some c := by
  rw [h.files, Function.update_self]

theorem Wrote.files_ne (h : Wrote d p c d') (hq : q ≠ p) : d'.files q = d.files q := by
  rw [h.files, Function.update_of_ne hq]

theorem wrote_write (hdir : d.dirAt p = none) (hw : d.refuses p = false) (bs : Content) :
    Wrote d p ((d.files p).getD [] ++ bs) (d.write p bs) :=
  ⟨rfl, rfl, hdir, fun _ _ ↦ rfl, hw⟩

theorem append_block (hdir : d.dirAt p = none) (hp : Plain p) (hw : d.refuses p = false) :
    (do
      let (d, e) ← d.openAppend p
      return d.write e bs : Run Disk) =
      .ok ((if (d.files p).isSome then d else d.put p (some [])).write p bs) := by
  have hopen : ¬(d.refuses p = true ∨ (d.dirAt p).isSome = true) := by
    rw [hw, hdir]
    simp
  rw [openAppend_plain hp, if_neg hopen]
  rfl

theorem write_next (hp : Plain p) (hfile : d.files p = some c) (hdir : d.dirAt p = none)
    (hw : d.refuses p = false) {offset : ℕ} (hoffset : offset ≠ 0) (bs : Content) :
    ∃ d', node_write_file d p offset bs = .ok d' ∧ Wrote d p (c ++ bs) d' := by
  have hexist : d.fs_is_exist p = .ok true := by
    rw [fs_is_exist_plain hp, hfile]
    rfl
  refine ⟨d.write p bs, ?_, ?_⟩
  · have hstep : node_write_file d p offset bs = (do
        let (d, e) ← d.openAppend p
        return d.write e bs : Run Disk) := by
      rw [node_write_file, hexist]
      simp [hoffset, bind, Except.bind]
    rw [hstep, append_block hdir hp hw, hfile]
    rfl
  · have hwrote := wrote_write hdir hw bs
    rwa [hfile] at hwrote

/-- What happens to the path before the file is opened. -/
def prepare (d : Disk) (p : Text) : Run Disk :=
  if (d.files p).isSome || (d.dirAt p).isSome then d.fs_rmfile p else d.fs_mkfile p

theorem write_first_eq (hp : Plain p) (bs : Content) :
    node_write_file d p 0 bs = (do
      let d ← prepare d p
      let (d, e) ← d.openAppend p
      return d.write e bs) := by
  rw [node_write_file, fs_is_exist_plain hp, prepare]
  cases (d.files p).isSome || (d.dirAt p).isSome <;> rfl

theorem wrote_prepared {d₁ : Disk} (hp : Plain p) (hprepare : prepare d p = .ok d₁)
    (hfiles : ∃ o ∈ [none, some []], d₁.files = Function.update d.files p o)
    (hrefuses : d₁.refuses = d.refuses) (hdir : d₁.dirAt p = none)
    (hdirs : ∀ q, trim q ≠ trim p → d₁.dirAt q = d.dirAt q) (hw : d.refuses p = false)
    (bs : Content) : ∃ d', node_write_file d p 0 bs = .ok d' ∧ Wrote d p bs d' := by
  have hw₁ : d₁.refuses p = false := by rw [hrefuses, hw]
  refine ⟨(if (d₁.files p).isSome then d₁ else d₁.put p (some [])).write p bs, ?_, ?_⟩
  · rw [write_first_eq hp, hprepare]
    exact append_block hdir hp hw₁
  · obtain ⟨o, ho, hfiles⟩ := hfiles
    have hself : d₁.files p = o := by rw [hfiles, Function.update_self]
    rw [hself]
    rcases List.mem_cons.mp ho with rfl | ho
    · refine ⟨?_, hrefuses, hdir, hdirs, hw⟩
      simp only [Option.isSome_none, Bool.false_eq_true, if_false, write, put,
        Function.update_self, hfiles, Function.update_idem]
      rfl
    · obtain rfl := List.mem_singleton.mp ho
      refine ⟨?_, hrefuses, hdir, hdirs, hw⟩
      simp only [Option.isSome_some, if_true, write, put, hself, hfiles, Function.update_idem]
      rfl

theorem write_first (hp : Plain p) (bs : Content) :
    Unwritable d p ∧ node_write_file d p 0 bs = .error .thrown ∨
      ¬Unwritable d p ∧ ∃ d', node_write_file d p 0 bs = .ok d' ∧ Wrote d p bs d' := by
  have hthrown : prepare d p = .error .thrown → node_write_file d p 0 bs = .error .thrown := by
    intro h
    rw [write_first_eq hp, h]
    rfl
  by_cases hw : d.refuses p = true
  · refine .inl ⟨.inl hw, hthrown ?_⟩
    have hrm : d.fs_rmfile p = .error .thrown := if_pos hw
    have hmk : d.fs_mkfile p = .error .thrown := if_pos (.inl hw)
    rw [prepare, hrm, hmk, ite_self]
  · have hw' : d.refuses p = false := by simpa using hw
    unfold Unwritable
    rw [or_iff_right hw]
    cases hfile : d.files p with
    | some c =>
      have hrm : prepare d p = .ok (d.put p none) := by
        rw [prepare, fs_rmfile, hfile, if_neg hw]
        rfl
      cases hdir : d.dirAt p with
      | some ns =>
        refine .inl ⟨rfl, ?_⟩
        have hdir' : (d.put p none).dirAt p = some ns := hdir
        rw [write_first_eq hp, hrm]
        simp only [bind, Except.bind, openAppend_plain hp, hdir', Option.isSome_some, or_true,
          if_true]
      | none =>
        exact .inr ⟨Bool.false_ne_true, wrote_prepared hp hrm ⟨none, by simp, rfl⟩ rfl hdir
          (fun _ _ ↦ rfl) hw' bs⟩
    | none =>
      cases hdir : d.dirAt p with
      | some ns =>
        cases ns with
        | cons n ns =>
          refine .inl ⟨List.cons_ne_nil n ns, hthrown ?_⟩
          rw [prepare, fs_rmfile, hfile, hdir, if_neg hw]
          rfl
        | nil =>
          refine .inr ⟨fun h ↦ h rfl, ?_⟩
          have hrm : prepare d p = .ok (d.removeDir p) := by
            rw [prepare, fs_rmfile, hfile, hdir, if_neg hw]
            rfl
          have hself : d.files = Function.update d.files p none := by
            rw [← hfile, Function.update_eq_self]
          refine wrote_prepared hp hrm ⟨none, by simp, hself⟩ rfl
            ((dirAt_removeDir d p p).trans (if_pos rfl)) ?_ hw' bs
          exact fun q hq ↦ (dirAt_removeDir d p q).trans (if_neg hq)
      | none =>
        by_cases hsep : 47 ∉ p ∧ 92 ∉ p
        · refine .inl ⟨hsep, hthrown ?_⟩
          rw [prepare, hfile, hdir]
          have hmk : d.fs_mkfile p = .error .thrown := if_pos (.inr (.inr hsep))
          exact hmk
        · refine .inr ⟨hsep, ?_⟩
          have hmk : prepare d p = .ok (d.put p (some [])) := by
            have hmake : prepare d p = d.fs_mkfile p := by
              rw [prepare, hfile, hdir]
              rfl
            rw [hmake]
            refine if_neg ?_
            rintro (h | h | h)
            · exact hw h
            · rw [hdir] at h
              exact nomatch h
            · exact hsep h
          exact wrote_prepared hp hmk ⟨some [], by simp, rfl⟩ rfl hdir (fun _ _ ↦ rfl) hw' bs

end Block

/-! ## One file is sent -/

section Sending

variable {d d' : Disk} {p source target : Text} {c : Content}

theorem wrote_self (hfile : d.files p = some c) (hdir : d.dirAt p = none)
    (hw : d.refuses p = false) : Wrote d p c d :=
  ⟨by rw [← hfile, Function.update_eq_self], rfl, hdir, fun _ _ ↦ rfl, hw⟩

theorem blocks_le {n m offset bound : ℕ} (hm : m ≤ 1024) (hle : offset + 1024 * (n + 1) ≤ bound) :
    offset + m + 1024 * n ≤ bound := by
  omega

theorem writeBlocks_next (hp : Plain p) (n : ℕ) (rest : Content) (offset : ℕ)
    (hfile : d.files p = some c) (hdir : d.dirAt p = none) (hw : d.refuses p = false)
    (hpos : offset ≠ 0) (hle : offset + 1024 * n ≤ 4294967296) :
    ∃ d', writeBlocks p n rest offset d = .ok d' ∧ Wrote d p (c ++ rest.take (1024 * n)) d' := by
  induction n generalizing d c rest offset with
  | zero =>
    refine ⟨d, rfl, ?_⟩
    rw [Nat.mul_zero, List.take_zero, List.append_nil]
    exact wrote_self hfile hdir hw
  | succ n ih =>
    obtain ⟨d₁, hwrite, hwrote⟩ := write_next hp hfile hdir hw hpos (rest.take 1024)
    have hlen : (rest.take 1024).length ≤ 1024 := List.length_take_le 1024 rest
    have hw₁ : d₁.refuses p = false := by rw [hwrote.refuses, hw]
    have hstep : writeBlocks p (n + 1) rest offset d =
        writeBlocks p n (rest.drop 1024)
          ((offset + (rest.take 1024).length) % 4294967296) d₁ := by
      rw [writeBlocks, hwrite]
      rfl
    rw [hstep]
    have hall : rest.take (1024 * (n + 1)) =
        rest.take 1024 ++ (rest.drop 1024).take (1024 * n) := by
      rw [← List.take_add]
      congr 1
      omega
    cases n with
    | zero =>
      refine ⟨d₁, rfl, ?_⟩
      rw [hall, Nat.mul_zero, List.take_zero, List.append_nil]
      exact hwrote
    | succ n =>
      have hlt : offset + (rest.take 1024).length < 4294967296 := by omega
      have hle' := blocks_le hlen hle
      rw [Nat.mod_eq_of_lt hlt]
      obtain ⟨d₂, hrun, hwrote₂⟩ := ih (rest.drop 1024)
        (offset + (rest.take 1024).length) hwrote.files_self hwrote.dir hw₁ (by omega) hle'
      refine ⟨d₂, hrun, ?_⟩
      rw [hall, ← List.append_assoc]
      exact hwrote.trans hwrote₂

theorem writeBlocks_file (hp : Plain p) {n : ℕ} (hle : 1024 * (n + 1) ≤ 4294967296)
    (hne : c ≠ [] ∨ n = 0) :
    Unwritable d p ∧ writeBlocks p (n + 1) c 0 d = .error .thrown ∨
      ¬Unwritable d p ∧ ∃ d', writeBlocks p (n + 1) c 0 d = .ok d' ∧
        Wrote d p (c.take (1024 * (n + 1))) d' := by
  rcases write_first hp (c.take 1024) (d := d) with ⟨hnot, hwrite⟩ | ⟨hcan, d₁, hwrite, hwrote⟩
  · refine .inl ⟨hnot, ?_⟩
    rw [writeBlocks, hwrite]
    rfl
  · refine .inr ⟨hcan, ?_⟩
    have hlen : (c.take 1024).length ≤ 1024 := List.length_take_le 1024 c
    have hstep : writeBlocks p (n + 1) c 0 d =
        writeBlocks p n (c.drop 1024) ((0 + (c.take 1024).length) % 4294967296) d₁ := by
      rw [writeBlocks, hwrite]
      rfl
    have hall : c.take (1024 * (n + 1)) = c.take 1024 ++ (c.drop 1024).take (1024 * n) := by
      rw [← List.take_add]
      congr 1
      omega
    rw [hstep, hall]
    cases n with
    | zero =>
      refine ⟨d₁, rfl, ?_⟩
      rw [Nat.mul_zero, List.take_zero, List.append_nil]
      exact hwrote
    | succ n =>
      have hc : c ≠ [] := hne.resolve_right (Nat.succ_ne_zero n)
      have hpos : 0 < (c.take 1024).length := by
        rw [List.length_take]
        have hcpos := List.length_pos_iff.mpr hc
        omega
      have hw₁ : d₁.refuses p = false := by rw [hwrote.refuses, hwrote.writable]
      have hlt : (c.take 1024).length < 4294967296 := by omega
      have hle' : (c.take 1024).length + 1024 * (n + 1) ≤ 4294967296 := by
        have hnext : 0 + (c.take 1024).length + 1024 * (n + 1) ≤ 4294967296 :=
          blocks_le hlen ((Nat.zero_add _).trans_le hle)
        rwa [Nat.zero_add] at hnext
      rw [Nat.zero_add, Nat.mod_eq_of_lt hlt]
      obtain ⟨d₂, hrun, hwrote₂⟩ := writeBlocks_next hp (n + 1) (c.drop 1024) _
        hwrote.files_self hwrote.dir hw₁ hpos.ne' hle'
      exact ⟨d₂, hrun, hwrote.trans hwrote₂⟩

/-- What is sent of a content: as many blocks as the size that fits an integer has. -/
def sent (c : Content) : Content := c.take (1024 * (c.length % 4294967296 / 1024 + 1))

theorem sent_eq_iff : sent c = c ↔ c.length < 4294967296 := by
  rw [sent, List.take_eq_self_iff]
  constructor
  · intro h
    by_contra hle
    have hmod := Nat.mod_lt c.length (show 4294967296 > 0 by decide)
    have hdiv := Nat.div_add_mod c.length 4294967296
    omega
  · intro h
    rw [Nat.mod_eq_of_lt h]
    omega

theorem fwrite_file (here there : Disk) (n : ℕ) (hs : Plain source) (ht : Plain target)
    (hfile : here.files source = some c) (hdir : here.dirAt source = none) :
    (here.refuses source = true ∨ Unwritable there target) ∧
        fwrite (n + 1) here source target there = .error .thrown ∨
      ¬(here.refuses source = true ∨ Unwritable there target) ∧
        ∃ d', fwrite (n + 1) here source target there = .ok d' ∧
          Wrote there target (sent c) d' := by
  have hexist : here.fs_is_exist source = .ok true := by
    rw [fs_is_exist_plain hs, hfile]
    rfl
  have hdirectory : here.fs_is_directory source = 0 := by
    rw [fs_is_directory, hdir, hfile]
    rfl
  have hsize : here.fs_get_size source = BitVec.ofNat 32 c.length := by
    rw [fs_get_size, hfile]
  have hstep : fwrite (n + 1) here source target there = (do
      let content ← here.openRead source
      writeBlocks target ((BitVec.ofNat 32 c.length).toNat / 1024 + 1) content 0 there) := by
    rw [fwrite, hexist, hdirectory, hsize]
    rfl
  rw [hstep, openRead_plain hs, hfile, BitVec.toNat_ofNat]
  by_cases hrefuses : here.refuses source = true
  · rw [if_pos hrefuses]
    exact .inl ⟨.inl hrefuses, rfl⟩
  · rw [if_neg hrefuses, or_iff_right hrefuses]
    have hmod := Nat.mod_lt c.length (show 4294967296 > 0 by decide)
    refine writeBlocks_file ht (by omega) ?_
    by_cases hc : c = []
    · subst hc
      exact .inr rfl
    · exact .inl hc

end Sending

end Libobject.Transfer
