import Mathlib.Algebra.Group.Nat.Defs
import Mathlib.Data.List.Basic
import Mathlib.Data.UInt

/-!
# Erasing and writing a memory device

A device is erased in blocks and written through a descriptor that takes an offset. All sizes are
kept in 32 bits. What the kernel answers to the single calls is given with them.
-/

namespace Libobject.Board

/-! ## The device -/

/-- The bytes of a device by their place; those below its size are there. -/
abbrev Cells := ℕ → UInt8

/-- How a memory takes a byte that is written over another one; an erased byte takes every byte. -/
structure Medium where
  program : UInt8 → UInt8 → UInt8
  erased : ∀ new, program 255 new = new

/-- In a flash memory a write clears bits and sets none. -/
def flashMemory : Medium := ⟨fun old new ↦ old &&& new, fun _ ↦ UInt8.neg_one_and⟩

/-- What a call does to the device: an erase may fail, and of the data of a write `count` bytes
arrive. -/
inductive Access
  | erase (start length : ℕ) (done : Bool)
  | read (start length : ℕ)
  | write (start : ℕ) (data : List UInt8) (count : ℕ)
  deriving DecidableEq

namespace Access

def start : Access → ℕ
  | erase start _ _ | read start _ | write start _ _ => start

def length : Access → ℕ
  | erase _ length _ | read _ length => length
  | write _ data _ => data.length

/-- The bytes of the device after the call. -/
def apply (medium : Medium) (cells : Cells) : Access → Cells
  | erase start length done => fun q ↦
      if done ∧ start ≤ q ∧ q < start + length then 255 else cells q
  | read _ _ => cells
  | write start data count => fun q ↦
      if start ≤ q ∧ q < start + min count data.length then
        medium.program (cells q) (data.getD (q - start) 0)
      else cells q

end Access

def cellsAfter (medium : Medium) (cells : Cells) (accesses : List Access) : Cells :=
  accesses.foldl (Access.apply medium) cells

/-! ## The driver -/

def MTD_ERR_ERROR : ℤ := 0x2
def MTD_ERR_WRITE : ℤ := 0x5
def MTD_ERR_READ : ℤ := 0x6
def MTD_ERR_INVALID_ARG : ℤ := 0x7
def MTD_ERR_NOT_INIT : ℤ := 0x8

/-- A driver, with what it keeps of the device's information. -/
structure Mtd where
  fd : ℤ
  size : UInt32
  erasesize : UInt32

/-- What a call returns and what it did to the device. -/
structure Outcome where
  ret : ℤ
  accesses : List Access
  deriving DecidableEq

/-- `EXEC` casts the value to `int` and throws where it is negative. -/
def execFails (value : ℤ) : Bool := decide (value.bmod (2 ^ 32) < 0)

/-- What a call returns that has thrown. -/
def Thrown (ret : ℤ) : Prop := ret < 0 ∧ execFails ret = true
  deriving Decidable

namespace Mtd

variable (mtd : Mtd)

/-! The kernel's side: it refuses what begins or is erased beyond the device, and cuts what reaches
beyond it. -/

def ioctl_memerase (start length : UInt32) (done : Bool) : Outcome :=
  if start.toNat + length.toNat ≤ mtd.size.toNat then
    ⟨if done then 0 else -1, [.erase start.toNat length.toNat done]⟩
  else ⟨-1, []⟩

def lseek (offset : UInt32) : ℤ := if offset ≤ mtd.size then offset.toNat else -1

def sys_read (offset size : UInt32) (answer : Option ℕ) : Outcome :=
  let length := min size.toNat (mtd.size.toNat - offset.toNat)
  ⟨answer.elim (-1) (min · length), [.read offset.toNat length]⟩

def sys_write (offset : UInt32) (buf : List UInt8) (answer : Option ℕ) : Outcome :=
  if mtd.size ≤ offset then ⟨-1, []⟩
  else
    let data := buf.take (mtd.size.toNat - offset.toNat)
    ⟨answer.elim (-1) (min · data.length), [.write offset.toNat data (answer.getD 0)]⟩

/-- The loop over the blocks. It makes at most as many rounds as there is `fuel`; `i` counts them.
-/
def erase_blocks (answer : ℕ → Bool) (fin : UInt32) : ℕ → ℕ → UInt32 → Option Outcome
  | 0, _, _ => none
  | fuel + 1, i, block =>
    if block < fin then
      let call := mtd.ioctl_memerase block mtd.erasesize (answer i)
      if execFails call.ret then some ⟨-1, call.accesses⟩
      else (erase_blocks answer fin fuel (i + 1) (block + mtd.erasesize)).map fun rest ↦
        ⟨rest.ret, call.accesses ++ rest.accesses⟩
    else some ⟨1, []⟩

/-- A call that does not throw returns 1, as `CATCH` gives it. -/
def erase (offset size : UInt32) (answer : ℕ → Bool) (fuel : ℕ) : Option Outcome :=
  if mtd.fd < 0 then some ⟨-MTD_ERR_NOT_INIT, []⟩
  else if mtd.erasesize = 0 then some ⟨-MTD_ERR_ERROR, []⟩
  else if offset % mtd.erasesize ≠ 0 then some ⟨-MTD_ERR_INVALID_ARG, []⟩
  else if size % mtd.erasesize ≠ 0 then some ⟨-MTD_ERR_INVALID_ARG, []⟩
  else if mtd.size < offset + size then some ⟨-MTD_ERR_INVALID_ARG, []⟩
  else mtd.erase_blocks answer (offset + size) fuel 0 offset

/-- With what the buffer holds afterwards, if it is not null. -/
def read (cells : Cells) (offset : UInt32) (buf : Option (List UInt8)) (size : UInt32)
    (answer : Option ℕ) : Outcome × Option (List UInt8) :=
  match buf with
  | none => (⟨-1, []⟩, none)
  | some bs =>
    if mtd.fd < 0 then (⟨-MTD_ERR_NOT_INIT, []⟩, bs)
    else if mtd.size < offset + size then (⟨-MTD_ERR_INVALID_ARG, []⟩, bs)
    else if execFails (mtd.lseek offset) then (⟨-1, []⟩, bs)
    else
      let call := mtd.sys_read offset size answer
      if call.ret < 0 then (⟨-MTD_ERR_READ, call.accesses⟩, bs)
      else
        let nread := call.ret.toNat
        (⟨1, call.accesses⟩,
          some ((List.range nread).map (fun i ↦ cells (offset.toNat + i)) ++ bs.drop nread))

def write (offset : UInt32) (buf : Option (List UInt8)) (size : UInt32) (answer : Option ℕ) :
    Outcome :=
  match buf with
  | none => ⟨-1, []⟩
  | some bs =>
    if mtd.fd < 0 then ⟨-MTD_ERR_NOT_INIT, []⟩
    else if mtd.size < offset + size then ⟨-MTD_ERR_INVALID_ARG, []⟩
    else if execFails (mtd.lseek offset) then ⟨-1, []⟩
    else
      let call := mtd.sys_write offset (bs.take size.toNat) answer
      if call.ret < 0 then ⟨-MTD_ERR_WRITE, call.accesses⟩ else ⟨1, call.accesses⟩

/-- What is answered to the calls that `write_file` makes, by their number: whether an erase
succeeds, how many bytes a read of the file gives, how many a write takes where it does not fail. -/
structure Answers where
  erase : ℕ → Bool
  malloc : Bool
  fread : ℕ → ℕ
  write : ℕ → Option ℕ

/-- The loop over the chunks, with the file from its place on. -/
def write_chunks (offset : UInt32) (a : Answers) :
    ℕ → ℕ → List UInt8 → UInt32 → UInt32 → Option Outcome
  | 0, _, _, _, _ => none
  | fuel + 1, i, file, remaining, written =>
    if remaining > 0 then
      let nread := if remaining < mtd.erasesize then remaining else mtd.erasesize
      let chunk := file.take nread.toNat
      if min (a.fread i) chunk.length ≠ nread.toNat then some ⟨-MTD_ERR_READ, []⟩
      else
        let call := mtd.write (offset + written) (some chunk) nread (a.write i)
        if execFails call.ret then some ⟨-1, call.accesses⟩
        else (write_chunks offset a fuel (i + 1) (file.drop nread.toNat) (remaining - nread)
          (written + nread)).map fun rest ↦ ⟨rest.ret, call.accesses ++ rest.accesses⟩
    else some ⟨1, []⟩

def erase_size (file_size : UInt32) : UInt32 :=
  (file_size + mtd.erasesize - 1) / mtd.erasesize * mtd.erasesize

/-- `file` is missing where it cannot be opened. -/
def write_file (offset : UInt32) (file : Option (List UInt8)) (a : Answers) (fuel : ℕ) :
    Option Outcome :=
  if mtd.fd < 0 then some ⟨-MTD_ERR_NOT_INIT, []⟩
  else
    match file with
    | none => some ⟨-MTD_ERR_ERROR, []⟩
    | some image =>
      if image.length = 0 then some ⟨-MTD_ERR_INVALID_ARG, []⟩
      else
        let file_size := UInt32.ofNat image.length
        if mtd.size < offset + file_size then some ⟨-MTD_ERR_INVALID_ARG, []⟩
        else do
          let erased ← mtd.erase offset (mtd.erase_size file_size) a.erase fuel
          if execFails erased.ret then some ⟨-1, erased.accesses⟩
          else if ¬ a.malloc then some ⟨-MTD_ERR_ERROR, erased.accesses⟩
          else
            let rest ← mtd.write_chunks offset a fuel 0 image file_size 0
            some ⟨rest.ret, erased.accesses ++ rest.accesses⟩

/-! ## What the calls touch -/

/-- A call for `[offset, offset + size)` touches nothing but these bytes, as far as the device has
them; where it succeeds they are all on the device, unless the sum does not fit 32 bits. -/
structure Bounded (offset size : UInt32) (out : Outcome) : Prop where
  within : ∀ acc ∈ out.accesses, ∀ q, acc.start ≤ q → q < acc.start + acc.length →
    offset.toNat ≤ q ∧ q < offset.toNat + size.toNat ∧ q < mtd.size.toNat
  fits : 0 ≤ out.ret →
    (offset.toNat + size.toNat ≤ mtd.size.toNat ↔ offset.toNat + size.toNat < 2 ^ 32)

/-- The image lies on the device at `offset`, and no byte outside the blocks that it takes has
changed. -/
structure Flashed (medium : Medium) (cells : Cells) (offset : UInt32) (image : List UInt8)
    (out : Outcome) : Prop where
  fits : offset.toNat + image.length ≤ mtd.size.toNat
  holds : ∀ p, (hp : p < image.length) →
    cellsAfter medium cells out.accesses (offset.toNat + p) = image[p]
  frame : ∀ q, (q < offset.toNat ∨ offset.toNat +
      (image.length + mtd.erasesize.toNat - 1) / mtd.erasesize.toNat * mtd.erasesize.toNat ≤ q) →
    cellsAfter medium cells out.accesses q = cells q

/-- The image fits the device, and what a write leaves out is there already. The blocks are erased
before, unless the rounded size of the image does not fit 32 bits. -/
def Lands (medium : Medium) (cells : Cells) (offset : UInt32) (image : List UInt8) (a : Answers) :
    Prop :=
  offset.toNat + image.length ≤ mtd.size.toNat ∧
    ∀ p, (hp : p < image.length) →
      let old := if image.length + mtd.erasesize.toNat ≤ 2 ^ 32 then 255
        else cells (offset.toNat + p)
      if p % mtd.erasesize.toNat < (a.write (p / mtd.erasesize.toNat)).getD 0 then
        medium.program old image[p] = image[p]
      else old = image[p]

variable {mtd} {offset size : UInt32} {out : Outcome}

theorem bounded_of_empty {ret : ℤ} (hret : ret < 0) : mtd.Bounded offset size ⟨ret, []⟩ :=
  ⟨fun _ hacc ↦ absurd hacc List.not_mem_nil, fun h ↦ absurd h (not_le_of_gt hret)⟩

theorem fits_iff (h : ¬ mtd.size < offset + size) :
    offset.toNat + size.toNat ≤ mtd.size.toNat ↔ offset.toNat + size.toNat < 2 ^ 32 := by
  rw [UInt32.lt_iff_toNat_lt, UInt32.toNat_add] at h
  have hsize := mtd.size.toNat_lt
  constructor
  · intro hle
    omega
  · intro hlt
    rw [Nat.mod_eq_of_lt hlt] at h
    omega

/-! ## Erasing -/

theorem erase_blocks_of_le {answer : ℕ → Bool} {fin block : UInt32} (h : fin ≤ block) (fuel i : ℕ) :
    mtd.erase_blocks answer fin (fuel + 1) i block = some ⟨1, []⟩ :=
  if_neg (UInt32.not_lt.mpr h)

theorem erase_blocks_step {answer : ℕ → Bool} {fin block : UInt32} (hlt : block < fin)
    (hin : block.toNat + mtd.erasesize.toNat ≤ mtd.size.toNat) (fuel i : ℕ) :
    mtd.erase_blocks answer fin (fuel + 1) i block =
      if answer i then
        (mtd.erase_blocks answer fin fuel (i + 1) (block + mtd.erasesize)).map fun rest ↦
          ⟨rest.ret, .erase block.toNat mtd.erasesize.toNat true :: rest.accesses⟩
      else some ⟨-1, [.erase block.toNat mtd.erasesize.toNat false]⟩ := by
  rw [erase_blocks, if_pos hlt, ioctl_memerase, if_pos hin]
  cases answer i <;> rfl

theorem erase_blocks_spec (hes : 0 < mtd.erasesize.toNat) (answer : ℕ → Bool) {fin : UInt32}
    (hfin : fin.toNat ≤ mtd.size.toNat) {m i : ℕ} {block : UInt32}
    (hm : block.toNat + m * mtd.erasesize.toNat = fin.toNat) :
    ∃ out, (∀ fuel, m < fuel → mtd.erase_blocks answer fin fuel i block = some out) ∧
      (∀ acc ∈ out.accesses, block.toNat ≤ acc.start ∧ acc.start + acc.length ≤ fin.toNat) ∧
      (¬ execFails out.ret → ∀ medium cells q, cellsAfter medium cells out.accesses q =
        if block.toNat ≤ q ∧ q < fin.toNat then 255 else cells q) := by
  induction m generalizing i block with
  | zero =>
    rw [Nat.zero_mul, Nat.add_zero] at hm
    have hle : fin ≤ block := UInt32.le_iff_toNat_le.mpr hm.ge
    refine ⟨⟨1, []⟩, fun fuel hfuel ↦ ?_, fun _ h ↦ absurd h List.not_mem_nil, ?_⟩
    · obtain ⟨fuel, rfl⟩ := Nat.exists_eq_add_one_of_ne_zero (Nat.ne_of_gt hfuel)
      exact erase_blocks_of_le hle fuel i
    · intro _ medium cells q
      exact (if_neg (by omega)).symm
  | succ m ih =>
    rw [Nat.add_mul, Nat.one_mul] at hm
    have hlt : block < fin := UInt32.lt_iff_toNat_lt.mpr (by omega)
    have hnext : (block + mtd.erasesize).toNat = block.toNat + mtd.erasesize.toNat := by
      rw [UInt32.toNat_add]
      exact Nat.mod_eq_of_lt (by have := fin.toNat_lt; omega)
    have hin : block.toNat + mtd.erasesize.toNat ≤ mtd.size.toNat := by omega
    cases hanswer : answer i with
    | false =>
      refine ⟨⟨-1, [.erase block.toNat mtd.erasesize.toNat false]⟩, fun fuel hfuel ↦ ?_, ?_,
        fun h ↦ absurd rfl h⟩
      · obtain ⟨fuel, rfl⟩ := Nat.exists_eq_add_one_of_ne_zero (Nat.ne_zero_of_lt hfuel)
        rw [erase_blocks_step hlt hin, hanswer]
        rfl
      · intro acc hacc
        rw [List.mem_singleton.mp hacc]
        exact ⟨le_rfl, by simp only [Access.start, Access.length]; omega⟩
    | true =>
      obtain ⟨rest, hrest, hwithin, hcells⟩ :=
        @ih (i + 1) (block + mtd.erasesize) (by rw [hnext]; omega)
      rw [hnext] at hwithin hcells
      refine ⟨⟨rest.ret, .erase block.toNat mtd.erasesize.toNat true :: rest.accesses⟩,
        fun fuel hfuel ↦ ?_, ?_, ?_⟩
      · obtain ⟨fuel, rfl⟩ := Nat.exists_eq_add_one_of_ne_zero (Nat.ne_zero_of_lt hfuel)
        rw [erase_blocks_step hlt hin, hanswer, if_pos rfl,
          hrest fuel (Nat.lt_of_succ_lt_succ hfuel)]
        rfl
      · intro acc hacc
        rcases List.mem_cons.mp hacc with rfl | hacc
        · exact ⟨le_rfl, by simp only [Access.start, Access.length]; omega⟩
        · exact ⟨by have := (hwithin acc hacc).1; omega, (hwithin acc hacc).2⟩
      · intro hret medium cells q
        refine (hcells hret medium _ q).trans ?_
        simp only [Access.apply, true_and]
        split_ifs <;> first | rfl | omega

theorem erase_cases (mtd : Mtd) (offset size : UInt32) (answer : ℕ → Bool) :
    (∃ ret, Thrown ret ∧ ∀ fuel, mtd.erase offset size answer fuel = some ⟨ret, []⟩) ∨
    (offset % mtd.erasesize = 0 ∧ size % mtd.erasesize = 0 ∧ ¬ mtd.size < offset + size ∧
      ∀ fuel, mtd.erase offset size answer fuel =
        mtd.erase_blocks answer (offset + size) fuel 0 offset) := by
  by_cases h₁ : mtd.fd < 0
  · exact .inl ⟨-MTD_ERR_NOT_INIT, by decide, fun fuel ↦ if_pos h₁⟩
  by_cases h₂ : mtd.erasesize = 0
  · exact .inl ⟨-MTD_ERR_ERROR, by decide, fun fuel ↦ by rw [erase, if_neg h₁, if_pos h₂]⟩
  by_cases h₃ : offset % mtd.erasesize = 0
  swap
  · exact .inl ⟨-MTD_ERR_INVALID_ARG, by decide, fun fuel ↦ by
      rw [erase, if_neg h₁, if_neg h₂, if_pos h₃]⟩
  by_cases h₄ : size % mtd.erasesize = 0
  swap
  · exact .inl ⟨-MTD_ERR_INVALID_ARG, by decide, fun fuel ↦ by
      rw [erase, if_neg h₁, if_neg h₂, if_neg (not_not.mpr h₃), if_pos h₄]⟩
  by_cases h₅ : mtd.size < offset + size
  · exact .inl ⟨-MTD_ERR_INVALID_ARG, by decide, fun fuel ↦ by
      rw [erase, if_neg h₁, if_neg h₂, if_neg (not_not.mpr h₃), if_neg (not_not.mpr h₄),
        if_pos h₅]⟩
  · exact .inr ⟨h₃, h₄, h₅, fun fuel ↦ by
      rw [erase, if_neg h₁, if_neg h₂, if_neg (not_not.mpr h₃), if_neg (not_not.mpr h₄),
        if_neg h₅]⟩

theorem exists_blocks (hsize : size % mtd.erasesize = 0)
    (hlt : offset.toNat + size.toNat < 2 ^ 32) :
    ∃ m, m ≤ size.toNat ∧ offset.toNat + m * mtd.erasesize.toNat = (offset + size).toNat := by
  have hmod : size.toNat % mtd.erasesize.toNat = 0 := by
    rw [← UInt32.toNat_mod, hsize]
    rfl
  refine ⟨size.toNat / mtd.erasesize.toNat, Nat.div_le_self _ _, ?_⟩
  rw [UInt32.toNat_add, Nat.mod_eq_of_lt hlt, Nat.div_mul_cancel (Nat.dvd_of_mod_eq_zero hmod)]

theorem carry_le (h : 2 ^ 32 ≤ offset.toNat + size.toNat) : offset + size ≤ offset := by
  rw [UInt32.le_iff_toNat_le, UInt32.toNat_add]
  have hoff := offset.toNat_lt
  have hsize := size.toNat_lt
  omega

theorem erase_bounded (hes : 0 < mtd.erasesize.toNat) (offset size : UInt32) (answer : ℕ → Bool) :
    ∃ out, (∀ fuel, size.toNat < fuel → mtd.erase offset size answer fuel = some out) ∧
      mtd.Bounded offset size out := by
  rcases mtd.erase_cases offset size answer with ⟨ret, hret, hout⟩ | ⟨-, hsize, hsum, hrun⟩
  · exact ⟨_, fun fuel _ ↦ hout fuel, bounded_of_empty hret.1⟩
  by_cases hlt : offset.toNat + size.toNat < 2 ^ 32
  · have hfit := (fits_iff hsum).mpr hlt
    have hend : (offset + size).toNat = offset.toNat + size.toNat := by
      rw [UInt32.toNat_add, Nat.mod_eq_of_lt hlt]
    obtain ⟨m, hm, hblocks⟩ := exists_blocks hsize hlt
    obtain ⟨out, hout, hin, -⟩ :=
      erase_blocks_spec hes answer (hend.trans_le hfit) (i := 0) hblocks
    refine ⟨out, fun fuel hfuel ↦ (hrun fuel).trans (hout fuel (by omega)), ?_, ?_⟩
    · intro acc hacc q hq hq'
      have := hin acc hacc
      omega
    · exact fun _ ↦ iff_of_true hfit hlt
  · refine ⟨⟨1, []⟩, fun fuel hfuel ↦ ?_, ?_, fun _ ↦ fits_iff hsum⟩
    · obtain ⟨fuel, rfl⟩ := Nat.exists_eq_add_one_of_ne_zero (Nat.ne_zero_of_lt hfuel)
      rw [hrun, erase_blocks_of_le (carry_le (not_lt.mp hlt))]
    · exact fun _ h ↦ absurd h List.not_mem_nil

/-! ## Reading and writing -/

theorem lseek_of_not_execFails (h : ¬ execFails (mtd.lseek offset)) :
    offset ≤ mtd.size ∧ offset.toNat < 2 ^ 31 := by
  rw [lseek] at h
  split at h
  · next hle =>
    refine ⟨hle, ?_⟩
    have hoff := offset.toNat_lt
    rw [execFails, decide_eq_true_eq, Int.bmod_def] at h
    split at h <;> omega
  · exact absurd rfl h

theorem read_bounded (cells : Cells) (offset : UInt32) (buf : Option (List UInt8)) (size : UInt32)
    (answer : Option ℕ) : mtd.Bounded offset size (mtd.read cells offset buf size answer).1 := by
  cases buf with
  | none => exact bounded_of_empty (Int.negSucc_lt_zero 0)
  | some bs =>
    rw [read]
    split
    · exact bounded_of_empty (by decide)
    split
    · exact bounded_of_empty (by decide)
    next hsum =>
    split
    · exact bounded_of_empty (by decide)
    have hwithin : ∀ acc ∈ (mtd.sys_read offset size answer).accesses, ∀ q, acc.start ≤ q →
        q < acc.start + acc.length →
        offset.toNat ≤ q ∧ q < offset.toNat + size.toNat ∧ q < mtd.size.toNat := by
      intro acc hacc q hq hq'
      rw [List.mem_singleton.mp hacc] at hq hq'
      simp only [Access.start, Access.length] at hq hq'
      omega
    dsimp only
    split
    · exact ⟨hwithin, fun h ↦ absurd h (by decide : ¬ (0 : ℤ) ≤ -MTD_ERR_READ)⟩
    · exact ⟨hwithin, fun _ ↦ fits_iff hsum⟩

/-- A write is refused, or it moves what lies on the device of the data, as far as the kernel
takes it. -/
theorem write_cases (mtd : Mtd) (offset : UInt32) (buf : Option (List UInt8)) (size : UInt32)
    (answer : Option ℕ) :
    (∃ ret, Thrown ret ∧ mtd.write offset buf size answer = ⟨ret, []⟩) ∨
    ∃ bs, buf = some bs ∧ ¬ mtd.size < offset + size ∧ offset < mtd.size ∧ offset.toNat < 2 ^ 31 ∧
      mtd.write offset buf size answer =
        ⟨if answer.isSome then 1 else -MTD_ERR_WRITE, [.write offset.toNat
          ((bs.take size.toNat).take (mtd.size.toNat - offset.toNat)) (answer.getD 0)]⟩ := by
  cases buf with
  | none => exact .inl ⟨-1, by decide, rfl⟩
  | some bs =>
    rw [write]
    split
    · exact .inl ⟨-MTD_ERR_NOT_INIT, by decide, rfl⟩
    split
    · exact .inl ⟨-MTD_ERR_INVALID_ARG, by decide, rfl⟩
    split
    · exact .inl ⟨-1, by decide, rfl⟩
    next hsum hseek =>
    obtain ⟨-, hoff⟩ := lseek_of_not_execFails hseek
    dsimp only [sys_write]
    by_cases hle : mtd.size ≤ offset
    · rw [if_pos hle]
      exact .inl ⟨-MTD_ERR_WRITE, by decide, rfl⟩
    · rw [if_neg hle]
      refine .inr ⟨bs, rfl, hsum, UInt32.not_le.mp hle, hoff, ?_⟩
      cases answer with
      | none => rfl
      | some n => exact if_neg (not_lt.mpr (le_min (Int.natCast_nonneg _) (Int.natCast_nonneg _)))

theorem write_bounded (offset : UInt32) (buf : Option (List UInt8)) (size : UInt32)
    (answer : Option ℕ) : mtd.Bounded offset size (mtd.write offset buf size answer) := by
  rcases mtd.write_cases offset buf size answer with ⟨ret, hret, hout⟩ | ⟨bs, -, hsum, -, -, hout⟩
  · rw [hout]
    exact bounded_of_empty hret.1
  · rw [hout]
    refine ⟨fun acc hacc q hq hq' ↦ ?_, fun _ ↦ fits_iff hsum⟩
    rw [List.mem_singleton.mp hacc] at hq hq'
    simp only [Access.start, Access.length, List.length_take] at hq hq'
    omega

theorem write_eq_of_not_thrown {bs : List UInt8} {answer : Option ℕ}
    (hlen : bs.length = size.toNat) (hfit : offset.toNat + size.toNat ≤ mtd.size.toNat)
    (h : ¬ execFails (mtd.write offset (some bs) size answer).ret) :
    offset.toNat < 2 ^ 31 ∧ mtd.write offset (some bs) size answer =
      ⟨1, [.write offset.toNat bs (answer.getD 0)]⟩ := by
  rcases mtd.write_cases offset (some bs) size answer with
    ⟨ret, hret, hout⟩ | ⟨_, ⟨⟩, -, -, hoff, hout⟩
  · rw [hout] at h
    exact absurd hret.2 h
  · rw [hout] at h ⊢
    cases answer with
    | none => exact absurd rfl h
    | some n =>
      rw [List.take_of_length_le hlen.le, List.take_of_length_le (by omega)]
      exact ⟨hoff, rfl⟩

/-! ## Writing a file -/

/-- What lies at a place of the chunks from `start` on after these were written, the first one by
the `i`-th write. -/
def settled (medium : Medium) (es : ℕ) (a : Answers) (i : ℕ) (file : List UInt8) (p : ℕ)
    (old : UInt8) : UInt8 :=
  if p < file.length ∧ p % es < (a.write (i + p / es)).getD 0 then
    medium.program old (file.getD p 0)
  else old

theorem settled_step (medium : Medium) {es : ℕ} (hes : 0 < es) (a : Answers) (i : ℕ)
    (file : List UInt8) (p : ℕ) (old : UInt8) :
    settled medium es a i file p old =
      if p < es then
        if p < min ((a.write i).getD 0) (file.take es).length then
          medium.program old ((file.take es).getD p 0)
        else old
      else settled medium es a (i + 1) (file.drop es) (p - es) old := by
  by_cases hp : p < es
  · rw [if_pos hp, settled, Nat.mod_eq_of_lt hp, Nat.div_eq_of_lt hp, Nat.add_zero,
      List.getD_eq_getElem?_getD,
      List.getD_eq_getElem?_getD, List.getElem?_take_of_lt hp, List.length_take]
    exact if_congr (by omega) rfl rfl
  · have hes' : es ≤ p := not_lt.mp hp
    rw [if_neg hp, settled, settled, List.length_drop, List.getD_eq_getElem?_getD,
      List.getD_eq_getElem?_getD, List.getElem?_drop, Nat.add_sub_cancel' hes',
      ← Nat.mod_eq_sub_mod hes', Nat.div_eq_sub_div hes hes', Nat.add_assoc i 1,
      Nat.add_comm 1]
    exact if_congr (and_congr_left' (by omega)) rfl rfl

theorem settled_of_length_le {medium : Medium} {es : ℕ} {a : Answers} {i : ℕ} {file : List UInt8}
    {p : ℕ} (hp : file.length ≤ p) (old : UInt8) : settled medium es a i file p old = old :=
  if_neg fun h ↦ absurd h.1 (not_lt.mpr hp)

theorem settled_eq_iff {medium : Medium} {es : ℕ} {a : Answers} {file : List UInt8} {p : ℕ}
    (hp : p < file.length) (old : UInt8) :
    settled medium es a 0 file p old = file[p] ↔
      if p % es < (a.write (p / es)).getD 0 then medium.program old file[p] = file[p]
      else old = file[p] := by
  rw [settled, Nat.zero_add, List.getD_eq_getElem?_getD, List.getElem?_eq_getElem hp,
    Option.getD_some]
  simp only [hp, true_and]
  split <;> rfl

theorem settled_nil (medium : Medium) (es : ℕ) (a : Answers) (i p : ℕ) (old : UInt8) :
    settled medium es a i [] p old = old :=
  settled_of_length_le (Nat.zero_le p) old

theorem write_chunks_step {a : Answers} {fuel i : ℕ}
    {file : List UInt8} {remaining written : UInt32} (hlen : file.length = remaining.toNat)
    (hfit : offset.toNat + written.toNat + remaining.toNat ≤ mtd.size.toNat) (hne : file ≠ [])
    (h : mtd.write_chunks offset a (fuel + 1) i file remaining written = some out)
    (hret : 0 ≤ out.ret) :
    ∃ (nread : UInt32) (rest : Outcome),
      nread.toNat = min remaining.toNat mtd.erasesize.toNat ∧
      mtd.write_chunks offset a fuel (i + 1) (file.drop mtd.erasesize.toNat) (remaining - nread)
        (written + nread) = some rest ∧ out = ⟨rest.ret,
          .write (offset.toNat + written.toNat) (file.take mtd.erasesize.toNat)
            ((a.write i).getD 0) :: rest.accesses⟩ ∧
      offset.toNat + written.toNat < 2 ^ 31 := by
  have hsize := mtd.size.toNat_lt
  have hsum : (offset + written).toNat = offset.toNat + written.toNat := by
    rw [UInt32.toNat_add]
    exact Nat.mod_eq_of_lt (by omega)
  have hremaining : remaining > 0 :=
    UInt32.lt_iff_toNat_lt.mpr (hlen ▸ List.length_pos_of_ne_nil hne)
  rw [write_chunks, if_pos hremaining] at h
  generalize hn : (if remaining < mtd.erasesize then remaining else mtd.erasesize) = nread at h
  have hnread : nread.toNat = min remaining.toNat mtd.erasesize.toNat := by
    rw [← hn]
    split
    · next hlt => exact (min_eq_left (UInt32.lt_iff_toNat_lt.mp hlt).le).symm
    · next hlt => exact (min_eq_right (UInt32.le_iff_toNat_le.mp (UInt32.not_lt.mp hlt))).symm
  have htake : file.take nread.toNat = file.take mtd.erasesize.toNat := by
    rw [List.take_eq_take_iff]
    omega
  have hdrop : file.drop nread.toNat = file.drop mtd.erasesize.toNat := by
    rw [List.drop_eq_drop_iff]
    omega
  dsimp only at h
  rw [htake, hdrop] at h
  split at h
  · cases h
    exact absurd hret (by decide : ¬ (0 : ℤ) ≤ -MTD_ERR_READ)
  split at h
  · cases h
    exact absurd hret (by decide : ¬ (0 : ℤ) ≤ -1)
  next hcall =>
  obtain ⟨rest, hrest, hout⟩ := Option.map_eq_some_iff.mp h
  obtain ⟨hoff, hwrite⟩ := write_eq_of_not_thrown (by rw [List.length_take]; omega) (by omega) hcall
  rw [hwrite, hsum] at hout
  exact ⟨nread, rest, hnread, hrest, hout.symm, hsum ▸ hoff⟩

theorem write_chunks_spec (hes : 0 < mtd.erasesize.toNat) {a : Answers} {fuel i : ℕ}
    {file : List UInt8} {remaining written : UInt32} (hlen : file.length = remaining.toNat)
    (hfit : offset.toNat + written.toNat + remaining.toNat ≤ mtd.size.toNat)
    (h : mtd.write_chunks offset a fuel i file remaining written = some out) (hret : 0 ≤ out.ret) :
    (∀ k, k * mtd.erasesize.toNat < file.length →
      offset.toNat + written.toNat + k * mtd.erasesize.toNat < 2 ^ 31) ∧
    ∀ medium cells q, cellsAfter medium cells out.accesses q =
      if offset.toNat + written.toNat ≤ q then
        settled medium mtd.erasesize.toNat a i file (q - (offset.toNat + written.toNat)) (cells q)
      else cells q := by
  have hsize := mtd.size.toNat_lt
  induction fuel generalizing i file remaining written out with
  | zero => exact absurd h (Option.some_ne_none _).symm
  | succ fuel ih =>
    by_cases hne : file = []
    · subst hne
      have hzero : remaining = 0 := UInt32.toNat_inj.mp hlen.symm
      rw [write_chunks, if_neg (hzero ▸ UInt32.lt_irrefl 0)] at h
      cases h
      refine ⟨fun k hk ↦ absurd hk (Nat.not_lt_zero _), fun medium cells q ↦ ?_⟩
      rw [settled_nil, ite_self]
      rfl
    obtain ⟨nread, rest, hnread, hrest, rfl, hoff⟩ := write_chunks_step hlen hfit hne h hret
    have hremaining : (remaining - nread).toNat = remaining.toNat - nread.toNat :=
      UInt32.toNat_sub_of_le _ _ (UInt32.le_iff_toNat_le.mpr (by omega))
    have hwritten : (written + nread).toNat = written.toNat + nread.toNat := by
      rw [UInt32.toNat_add]
      exact Nat.mod_eq_of_lt (by omega)
    obtain ⟨hplaces, hcells⟩ :=
      ih (by rw [List.length_drop, hremaining]; omega) (by omega) hrest hret
    constructor
    · intro k hk
      cases k with
      | zero => omega
      | succ k =>
        rw [Nat.add_mul, Nat.one_mul] at hk ⊢
        have := hplaces k (by rw [List.length_drop]; omega)
        omega
    · intro medium cells q
      refine (hcells medium _ q).trans ?_
      simp only [Access.apply]
      by_cases hq : offset.toNat + written.toNat ≤ q
      · obtain ⟨p, rfl⟩ := Nat.exists_eq_add_of_le hq
        rw [if_pos hq, Nat.add_sub_cancel_left, settled_step medium hes a i file p, hwritten]
        simp only [hq, true_and, Nat.add_lt_add_iff_left]
        have hlast (hp : nread.toNat ≤ p) (hp' : p < mtd.erasesize.toNat) :
            file.drop mtd.erasesize.toNat = [] := List.drop_eq_nil_of_le (by omega)
        by_cases hp : p < mtd.erasesize.toNat
        · rw [if_pos hp]
          split
          · rw [hlast (by omega) hp, settled_nil]
          · rfl
        · have hdata : ¬ p < min ((a.write i).getD 0) (file.take mtd.erasesize.toNat).length := by
            rw [List.length_take]
            omega
          rw [if_neg hp, if_neg hdata]
          by_cases hend : file.drop mtd.erasesize.toNat = []
          · rw [hend, settled_nil, settled_nil, ite_self]
          · have hes' : mtd.erasesize.toNat ≤ file.length :=
              not_lt.mp fun hlt ↦ hend (List.drop_eq_nil_of_le hlt.le)
            have hnext : offset.toNat + (written.toNat + nread.toNat) ≤
                offset.toNat + written.toNat + p := by omega
            rw [if_pos hnext, show offset.toNat + written.toNat + p -
              (offset.toNat + (written.toNat + nread.toNat)) = p - mtd.erasesize.toNat by omega]
      · rw [if_neg (by omega), if_neg (by omega), if_neg hq]

theorem write_chunks_ends (hes : 0 < mtd.erasesize.toNat) (a : Answers) {n i : ℕ}
    {file : List UInt8} {remaining written : UInt32} (hn : remaining.toNat ≤ n) :
    ∃ out, ∀ fuel, n < fuel →
      mtd.write_chunks offset a fuel i file remaining written = some out := by
  induction n generalizing i file remaining written with
  | zero =>
    refine ⟨⟨1, []⟩, fun fuel hfuel ↦ ?_⟩
    obtain ⟨fuel, rfl⟩ := Nat.exists_eq_add_one_of_ne_zero (Nat.ne_of_gt hfuel)
    exact if_neg fun h ↦ absurd (UInt32.lt_iff_toNat_lt.mp h) (not_lt.mpr hn)
  | succ n ih =>
    by_cases hzero : remaining > 0
    swap
    · refine ⟨⟨1, []⟩, fun fuel hfuel ↦ ?_⟩
      obtain ⟨fuel, rfl⟩ := Nat.exists_eq_add_one_of_ne_zero (Nat.ne_zero_of_lt hfuel)
      exact if_neg hzero
    have hlt := UInt32.lt_iff_toNat_lt.mp hzero
    let nread := if remaining < mtd.erasesize then remaining else mtd.erasesize
    have hnread : 0 < nread.toNat ∧ nread.toNat ≤ remaining.toNat := by
      simp only [nread]
      split
      · exact ⟨hlt, le_rfl⟩
      · next h => exact ⟨hes, UInt32.le_iff_toNat_le.mp (UInt32.not_lt.mp h)⟩
    obtain ⟨rest, hrest⟩ := @ih (i + 1) (file.drop nread.toNat)
      (remaining - nread) (written + nread) (by
        rw [UInt32.toNat_sub_of_le _ _ (UInt32.le_iff_toNat_le.mpr hnread.2)]
        omega)
    let call := mtd.write (offset + written) (some (file.take nread.toNat)) nread (a.write i)
    refine ⟨if min (a.fread i) (file.take nread.toNat).length ≠ nread.toNat then
        ⟨-MTD_ERR_READ, []⟩
      else if execFails call.ret then ⟨-1, call.accesses⟩
      else ⟨rest.ret, call.accesses ++ rest.accesses⟩, fun fuel hfuel ↦ ?_⟩
    obtain ⟨fuel, rfl⟩ := Nat.exists_eq_add_one_of_ne_zero (Nat.ne_zero_of_lt hfuel)
    rw [write_chunks, if_pos hzero]
    dsimp only
    rw [hrest fuel (Nat.lt_of_succ_lt_succ hfuel), apply_ite some, apply_ite some]
    rfl

theorem toNat_erase_size (hes : 0 < mtd.erasesize.toNat) {n : ℕ} (hpos : 0 < n) (hn : n < 2 ^ 32) :
    (mtd.erase_size (UInt32.ofNat n)).toNat =
      if n + mtd.erasesize.toNat ≤ 2 ^ 32 then
        (n + mtd.erasesize.toNat - 1) / mtd.erasesize.toNat * mtd.erasesize.toNat
      else 0 := by
  have hesize := mtd.erasesize.toNat_lt
  have hsum : (UInt32.ofNat n + mtd.erasesize - 1).toNat =
      if n + mtd.erasesize.toNat ≤ 2 ^ 32 then n + mtd.erasesize.toNat - 1
      else n + mtd.erasesize.toNat - 1 - 2 ^ 32 := by
    rw [UInt32.toNat_sub, UInt32.toNat_add, UInt32.toNat_ofNat_of_lt' hn]
    have : (1 : UInt32).toNat = 1 := rfl
    split <;> omega
  rw [erase_size, UInt32.toNat_mul, UInt32.toNat_div, hsum]
  split
  · have hle := Nat.div_mul_le_self (n + mtd.erasesize.toNat - 1) mtd.erasesize.toNat
    exact Nat.mod_eq_of_lt (by omega)
  · rw [Nat.div_eq_of_lt (by omega), Nat.zero_mul]

theorem cellsAfter_append (medium : Medium) (cells : Cells) (before rest : List Access) :
    cellsAfter medium cells (before ++ rest) =
      cellsAfter medium (cellsAfter medium cells before) rest :=
  List.foldl_append

theorem cellsAfter_erase (hes : 0 < mtd.erasesize.toNat) {answer : ℕ → Bool} {fuel : ℕ}
    (h : mtd.erase offset size answer fuel = some out) (hfuel : size.toNat < fuel)
    (hret : ¬ execFails out.ret) (hlt : offset.toNat + size.toNat < 2 ^ 32) (medium : Medium)
    (cells : Cells) (q : ℕ) :
    cellsAfter medium cells out.accesses q =
      if offset.toNat ≤ q ∧ q < offset.toNat + size.toNat then 255 else cells q := by
  rcases mtd.erase_cases offset size answer with ⟨ret, hthrown, hout⟩ | ⟨-, hsize, hsum, hrun⟩
  · cases (hout fuel).symm.trans h
    exact absurd hthrown.2 hret
  · have hend : (offset + size).toNat = offset.toNat + size.toNat := by
      rw [UInt32.toNat_add, Nat.mod_eq_of_lt hlt]
    obtain ⟨m, hm, hblocks⟩ := exists_blocks hsize hlt
    obtain ⟨out', hout, -, hcells⟩ :=
      erase_blocks_spec hes answer (hend.trans_le ((fits_iff hsum).mpr hlt)) (i := 0) hblocks
    cases (((hrun fuel).trans (hout fuel (by omega))).symm.trans h)
    exact hend ▸ hcells hret medium cells q

theorem blocks_lt {es off n : ℕ} (hes : 0 < es) (hpos : 0 < n) (hlen : n + es ≤ 2 ^ 32)
    (hoff : es ∣ off) (hplaces : ∀ k, k * es < n → off + k * es < 2 ^ 31) :
    off + (n + es - 1) / es * es < 2 ^ 32 := by
  obtain ⟨k, hk⟩ : ∃ k, (n + es - 1) / es = k + 1 :=
    Nat.exists_eq_add_one.mpr (Nat.div_pos (by omega) hes)
  have hmul := Nat.div_mul_le_self (n + es - 1) es
  rw [hk, Nat.add_mul, Nat.one_mul] at hmul ⊢
  have hlast := hplaces k (by omega)
  by_cases hbig : es ≤ 2 ^ 31
  · omega
  · obtain ⟨m, rfl⟩ := hoff
    have hm : m = 0 := by
      by_contra hne
      have := Nat.mul_le_mul_left es (Nat.one_le_iff_ne_zero.mpr hne)
      omega
    rw [hm] at hlast ⊢
    omega

theorem dvd_of_erase {answer : ℕ → Bool} {fuel : ℕ}
    (h : mtd.erase offset size answer fuel = some out) (hret : ¬ execFails out.ret) :
    mtd.erasesize.toNat ∣ offset.toNat := by
  rcases mtd.erase_cases offset size answer with ⟨ret, hthrown, hout⟩ | ⟨hoff, -⟩
  · cases (hout fuel).symm.trans h
    exact absurd hthrown.2 hret
  · refine Nat.dvd_of_mod_eq_zero ?_
    rw [← UInt32.toNat_mod, hoff]
    rfl

/-- After an erase and the writes that end well, the image is on the device exactly if it fits and
what a write leaves out is there already. -/
theorem flashed_iff_lands (hes : 0 < mtd.erasesize.toNat) {image : List UInt8} {a : Answers}
    {fuel fuel' : ℕ} {erased rest : Outcome} (hne : 0 < image.length)
    (herase : mtd.erase offset (mtd.erase_size (UInt32.ofNat image.length)) a.erase fuel =
      some erased) (hfuel : (mtd.erase_size (UInt32.ofNat image.length)).toNat < fuel)
    (hfails : ¬ execFails erased.ret)
    (hrest : mtd.write_chunks offset a fuel' 0 image (UInt32.ofNat image.length) 0 = some rest)
    (hret : 0 ≤ rest.ret) (medium : Medium) (cells : Cells) :
    mtd.Flashed medium cells offset image ⟨rest.ret, erased.accesses ++ rest.accesses⟩ ↔
      mtd.Lands medium cells offset image a := by
  by_cases hfit : offset.toNat + image.length ≤ mtd.size.toNat
  swap
  · exact iff_of_false (fun h ↦ hfit h.fits) fun h ↦ hfit h.1
  have hsize := mtd.size.toNat_lt
  have hlen : image.length < 2 ^ 32 := by omega
  have hnat : (UInt32.ofNat image.length).toNat = image.length := UInt32.toNat_ofNat_of_lt' hlen
  have hzero : (0 : UInt32).toNat = 0 := rfl
  obtain ⟨hplaces, hwritten⟩ :=
    write_chunks_spec hes hnat.symm (by rw [hnat, hzero]; exact hfit) hrest hret
  rw [hzero, Nat.add_zero] at hplaces hwritten
  have hesize := toNat_erase_size hes hne hlen
  have hblocks : image.length + mtd.erasesize.toNat ≤ 2 ^ 32 → offset.toNat +
      (image.length + mtd.erasesize.toNat - 1) / mtd.erasesize.toNat * mtd.erasesize.toNat <
        2 ^ 32 :=
    fun h ↦ blocks_lt hes hne h (dvd_of_erase herase hfails) hplaces
  have hend : offset.toNat + (mtd.erase_size (UInt32.ofNat image.length)).toNat < 2 ^ 32 := by
    rw [hesize]
    split
    · next h => exact hblocks h
    · have := offset.toNat_lt
      omega
  have hround : image.length ≤
      (image.length + mtd.erasesize.toNat - 1) / mtd.erasesize.toNat * mtd.erasesize.toNat := by
    have hdiv := Nat.div_add_mod' (image.length + mtd.erasesize.toNat - 1) mtd.erasesize.toNat
    have hmod := Nat.mod_lt (image.length + mtd.erasesize.toNat - 1) hes
    omega
  have herased := cellsAfter_erase hes herase hfuel hfails hend medium cells
  have hafter (q : ℕ) := (congrFun (cellsAfter_append medium cells erased.accesses rest.accesses)
    q).trans (hwritten medium _ q)
  have hheld (p : ℕ) (hp : p < image.length) :
      cellsAfter medium cells (erased.accesses ++ rest.accesses) (offset.toNat + p) =
        settled medium mtd.erasesize.toNat a 0 image p
          (if image.length + mtd.erasesize.toNat ≤ 2 ^ 32 then 255
          else cells (offset.toNat + p)) := by
    rw [hafter, if_pos (Nat.le_add_right _ _), Nat.add_sub_cancel_left, herased, hesize]
    congr 1
    by_cases hc : image.length + mtd.erasesize.toNat ≤ 2 ^ 32
    · rw [if_pos hc, if_pos hc, if_pos (by omega)]
    · rw [if_neg hc, if_neg hc, if_neg (by omega)]
  constructor
  · intro h
    refine ⟨hfit, fun p hp ↦ (settled_eq_iff hp _).mp ?_⟩
    rw [← hheld p hp]
    exact h.holds p hp
  · intro h
    refine ⟨hfit, fun p hp ↦ ?_, fun q hq ↦ ?_⟩
    · rw [hheld p hp]
      exact (settled_eq_iff hp _).mpr (h.2 p hp)
    · have hcells : cellsAfter medium cells erased.accesses q = cells q := by
        rw [herased, hesize]
        exact if_neg (by split <;> omega)
      rw [hafter, hcells]
      split
      · exact settled_of_length_le (by omega) _
      · rfl

/-- For every image the call ends, and if it succeeds the image is on the device, with the rest as
it was, exactly if it fits and what a write leaves out is there already. -/
theorem write_file_spec (hes : 0 < mtd.erasesize.toNat) (medium : Medium) (cells : Cells)
    (offset : UInt32) (image : List UInt8) (a : Answers) :
    ∃ out, (∃ n, ∀ fuel, n < fuel → mtd.write_file offset (some image) a fuel = some out) ∧
      (0 ≤ out.ret →
        (mtd.Flashed medium cells offset image out ↔ mtd.Lands medium cells offset image a)) := by
  have hrefused {ret : ℤ} (hret : ret < 0) {accesses : List Access}
      (hout : ∃ n, ∀ fuel, n < fuel →
        mtd.write_file offset (some image) a fuel = some ⟨ret, accesses⟩) :
      ∃ out, (∃ n, ∀ fuel, n < fuel → mtd.write_file offset (some image) a fuel = some out) ∧
        (0 ≤ out.ret →
          (mtd.Flashed medium cells offset image out ↔ mtd.Lands medium cells offset image a)) :=
    ⟨_, hout, fun h ↦ absurd h (not_le_of_gt hret)⟩
  by_cases h₁ : mtd.fd < 0
  · exact hrefused (by decide : -MTD_ERR_NOT_INIT < 0) ⟨0, fun _ _ ↦ if_pos h₁⟩
  by_cases h₂ : image.length = 0
  · exact hrefused (by decide : -MTD_ERR_INVALID_ARG < 0)
      ⟨0, fun _ _ ↦ (if_neg h₁).trans (if_pos h₂)⟩
  by_cases h₃ : mtd.size < offset + UInt32.ofNat image.length
  · exact hrefused (by decide : -MTD_ERR_INVALID_ARG < 0)
      ⟨0, fun _ _ ↦ ((if_neg h₁).trans (if_neg h₂)).trans (if_pos h₃)⟩
  obtain ⟨erased, herased, -⟩ :=
    erase_bounded hes offset (mtd.erase_size (UInt32.ofNat image.length)) a.erase
  have hchunks : ∃ out, ∀ fuel, (UInt32.ofNat image.length).toNat < fuel →
      mtd.write_chunks offset a fuel 0 image (UInt32.ofNat image.length) 0 = some out :=
    write_chunks_ends hes a le_rfl
  obtain ⟨rest, hrest⟩ := hchunks
  have hrun : ∀ fuel, max (mtd.erase_size (UInt32.ofNat image.length)).toNat
        (UInt32.ofNat image.length).toNat < fuel →
      mtd.write_file offset (some image) a fuel =
        if execFails erased.ret then some ⟨-1, erased.accesses⟩
        else if ¬ a.malloc then some ⟨-MTD_ERR_ERROR, erased.accesses⟩
        else some ⟨rest.ret, erased.accesses ++ rest.accesses⟩ := by
    intro fuel hfuel
    rw [write_file, if_neg h₁]
    dsimp only
    rw [if_neg h₂, if_neg h₃, herased fuel (by omega), hrest fuel (by omega)]
    rfl
  by_cases h₄ : execFails erased.ret
  · exact hrefused (by decide : (-1 : ℤ) < 0)
      ⟨_, fun fuel hfuel ↦ (hrun fuel hfuel).trans (if_pos h₄)⟩
  by_cases h₅ : a.malloc
  swap
  · exact hrefused (by decide : -MTD_ERR_ERROR < 0)
      ⟨_, fun fuel hfuel ↦ (hrun fuel hfuel).trans ((if_neg h₄).trans (if_pos h₅))⟩
  refine ⟨_, ⟨_, fun fuel hfuel ↦ (hrun fuel hfuel).trans
    ((if_neg h₄).trans (if_neg (not_not.mpr h₅)))⟩, fun hret ↦ ?_⟩
  exact flashed_iff_lands hes (Nat.pos_of_ne_zero h₂) (herased _ (Nat.lt_succ_self _))
    (Nat.lt_succ_self _) h₄ (hrest _ (Nat.lt_succ_self _)) hret medium cells


/-- For every geometry: the calls touch nothing but the bytes that they are asked for, the loop over
the blocks ends, and a file that `write_file` reports as written is on the device exactly if it fits
and what a write leaves out is there already. -/
theorem bounded_and_flashed_iff (mtd : Mtd) (hes : mtd.erasesize ≠ 0) :
    (∀ offset size,
      (∀ answer, ∃ out, (∃ n, ∀ fuel, n < fuel → mtd.erase offset size answer fuel = some out) ∧
        mtd.Bounded offset size out) ∧
      (∀ cells buf answer, mtd.Bounded offset size (mtd.read cells offset buf size answer).1) ∧
      ∀ buf answer, mtd.Bounded offset size (mtd.write offset buf size answer)) ∧
    ∀ medium cells offset image a,
      ∃ out, (∃ n, ∀ fuel, n < fuel → mtd.write_file offset (some image) a fuel = some out) ∧
        (0 ≤ out.ret →
          (mtd.Flashed medium cells offset image out ↔
            mtd.Lands medium cells offset image a)) := by
  have hpos : 0 < mtd.erasesize.toNat :=
    Nat.pos_of_ne_zero fun h ↦ hes (UInt32.toNat_inj.mp h)
  refine ⟨fun offset size ↦ ⟨fun answer ↦ ?_, fun cells buf answer ↦ ?_, fun buf answer ↦ ?_⟩,
    fun medium cells offset image a ↦ write_file_spec hpos medium cells offset image a⟩
  · obtain ⟨out, hout, hbounded⟩ := erase_bounded hpos offset size answer
    exact ⟨out, ⟨_, hout⟩, hbounded⟩
  · exact read_bounded cells offset buf size answer
  · exact write_bounded offset buf size answer

/-- A device of four blocks. -/
def smallDevice : Mtd := ⟨3, 16, 4⟩

theorem bounded_and_flashed_iff_smallDevice :
    (∀ offset size,
      (∀ answer, ∃ out,
        (∃ n, ∀ fuel, n < fuel → smallDevice.erase offset size answer fuel = some out) ∧
        smallDevice.Bounded offset size out) ∧
      (∀ cells buf answer,
        smallDevice.Bounded offset size (smallDevice.read cells offset buf size answer).1) ∧
      ∀ buf answer, smallDevice.Bounded offset size (smallDevice.write offset buf size answer)) ∧
    ∀ medium cells offset image a,
      ∃ out,
        (∃ n, ∀ fuel, n < fuel → smallDevice.write_file offset (some image) a fuel = some out) ∧
        (0 ≤ out.ret →
          (smallDevice.Flashed medium cells offset image out ↔
            smallDevice.Lands medium cells offset image a)) :=
  smallDevice.bounded_and_flashed_iff (by decide)

/-- A write that takes two bytes of four passes for one of the whole block. -/
theorem not_flashed_short_write :
    ¬ ∀ (mtd : Mtd) (medium : Medium) (cells : Cells) (offset : UInt32) (image : List UInt8)
        (a : Answers) (fuel : ℕ) (out : Outcome), mtd.erasesize ≠ 0 →
        mtd.write_file offset (some image) a fuel = some out → 0 ≤ out.ret →
        mtd.Flashed medium cells offset image out := by
  intro h
  have hheld := (h smallDevice flashMemory (fun _ ↦ 0) 4 [1, 2, 3, 4]
    ⟨fun _ ↦ true, true, fun _ ↦ 4, fun _ ↦ some 2⟩ 5
    ⟨1, [.erase 4 4 true, .write 4 [1, 2, 3, 4] 2]⟩ (by decide) rfl
    (by decide)).holds 2 (by decide)
  exact absurd hheld (by decide)

end Mtd

end Libobject.Board
