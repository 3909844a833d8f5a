import Mathlib.Data.BitVec
import Mathlib.Data.List.Basic
import Mathlib.Data.Int.Notation

/-!
# Files

A file that is open for reading and writing: its bytes and the place of the next byte.
-/

namespace Libobject

structure File where
  bytes : List UInt8
  pos : ℕ
  deriving DecidableEq

inductive File.Whence
  | set
  | cur
  | fromEnd

namespace File

/-- At the end of the file there is less to read. -/
def read (f : File) (len : ℕ) : List UInt8 × File :=
  ((f.bytes.drop f.pos).take len,
    { f with pos := f.pos + ((f.bytes.drop f.pos).take len).length })

/-- What lies between the end of the file and the place is filled with zeros. -/
def write (f : File) (src : List UInt8) : File where
  bytes := f.bytes.take f.pos ++ List.replicate (f.pos - f.bytes.length) 0 ++ src ++
    f.bytes.drop (f.pos + src.length)
  pos := f.pos + src.length

/-- A place in front of the file is refused. -/
def seek (f : File) (offset : ℤ) (whence : Whence) : File :=
  let base : ℕ := match whence with
    | .set => 0
    | .cur => f.pos
    | .fromEnd => f.bytes.length
  if base + offset < 0 then f else { f with pos := (base + offset).toNat }

/-- The size as a C integer. -/
def get_size (f : File) : ℤ × File := ((BitVec.ofNat 32 f.bytes.length).toInt, { f with pos := 0 })

variable {f : File} {a b : List UInt8}

theorem write_at (hbytes : f.bytes = a ++ b) (hpos : f.pos = a.length) (src : List UInt8) :
    f.write src = ⟨a ++ src ++ b.drop src.length, a.length + src.length⟩ := by
  rw [write, hbytes, hpos, List.take_left, List.length_append, Nat.sub_eq_zero_of_le (by omega),
    List.drop_append]
  simp

theorem write_write (h : f.pos ≤ f.bytes.length) (x y : List UInt8) :
    (f.write x).write y = f.write (x ++ y) := by
  have hbytes : f.bytes = f.bytes.take f.pos ++ f.bytes.drop f.pos :=
    (List.take_append_drop _ _).symm
  have hpos : f.pos = (f.bytes.take f.pos).length := (List.length_take_of_le h).symm
  rw [write_at hbytes hpos x, write_at hbytes hpos (x ++ y), write_at rfl (by simp) y]
  have hsum : (f.bytes.take f.pos ++ x).length + y.length =
      (f.bytes.take f.pos).length + (x ++ y).length := by
    rw [List.length_append, List.length_append, Nat.add_assoc]
  rw [hsum, List.drop_drop]
  simp only [List.length_append, List.append_assoc]

theorem pos_write_le (h : f.pos ≤ f.bytes.length) (src : List UInt8) :
    (f.write src).pos ≤ (f.write src).bytes.length := by
  simp only [write, List.length_append, List.length_take, List.length_replicate,
    List.length_drop]
  omega

theorem read_at (hbytes : f.bytes = a ++ b) (hpos : f.pos = a.length) (len : ℕ) :
    f.read len = (b.take len, { f with pos := a.length + (b.take len).length }) := by
  rw [read, hbytes, hpos, List.drop_left]

theorem seek_set (f : File) (n : ℕ) : f.seek n .set = { f with pos := n } := by
  simp [seek]

theorem seek_cur (f : File) (n : ℕ) : f.seek n .cur = { f with pos := f.pos + n } := by
  simp only [seek]
  rw [if_neg (by omega), ← Nat.cast_add, Int.toNat_natCast]

end File

end Libobject
