import Mathlib.Data.List.Basic
import Mathlib.Algebra.Order.Group.Nat

/-!
# Numbers as bytes

Fixed-width numbers with the least or the most significant byte first.
-/

namespace Libobject

def leBytes : ℕ → ℕ → List UInt8
  | 0, _ => []
  | w + 1, n => UInt8.ofNat n :: leBytes w (n / 256)

def leNat : List UInt8 → ℕ
  | [] => 0
  | b :: bs => b.toNat + 256 * leNat bs

def beBytes (w n : ℕ) : List UInt8 := (leBytes w n).reverse

def beNat (bs : List UInt8) : ℕ := leNat bs.reverse

@[simp] theorem length_leBytes (w n : ℕ) : (leBytes w n).length = w := by
  induction w generalizing n with
  | zero => rfl
  | succ w ih => simp [leBytes, ih]

theorem leBytes_succ (k n : ℕ) :
    leBytes (k + 1) n = leBytes k n ++ [UInt8.ofNat (n / 256 ^ k)] := by
  induction k generalizing n with
  | zero => simp [leBytes]
  | succ k ih =>
    rw [leBytes, ih, leBytes, List.cons_append, Nat.div_div_eq_div_mul, Nat.pow_succ']

theorem leNat_leBytes (w n : ℕ) : leNat (leBytes w n) = n % 256 ^ w := by
  induction w generalizing n with
  | zero => simp [leBytes, leNat, Nat.mod_one]
  | succ w ih =>
    have hbyte : (UInt8.ofNat n).toNat = n % 256 := UInt8.toNat_ofNat'
    rw [leBytes, leNat, ih, hbyte, Nat.pow_succ' (n := w), Nat.mod_mul]

@[simp] theorem length_beBytes (w n : ℕ) : (beBytes w n).length = w := by simp [beBytes]

theorem beNat_beBytes (w n : ℕ) : beNat (beBytes w n) = n % 256 ^ w := by
  rw [beNat, beBytes, List.reverse_reverse, leNat_leBytes]

/-- The `w` bytes that stand in `bs` from the place `i` on. -/
def field (bs : List UInt8) (i w : ℕ) : List UInt8 := (bs.drop i).take w

theorem field_append_right (pre : List UInt8) {i : ℕ} (h : pre.length = i) (mid post : List UInt8) :
    field (pre ++ (mid ++ post)) i mid.length = mid := by
  rw [field, ← h, List.drop_left, List.take_left]

theorem field_append_left {bs : List UInt8} {i w : ℕ} (h : i + w ≤ bs.length)
    (post : List UInt8) : field (bs ++ post) i w = field bs i w := by
  rw [field, field, List.drop_append_of_le_length (by omega),
    List.take_append_of_le_length (by rw [List.length_drop]; omega)]

theorem field_take {bs : List UInt8} {i w n : ℕ} (h : i + w ≤ n) :
    field (bs.take n) i w = field bs i w := by
  rw [field, field, List.drop_take, List.take_take, Nat.min_eq_left (by omega)]

end Libobject
