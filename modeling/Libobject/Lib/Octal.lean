import Mathlib.Data.List.Basic
import Mathlib.Algebra.Order.Group.Nat

/-!
# Octal numbers

Numbers as rows of octal digits, most significant digit first, with leading zeros.
-/

namespace Libobject.Octal

def digit (n : ℕ) : UInt8 := UInt8.ofNat (48 + n % 8)

/-- The `w` lowest digits. -/
def fixed : ℕ → ℕ → List UInt8
  | 0, _ => []
  | w + 1, n => fixed w (n / 8) ++ [digit n]

/-- `%0<w>o`, and `%0<w>lo`, of a number of at most 64 bits. -/
def print (w n : ℕ) : List UInt8 :=
  if n < 8 ^ w then fixed w n else (fixed 22 n).dropWhile (· = 48)

def IsDigit (c : UInt8) : Prop := 48 ≤ c.toNat ∧ c.toNat < 56

instance decidableIsDigit (c : UInt8) : Decidable (IsDigit c) :=
  inferInstanceAs (Decidable (_ ∧ _))

/-- The value of more digits behind a number. -/
def valueFrom (v : ℕ) (ds : List UInt8) : ℕ := ds.foldl (fun v c ↦ v * 8 + (c.toNat - 48)) v

def value (ds : List UInt8) : ℕ := valueFrom 0 ds

theorem valueFrom_cons (v : ℕ) (c : UInt8) (ds : List UInt8) :
    valueFrom v (c :: ds) = valueFrom (v * 8 + (c.toNat - 48)) ds := by
  rw [valueFrom, List.foldl_cons, valueFrom]

theorem le_valueFrom (ds : List UInt8) (v : ℕ) : v ≤ valueFrom v ds := by
  induction ds generalizing v with
  | nil => exact Nat.le_refl v
  | cons c ds ih =>
    have hstep := ih (v * 8 + (c.toNat - 48))
    rw [valueFrom_cons]
    omega

@[simp] theorem toNat_digit (n : ℕ) : (digit n).toNat = 48 + n % 8 := by
  rw [digit, UInt8.toNat_ofNat']
  apply Nat.mod_eq_of_lt
  omega

theorem isDigit_digit (n : ℕ) : IsDigit (digit n) := by
  rw [IsDigit, toNat_digit]
  omega

@[simp] theorem length_fixed (w n : ℕ) : (fixed w n).length = w := by
  induction w generalizing n with
  | zero => rfl
  | succ w ih => rw [fixed, List.length_append, ih, List.length_singleton]

theorem isDigit_of_mem_fixed {w n : ℕ} {c : UInt8} (h : c ∈ fixed w n) : IsDigit c := by
  induction w generalizing n with
  | zero => cases h
  | succ w ih =>
    rw [fixed, List.mem_append, List.mem_singleton] at h
    rcases h with h | rfl
    · exact ih h
    · exact isDigit_digit n

theorem value_append_singleton (ds : List UInt8) (c : UInt8) :
    value (ds ++ [c]) = value ds * 8 + (c.toNat - 48) := by
  rw [value, value, valueFrom, List.foldl_append]
  rfl

theorem value_fixed {w n : ℕ} (h : n < 8 ^ w) : value (fixed w n) = n := by
  induction w generalizing n with
  | zero =>
    rw [Nat.pow_zero] at h
    change 0 = n
    omega
  | succ w ih =>
    have hdiv : n / 8 < 8 ^ w := by
      apply Nat.div_lt_of_lt_mul
      rwa [Nat.mul_comm, ← Nat.pow_succ]
    rw [fixed, value_append_singleton, ih hdiv, toNat_digit]
    omega

theorem print_of_lt {w n : ℕ} (h : n < 8 ^ w) : print w n = fixed w n := if_pos h

end Libobject.Octal
