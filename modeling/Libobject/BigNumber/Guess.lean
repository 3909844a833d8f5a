import Libobject.Lib.Digits
import Mathlib.Tactic.Ring
import Mathlib.Tactic.Linarith

/-!
# Guessing a digit of a quotient

A digit is guessed by dividing what is above the lowest `n` bytes of a window of the dividend by
what is above the lowest `n` bytes of the divisor, which is its top byte. The guess is at least the
digit; here is how far it may be off.
-/

namespace Libobject.BigNumber

/-- The first guess for the quotient of `w` and `v`, whose top byte has `n` bytes below it. -/
def guess (n w v : ℕ) : ℕ := w / 256 ^ n / (v / 256 ^ n)

section Bounds

variable {n w v : ℕ}

theorem top_pos (hv : 256 ^ n ≤ v) : 1 ≤ v / 256 ^ n :=
  (Nat.one_le_div_iff (Nat.pow_pos (by decide))).mpr hv

theorem top_mul_le (n v : ℕ) : v / 256 ^ n * 256 ^ n ≤ v := Nat.div_mul_le_self v _

theorem lt_top_succ_mul (n v : ℕ) : v < (v / 256 ^ n + 1) * 256 ^ n := by
  have hmod := Nat.div_add_mod v (256 ^ n)
  have hlt := Nat.mod_lt v (Nat.pow_pos (n := n) (show 0 < 256 by decide))
  rw [Nat.add_mul, Nat.one_mul, Nat.mul_comm]
  omega

theorem guess_mul_top_le (n w v : ℕ) : guess n w v * (v / 256 ^ n) ≤ w / 256 ^ n :=
  Nat.div_mul_le_self _ _

theorem div_le_guess (hv : 256 ^ n ≤ v) : w / v ≤ guess n w v := by
  have hpos : 0 < 256 ^ n := Nat.pow_pos (by decide)
  rw [guess, Nat.le_div_iff_mul_le (top_pos hv), Nat.le_div_iff_mul_le hpos, Nat.mul_assoc]
  exact (Nat.mul_le_mul_left _ (top_mul_le n v)).trans (Nat.div_mul_le_self w v)

theorem lt_guess_succ_mul (hv : 256 ^ n ≤ v) : w < v * (guess n w v + 1) := by
  have hpos : 0 < v := (Nat.pow_pos (by decide)).trans_le hv
  exact (Nat.lt_mul_div_succ w hpos).trans_le
    (Nat.mul_le_mul_left v (Nat.succ_le_succ (div_le_guess hv)))

theorem mul_guess_le (hv : 256 ^ n ≤ v) : v * guess n w v ≤ 2 * w := by
  have htop := top_pos hv
  have hmul := guess_mul_top_le n w v
  have hw := top_mul_le n w
  have hle : guess n w v ≤ w / 256 ^ n :=
    (Nat.le_mul_of_pos_right _ htop).trans hmul
  calc v * guess n w v
      ≤ (v / 256 ^ n + 1) * 256 ^ n * guess n w v :=
        Nat.mul_le_mul_right _ (lt_top_succ_mul n v).le
    _ = (guess n w v * (v / 256 ^ n) + guess n w v) * 256 ^ n := by ring
    _ ≤ (w / 256 ^ n + w / 256 ^ n) * 256 ^ n :=
        Nat.mul_le_mul_right _ (Nat.add_le_add hmul hle)
    _ = 2 * (w / 256 ^ n * 256 ^ n) := by ring
    _ ≤ 2 * w := Nat.mul_le_mul_left 2 hw

theorem guess_of_overlong (hv : 256 ^ n ≤ v) (hv' : v < 256 ^ (n + 1)) (hw : w < v * 256)
    (hlong : 256 ^ (n + 2) ≤ v * guess n w v) :
    guess n w v = 257 ∧ w / 256 ^ n = 65535 ∧ v / 256 ^ n = 255 := by
  have hpos : 0 < 256 ^ n := Nat.pow_pos (by decide)
  have htop := top_pos hv
  have hmul := guess_mul_top_le n w v
  have htop' : v / 256 ^ n ≤ 255 := by
    apply Nat.le_of_lt_succ
    rw [Nat.div_lt_iff_lt_mul hpos]
    rw [Nat.pow_succ] at hv'
    omega
  -- the window's top is below the divisor's top times 256, or as large
  have hw' : w / 256 ^ n ≤ v / 256 ^ n * 256 + 255 := by
    apply Nat.le_of_lt_succ
    rw [Nat.div_lt_iff_lt_mul hpos]
    have hlt := lt_top_succ_mul n v
    calc w < v * 256 := hw
      _ ≤ (v / 256 ^ n + 1) * 256 ^ n * 256 := Nat.mul_le_mul_right 256 hlt.le
      _ = (v / 256 ^ n * 256 + 255 + 1) * 256 ^ n := by ring
  have hlong' : 256 * 256 < (v / 256 ^ n + 1) * guess n w v := by
    have hguess : 0 < guess n w v := by
      by_contra hzero
      rw [Nat.le_zero.mp (Nat.le_of_not_lt hzero), Nat.mul_zero, Nat.pow_add] at hlong
      omega
    have hscaled : 256 * 256 * 256 ^ n < (v / 256 ^ n + 1) * guess n w v * 256 ^ n :=
      calc 256 * 256 * 256 ^ n = 256 ^ (n + 2) := by ring
        _ ≤ v * guess n w v := hlong
        _ < (v / 256 ^ n + 1) * 256 ^ n * guess n w v :=
            Nat.mul_lt_mul_of_pos_right (lt_top_succ_mul n v) hguess
        _ = (v / 256 ^ n + 1) * guess n w v * 256 ^ n := by ring
    exact Nat.lt_of_mul_lt_mul_right hscaled
  generalize guess n w v = g at hmul hlong' ⊢
  generalize v / 256 ^ n = t at htop htop' hmul hw' hlong' ⊢
  generalize w / 256 ^ n = x at hmul hw' ⊢
  have ht : t = 255 := by
    by_contra hne
    have hg : 258 ≤ g := by
      by_contra hlt
      have hle : (t + 1) * g ≤ 255 * 257 := Nat.mul_le_mul (by omega) (by omega)
      omega
    obtain ⟨h, rfl⟩ := Nat.exists_eq_add_of_le hg
    have hfew : h ≤ h * t := Nat.le_mul_of_pos_right h htop
    have hcross : (t + 1) * (258 + h) = 258 * t + h * t + 258 + h := by ring
    rw [Nat.add_mul] at hmul
    omega
  subst ht
  omega

end Bounds

/-- The product of the divisor with a guess, as far as it has room. -/
def product (v tl m : ℕ) : ℕ := v * m % 256 ^ tl

/-- The product is not longer than the dividend nor larger than as many bytes at its top. -/
def Fits (r size v tl m : ℕ) : Prop :=
  byteLength (product v tl m) ≤ size ∧
    product v tl m ≤ r / 256 ^ (size - byteLength (product v tl m))

def Exceeds (r size v tl m : ℕ) : Prop :=
  byteLength (product v tl m) ≤ size ∧
    r / 256 ^ (size - byteLength (product v tl m)) < product v tl m

section Compared

variable {n w v r tl i : ℕ}

theorem product_eq {m : ℕ} (h : v * m < 256 ^ tl) : product v tl m = v * m := Nat.mod_eq_of_lt h

theorem fits_iff {l m : ℕ} (hlow : 256 ^ l ≤ v * m) (hhigh : v * m < 256 ^ (l + 1))
    (htl : l + 1 ≤ tl) :
    (Fits r (l + 1 + i) v tl m ↔ v * m ≤ r / 256 ^ i) ∧
      (Exceeds r (l + 1 + i) v tl m ↔ r / 256 ^ i < v * m) := by
  have hroom : v * m < 256 ^ tl := hhigh.trans_le (Nat.pow_le_pow_right (by decide) htl)
  have hlen : byteLength (v * m) = l + 1 := byteLength_eq_succ hlow hhigh
  have hle : l + 1 ≤ l + 1 + i := Nat.le_add_right _ _
  rw [Fits, Exceeds, product_eq hroom, hlen, Nat.add_sub_cancel_left]
  exact ⟨and_iff_right hle, and_iff_right hle⟩

/-- A guess that is two bytes too long for the buffer is compared without the byte that has no room
there, and with the window without its lowest byte. -/
theorem exceeds_overlong (hv : 256 ^ n ≤ v) (hv' : v < 256 ^ (n + 1)) (hw : r / 256 ^ i < v * 256)
    (hlong : 256 ^ (n + 2) ≤ v * guess n (r / 256 ^ i) v) :
    Exceeds r (n + 2 + i) v (n + 2) (guess n (r / 256 ^ i) v) ↔
      r / 256 ^ i / 256 + 256 ^ (n + 2) < v * guess n (r / 256 ^ i) v := by
  obtain ⟨hguess, htop, -⟩ := guess_of_overlong hv hv' hw hlong
  have hwhole : 65535 * 256 ^ n ≤ r / 256 ^ i := htop ▸ top_mul_le n _
  have hpow : 256 ^ (n + 1) = 256 * 256 ^ n := Nat.pow_succ'
  have hpow' : 256 ^ (n + 2) = 65536 * 256 ^ n := by ring
  have hproduct : product v (n + 2) (guess n (r / 256 ^ i) v) = v * 257 - 256 ^ (n + 2) := by
    rw [product, hguess]
    rw [hguess] at hlong
    rw [Nat.mod_eq_sub_mod hlong, Nat.mod_eq_of_lt (by omega)]
  have hlarge : 256 ^ n ≤ v * 257 - 256 ^ (n + 2) := by
    have hbelow : r / 256 ^ i / 256 < v := by omega
    omega
  have hlen : byteLength (v * 257 - 256 ^ (n + 2)) = n + 1 := byteLength_eq_succ hlarge (by omega)
  have hshift : r / 256 ^ (i + 1) = r / 256 ^ i / 256 := by
    rw [Nat.pow_succ, Nat.div_div_eq_div_mul]
  have hrest : n + 2 + i - (n + 1) = i + 1 := by omega
  rw [Exceeds, hproduct, hlen, hrest, hshift, hguess]
  omega

/-- How the digit of the window `w` comes to be found. -/
def Guessable (n v tl w : ℕ) : Prop :=
  byteLength (v * (w / v)) = byteLength w ∧
    (byteLength (v * guess n w v) = byteLength w ∨
      (tl = n + 2 ∧ byteLength w = n + 2 ∧ w / 256 + 256 ^ (n + 2) < v * guess n w v))

/-- How it is found that a remainder as long as the divisor is one. -/
def Leaves (n v tl r : ℕ) : Prop :=
  256 ^ (n + 1) ≤ v * guess n (256 * r) v ∧
    (v * guess n (256 * r) v < 256 ^ (n + 2) ∨ n + 3 ≤ tl ∨
      (tl = n + 2 ∧ r + 256 ^ (n + 2) < v * guess n (256 * r) v))

section Found

variable {n v r tl i l : ℕ}

theorem lt_of_guess_le {m : ℕ} (hv' : v < 256 ^ (n + 1)) (hlong : 256 ^ (n + 2) ≤ v * m) :
    257 ≤ m := by
  by_contra hlt
  have hle : v * m ≤ v * 256 := Nat.mul_le_mul_left v (by omega)
  rw [Nat.pow_succ] at hlong
  omega

theorem digit_fits (hv : 256 ^ n ≤ v) (hv' : v < 256 ^ (n + 1)) (hw : r / 256 ^ i < v * 256)
    (hlow : 256 ^ l ≤ v * (r / 256 ^ i / v)) (hw' : r / 256 ^ i < 256 ^ (l + 1))
    (htl : l + 1 ≤ tl)
    (hguess : v * guess n (r / 256 ^ i) v < 256 ^ (l + 1) ∨ (tl = n + 2 ∧ l = n + 1 ∧
      r / 256 ^ i / 256 + 256 ^ (n + 2) < v * guess n (r / 256 ^ i) v)) :
    Fits r (l + 1 + i) v tl (r / 256 ^ i / v) ∧
      ∀ m, r / 256 ^ i / v < m → m ≤ guess n (r / 256 ^ i) v → Exceeds r (l + 1 + i) v tl m := by
  have hpos : 0 < v := (Nat.pow_pos (by decide)).trans_le hv
  have hdigit : v * (r / 256 ^ i / v) ≤ r / 256 ^ i := Nat.mul_div_le _ _
  refine ⟨(fits_iff hlow (hdigit.trans_lt hw') htl).1.mpr hdigit, ?_⟩
  intro m hm hle
  have hover : r / 256 ^ i < v * m := by
    rw [Nat.mul_comm]
    exact (Nat.div_lt_iff_lt_mul hpos).mp hm
  by_cases hshort : v * m < 256 ^ (l + 1)
  · exact (fits_iff (hlow.trans (hdigit.trans hover.le)) hshort htl).2.mpr hover
  · have hmul : v * m ≤ v * guess n (r / 256 ^ i) v := Nat.mul_le_mul_left v hle
    obtain hless | ⟨rfl, rfl, hless⟩ := hguess
    · omega
    · have hlong : 256 ^ (n + 2) ≤ v * guess n (r / 256 ^ i) v := by omega
      have heq : m = guess n (r / 256 ^ i) v := by
        have hat := (guess_of_overlong hv hv' hw hlong).1
        have hge := lt_of_guess_le hv' (Nat.le_of_not_lt hshort)
        omega
      rw [heq]
      exact (exceeds_overlong hv hv' hw hlong).mpr hless

theorem found_of_window {m : ℕ} (hv : 256 ^ n ≤ v) (hr : r < 256 ^ (n + 1 + i))
    (hm : m ≤ guess n (r / 256 ^ i) v) (hpos : 0 < m)
    (hfits : Fits r (n + 1 + i) v tl m)
    (habove : ∀ m', m < m' → m' ≤ guess n (r / 256 ^ i) v → Exceeds r (n + 1 + i) v tl m')
    (htl : n + 1 + i < tl) (hsize : v * m * 256 ^ i < 256 ^ (n + 1 + i)) :
    m < 256 ∧ v * m < 256 ^ (n + 1) ∧ v * m ≤ r / 256 ^ i ∧ r / 256 ^ i < v * (m + 1) := by
  have hi : 0 < 256 ^ i := Nat.pow_pos (by decide)
  have hw : r / 256 ^ i < 256 ^ (n + 1) := by
    rw [Nat.div_lt_iff_lt_mul hi, ← Nat.pow_add]
    exact hr
  have hshort : v * m < 256 ^ (n + 1) := by
    rw [Nat.pow_add] at hsize
    exact Nat.lt_of_mul_lt_mul_right hsize
  have hlow : 256 ^ n ≤ v * m := hv.trans (Nat.le_mul_of_pos_right v hpos)
  refine ⟨?_, hshort, (fits_iff hlow hshort (by omega)).1.mp hfits, ?_⟩
  · by_contra hge
    have hle : 256 ^ n * 256 ≤ v * m := Nat.mul_le_mul hv (Nat.le_of_not_lt hge)
    rw [Nat.pow_succ] at hshort
    omega
  · obtain heq | hlt := Nat.eq_or_lt_of_le hm
    · exact heq ▸ lt_guess_succ_mul hv
    · by_cases hnext : v * (m + 1) < 256 ^ (n + 1)
      · have hlow' : 256 ^ n ≤ v * (m + 1) := hv.trans (Nat.le_mul_of_pos_right v (Nat.succ_pos m))
        exact (fits_iff hlow' hnext (by omega)).2.mp (habove (m + 1) (Nat.lt_succ_self m) hlt)
      · omega

theorem found_of_long_window {m : ℕ} (hv : 256 ^ n ≤ v) (hv' : v < 256 ^ (n + 1))
    (hr : r < 256 ^ (n + 2 + i)) (hw : r / 256 ^ i < v * 256)
    (hm : m ≤ guess n (r / 256 ^ i) v) (hpos : 0 < m) (hfits : Fits r (n + 2 + i) v tl m)
    (habove : ∀ m', m < m' → m' ≤ guess n (r / 256 ^ i) v → Exceeds r (n + 2 + i) v tl m')
    (htl : n + 2 + i ≤ tl) :
    (m < 256 ∧ 256 ^ (n + 1) ≤ v * m ∧ v * m ≤ r / 256 ^ i ∧ r / 256 ^ i < v * (m + 1)) ∨
      (m = 257 ∧ guess n (r / 256 ^ i) v = 257 ∧ r / 256 ^ i / 256 ^ n = 65535) := by
  have hi : 0 < 256 ^ i := Nat.pow_pos (by decide)
  have hw' : r / 256 ^ i < 256 ^ (n + 2) := by
    rw [Nat.div_lt_iff_lt_mul hi, ← Nat.pow_add]
    exact hr
  by_cases hlong : 256 ^ (n + 2) ≤ v * m
  · right
    obtain ⟨hguess, htop, -⟩ := guess_of_overlong hv hv' hw
      (hlong.trans (Nat.mul_le_mul_left v hm))
    have hge := lt_of_guess_le hv' hlong
    exact ⟨by omega, hguess, htop⟩
  · left
    have hshort : v * m < 256 ^ (n + 2) := Nat.lt_of_not_le hlong
    have hlow : 256 ^ n ≤ v * m := hv.trans (Nat.le_mul_of_pos_right v hpos)
    have hlow' : 256 ^ (n + 1) ≤ v * m := by
      by_contra hless
      -- as long as the divisor only, it is compared with a part that is smaller than the divisor
      have hwindow : n + 1 + (i + 1) = n + 2 + i := by omega
      have hcompared := (fits_iff (r := r) (i := i + 1) hlow (Nat.lt_of_not_le hless)
        (show n + 1 ≤ tl by omega)).1
      rw [hwindow] at hcompared
      have hpart := hcompared.mp hfits
      rw [Nat.pow_succ, ← Nat.div_div_eq_div_mul] at hpart
      have hle : v ≤ v * m := Nat.le_mul_of_pos_right v hpos
      omega
    have hin : v * m ≤ r / 256 ^ i := (fits_iff hlow' hshort (by omega)).1.mp hfits
    refine ⟨?_, hlow', hin, ?_⟩
    · by_contra hge
      have hle : v * 256 ≤ v * m := Nat.mul_le_mul_left v (Nat.le_of_not_lt hge)
      omega
    · obtain heq | hlt := Nat.eq_or_lt_of_le hm
      · exact heq ▸ lt_guess_succ_mul hv
      · by_cases hnext : v * (m + 1) < 256 ^ (n + 2)
        · have hlow'' : 256 ^ (n + 1) ≤ v * (m + 1) :=
            hlow'.trans (Nat.mul_le_mul_left v (Nat.le_succ m))
          exact (fits_iff hlow'' hnext (by omega)).2.mp (habove (m + 1) (Nat.lt_succ_self m) hlt)
        · omega

theorem guessable_of_found {m : ℕ} (hv : 256 ^ n ≤ v) (hv' : v < 256 ^ (n + 1))
    (hl : l = n ∨ l = n + 1) (hr : r / 256 ^ i < 256 ^ (l + 1)) (hw : r / 256 ^ i < v * 256)
    (hlow : 256 ^ l ≤ v * m) (hin : v * m ≤ r / 256 ^ i) (hnext : r / 256 ^ i < v * (m + 1))
    (habove : ∀ m', m < m' → m' ≤ guess n (r / 256 ^ i) v → Exceeds r (l + 1 + i) v tl m')
    (htl : n + 1 + i < tl) : Guessable n v tl (r / 256 ^ i) := by
  have hdigit : r / 256 ^ i / v = m := Nat.div_eq_of_lt_le (Nat.mul_comm v m ▸ hin)
    (Nat.mul_comm v (m + 1) ▸ hnext)
  have hwindow : byteLength (r / 256 ^ i) = l + 1 := byteLength_eq_succ (hlow.trans hin) hr
  have hguess : v * m ≤ v * guess n (r / 256 ^ i) v := by
    apply Nat.mul_le_mul_left
    exact hdigit ▸ div_le_guess hv
  rw [Guessable, hdigit, hwindow, byteLength_eq_succ hlow (hin.trans_lt hr)]
  refine ⟨rfl, ?_⟩
  by_cases hshort : v * guess n (r / 256 ^ i) v < 256 ^ (l + 1)
  · exact Or.inl (byteLength_eq_succ (hlow.trans hguess) hshort)
  · right
    have hlarger : m < guess n (r / 256 ^ i) v := by
      by_contra hle
      have hback := Nat.mul_le_mul_left v (Nat.le_of_not_lt hle)
      omega
    have hexceeds := habove _ hlarger le_rfl
    by_cases hroom : v * guess n (r / 256 ^ i) v < 256 ^ tl
    · -- a longer product is compared with more of the dividend, and is not larger
      exfalso
      have htwice := mul_guess_le (w := r / 256 ^ i) hv
      have hlong : l + 1 < byteLength (v * guess n (r / 256 ^ i) v) :=
        lt_byteLength_iff.mpr (Nat.le_of_not_lt hshort)
      rw [Exceeds, product_eq hroom] at hexceeds
      obtain ⟨hsize, hless⟩ := hexceeds
      obtain ⟨j, rfl⟩ := Nat.exists_eq_add_of_le' (show 1 ≤ i by omega)
      have hmore : r / 256 ^ j ≤
          r / 256 ^ (l + 1 + (j + 1) - byteLength (v * guess n (r / 256 ^ (j + 1)) v)) :=
        Nat.div_le_div_left (Nat.pow_le_pow_right (by decide) (by omega)) (Nat.pow_pos (by decide))
      have hshift : r / 256 ^ (j + 1) = r / 256 ^ j / 256 := by
        rw [Nat.pow_succ, Nat.div_div_eq_div_mul]
      omega
    · have hlong : 256 ^ (n + 2) ≤ v * guess n (r / 256 ^ i) v :=
        (Nat.pow_le_pow_right (by decide) (by omega)).trans (Nat.le_of_not_lt hroom)
      obtain ⟨hat, htop, -⟩ := guess_of_overlong hv hv' hw hlong
      have hless : v * guess n (r / 256 ^ i) v < 256 ^ (n + 3) := by
        have hpow : 256 ^ (n + 3) = 256 ^ (n + 1) * 65536 := by ring
        rw [hat, hpow]
        omega
      have htl' : tl < n + 3 := by
        by_contra hmore
        exact hroom (hless.trans_le (Nat.pow_le_pow_right (by decide) (Nat.le_of_not_lt hmore)))
      obtain rfl : i = 0 := by omega
      obtain rfl : tl = n + 2 := by omega
      have hwhole : 65535 * 256 ^ n ≤ r / 256 ^ 0 := htop ▸ top_mul_le n _
      obtain rfl : l = n + 1 := by
        rcases hl with rfl | hl
        · rw [Nat.pow_succ] at hr
          have hpos : 0 < 256 ^ l := Nat.pow_pos (by decide)
          omega
        · exact hl
      exact ⟨rfl, rfl, (exceeds_overlong hv hv' hw hlong).mp hexceeds⟩

theorem exceeds_shift {m : ℕ} (hlen : byteLength (product v tl m) ≤ l) :
    Exceeds (256 * r) (l + 1) v tl m ↔ Exceeds r l v tl m := by
  have hsub : l + 1 - byteLength (product v tl m) = l - byteLength (product v tl m) + 1 := by omega
  rw [Exceeds, Exceeds, hsub, Nat.pow_succ, Nat.mul_comm (256 ^ _) 256,
    Nat.mul_div_mul_left _ _ (by decide)]
  exact and_congr_left fun _ ↦ ⟨fun _ ↦ hlen, fun h ↦ h.trans (Nat.le_succ _)⟩

theorem overlong_of_rest (hv : 256 ^ n ≤ v) (hv' : v < 256 ^ (n + 1)) (hr : r < v)
    (hlong : 256 ^ (n + 2) ≤ v * guess n (256 * r) v) :
    guess n (256 * r) v = 257 ∧ byteLength (product v (n + 2) (guess n (256 * r) v)) = n + 1 ∧
      (Exceeds r (n + 1) v (n + 2) (guess n (256 * r) v) ↔
        r + 256 ^ (n + 2) < v * guess n (256 * r) v) := by
  obtain ⟨hguess, htop, -⟩ := guess_of_overlong hv hv' (show 256 * r < v * 256 by omega) hlong
  have hpow : 256 ^ (n + 1) = 256 * 256 ^ n := Nat.pow_succ'
  have hpow' : 256 ^ (n + 2) = 65536 * 256 ^ n := by ring
  have hwhole : 65535 * 256 ^ n ≤ 256 * r := htop ▸ top_mul_le n _
  have hpos : 0 < 256 ^ n := Nat.pow_pos (by decide)
  have hlen : byteLength (product v (n + 2) (guess n (256 * r) v)) = n + 1 := by
    rw [hguess] at hlong ⊢
    rw [product, Nat.mod_eq_sub_mod hlong, Nat.mod_eq_of_lt (by omega)]
    exact byteLength_eq_succ (by omega) (by omega)
  have hwindow : 256 * r / 256 ^ 0 = 256 * r := by rw [Nat.pow_zero, Nat.div_one]
  have hexceeds := exceeds_overlong (r := 256 * r) (i := 0) hv hv' (by omega)
    (hwindow.symm ▸ hlong)
  rw [hwindow, Nat.add_zero, Nat.mul_div_cancel_left r (by decide),
    exceeds_shift (l := n + 1) hlen.le] at hexceeds
  exact ⟨hguess, hlen, hexceeds⟩

theorem leaves_of_long {m : ℕ} (hv : 256 ^ n ≤ v) (hv' : v < 256 ^ (n + 1)) (hr : r < v)
    (htl : n + 2 ≤ tl) (hm : m ≤ guess n (256 * r) v)
    (habove : ∀ m', m < m' → m' ≤ guess n (256 * r) v → Exceeds r (n + 1) v tl m')
    (hlong : n + 1 < byteLength (product v tl m)) : Leaves n v tl r := by
  have hmul : 256 ^ (n + 1) ≤ v * m :=
    (lt_byteLength_iff.mp hlong).trans (Nat.mod_le _ _)
  refine ⟨hmul.trans (Nat.mul_le_mul_left v hm), ?_⟩
  by_cases hshort : v * guess n (256 * r) v < 256 ^ (n + 2)
  · exact Or.inl hshort
  · right
    obtain htl' | rfl := Nat.lt_or_eq_of_le htl
    · exact Or.inl htl'
    · right
      obtain ⟨-, hlen, hexceeds⟩ := overlong_of_rest hv hv' hr (Nat.le_of_not_lt hshort)
      refine ⟨rfl, hexceeds.mp (habove _ ?_ le_rfl)⟩
      obtain rfl | hlt := Nat.eq_or_lt_of_le hm
      · omega
      · exact hlt

theorem long_of_leaves (hv : 256 ^ n ≤ v) (hv' : v < 256 ^ (n + 1)) (hr : r < v)
    (htl : n + 2 ≤ tl) (h : Leaves n v tl r) :
    ∃ m ≤ guess n (256 * r) v, n + 1 < byteLength (product v tl m) ∧
      ∀ m', m < m' → m' ≤ guess n (256 * r) v → Exceeds r (n + 1) v tl m' := by
  obtain ⟨hlow, hcases⟩ := h
  have hall (hroom : v * guess n (256 * r) v < 256 ^ tl) :
      ∃ m ≤ guess n (256 * r) v, n + 1 < byteLength (product v tl m) ∧
        ∀ m', m < m' → m' ≤ guess n (256 * r) v → Exceeds r (n + 1) v tl m' := by
    refine ⟨_, le_rfl, ?_, fun m' hlt hle ↦ absurd hle (Nat.not_le.mpr hlt)⟩
    rw [product_eq hroom]
    exact lt_byteLength_iff.mpr hlow
  by_cases hshort : v * guess n (256 * r) v < 256 ^ (n + 2)
  · exact hall (hshort.trans_le (Nat.pow_le_pow_right (by decide) htl))
  · obtain ⟨hguess, -, hexceeds⟩ := overlong_of_rest hv hv' hr (Nat.le_of_not_lt hshort)
    obtain hshort' | htl' | ⟨rfl, hless⟩ := hcases
    · exact absurd hshort' hshort
    · apply hall
      have hpow : 256 ^ (n + 3) = 256 ^ (n + 1) * 65536 := by ring
      apply (show v * guess n (256 * r) v < 256 ^ (n + 3) by rw [hguess, hpow]; omega).trans_le
      exact Nat.pow_le_pow_right (by decide) htl'
    · -- the guess 257 is found too large, and the product with 256 too long
      have hlong : 256 ^ (n + 1) ≤ v * 256 := by
        rw [Nat.pow_succ]
        exact Nat.mul_le_mul_right 256 hv
      have hroom : v * 256 < 256 ^ (n + 2) := by
        rw [Nat.pow_succ]
        exact Nat.mul_lt_mul_of_pos_right hv' (by decide)
      refine ⟨256, by omega, ?_, ?_⟩
      · rw [product_eq hroom]
        exact lt_byteLength_iff.mpr hlong
      · intro m' hlt hle
        obtain rfl : m' = guess n (256 * r) v := by omega
        exact hexceeds.mpr hless

end Found

end Compared

end Libobject.BigNumber
