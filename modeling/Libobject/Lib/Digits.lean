import Libobject.Lib.Bytes
import Mathlib.Data.Nat.Digits.Lemmas

/-!
# The value of a row of bytes

A row of bytes, the least significant first, read as a number of any length: how its value comes
apart with the row, and how long a number is.
-/

namespace Libobject

theorem leNat_eq_ofDigits (bs : List UInt8) : leNat bs = Nat.ofDigits 256 (bs.map UInt8.toNat) := by
  induction bs with
  | nil => rfl
  | cons b bs ih => rw [leNat, ih, List.map_cons, Nat.ofDigits_cons]

theorem leNat_append (xs ys : List UInt8) :
    leNat (xs ++ ys) = leNat xs + 256 ^ xs.length * leNat ys := by
  simp only [leNat_eq_ofDigits, List.map_append, Nat.ofDigits_append, List.length_map]

theorem leNat_lt (bs : List UInt8) : leNat bs < 256 ^ bs.length := by
  have hbyte : ∀ d ∈ bs.map UInt8.toNat, d < 256 := by
    intro d hd
    obtain ⟨b, -, rfl⟩ := List.mem_map.mp hd
    exact b.toNat_lt
  have hlt := Nat.ofDigits_lt_base_pow_length (by decide) hbyte
  rwa [← leNat_eq_ofDigits, List.length_map] at hlt

@[simp] theorem leNat_nil : leNat [] = 0 := rfl

@[simp] theorem leNat_singleton (b : UInt8) : leNat [b] = b.toNat := by
  simp only [leNat, Nat.mul_zero, Nat.add_zero]

theorem leNat_take_add_drop (bs : List UInt8) {k : ℕ} (hk : k ≤ bs.length) :
    leNat (bs.take k) + 256 ^ k * leNat (bs.drop k) = leNat bs := by
  have happend := leNat_append (bs.take k) (bs.drop k)
  rw [List.take_append_drop, List.length_take, Nat.min_eq_left hk] at happend
  exact happend.symm

theorem leNat_take_add {bs : List UInt8} {k : ℕ} (hk : k ≤ bs.length) (n : ℕ) :
    leNat (bs.take (k + n)) = leNat (bs.take k) + 256 ^ k * leNat ((bs.drop k).take n) := by
  rw [List.take_add, leNat_append, List.length_take_of_le hk]

theorem leNat_take_lt (bs : List UInt8) (k : ℕ) : leNat (bs.take k) < 256 ^ k := by
  apply (leNat_lt _).trans_le
  apply Nat.pow_le_pow_right (by decide)
  exact List.length_take_le k bs

theorem leNat_take_succ {bs : List UInt8} {k : ℕ} (hk : k < bs.length) :
    leNat (bs.take (k + 1)) = leNat (bs.take k) + 256 ^ k * bs[k].toNat := by
  have hlen : (bs.take k).length = k := List.length_take_of_le hk.le
  rw [← List.take_append_getElem hk, leNat_append, hlen, leNat_singleton]

theorem leNat_take_mono (bs : List UInt8) {j k : ℕ} (hjk : j ≤ k) :
    leNat (bs.take j) ≤ leNat (bs.take k) := by
  obtain hk | hk := Nat.le_total k bs.length
  · have hsplit := leNat_take_add (hjk.trans hk) (k - j)
    rw [Nat.add_sub_cancel' hjk] at hsplit
    omega
  · rw [List.take_of_length_le hk]
    obtain hj | hj := Nat.le_total j bs.length
    · have hsplit := leNat_take_add_drop bs hj
      omega
    · rw [List.take_of_length_le hj]

theorem leNat_set {bs : List UInt8} {k : ℕ} (b : UInt8) (hk : k < bs.length) :
    leNat (bs.set k b) + 256 ^ k * bs[k].toNat = leNat bs + 256 ^ k * b.toNat := by
  have hlen : (bs.take k).length = k := List.length_take_of_le hk.le
  have hnew : leNat (bs.set k b) =
      leNat (bs.take k) + 256 ^ k * (b.toNat + 256 * leNat (bs.drop (k + 1))) := by
    rw [List.set_eq_take_append_cons_drop, if_pos hk, leNat_append, hlen, leNat]
  have hold : leNat bs = leNat (bs.take k) +
      256 ^ k * (bs[k].toNat + 256 * leNat (bs.drop (k + 1))) := by
    rw [← leNat_take_add_drop bs hk.le, List.drop_eq_getElem_cons hk, leNat]
  rw [hnew, hold]
  simp only [Nat.mul_add]
  omega

theorem leNat_drop_take {bs : List UInt8} {k : ℕ} (hk : k ≤ bs.length) (n : ℕ) :
    leNat ((bs.drop k).take n) = leNat (bs.take (k + n)) / 256 ^ k := by
  have hpos : 0 < 256 ^ k := Nat.pow_pos (by decide)
  rw [leNat_take_add hk, Nat.add_mul_div_left _ _ hpos, Nat.div_eq_of_lt (leNat_take_lt bs k),
    Nat.zero_add]

theorem toNat_getElem_eq_div {bs : List UInt8} {k : ℕ} (hk : k < bs.length) :
    bs[k].toNat = leNat (bs.take (k + 1)) / 256 ^ k := by
  have hpos : 0 < 256 ^ k := Nat.pow_pos (by decide)
  rw [leNat_take_succ hk, Nat.add_mul_div_left _ _ hpos, Nat.div_eq_of_lt (leNat_take_lt bs k),
    Nat.zero_add]

theorem toNat_getElem_eq_mod {bs : List UInt8} {k : ℕ} (hk : k < bs.length) :
    bs[k].toNat = leNat bs / 256 ^ k % 256 := by
  have hpos : 0 < 256 ^ k := Nat.pow_pos (by decide)
  have hsplit := leNat_take_add_drop bs (show k + 1 ≤ bs.length from hk)
  have hbyte : bs[k].toNat < 256 := bs[k].toNat_lt
  rw [toNat_getElem_eq_div hk] at hbyte ⊢
  rw [← hsplit, Nat.pow_succ, Nat.mul_assoc, Nat.add_mul_div_left _ _ hpos,
    Nat.add_mul_mod_self_left, Nat.mod_eq_of_lt hbyte]

theorem leNat_inj {xs ys : List UInt8} (hlen : xs.length = ys.length)
    (h : leNat xs = leNat ys) : xs = ys := by
  induction xs generalizing ys with
  | nil => exact (List.length_eq_zero_iff.mp hlen.symm).symm
  | cons x xs ih =>
    obtain _ | ⟨y, ys⟩ := ys
    · cases hlen
    · have hx := x.toNat_lt
      have hy := y.toNat_lt
      simp only [leNat] at h
      have hhead : x = y := by
        apply UInt8.toNat_inj.mp
        omega
      have htail : leNat xs = leNat ys := by omega
      rw [hhead, ih (Nat.succ.inj hlen) htail]

theorem leNat_eq_zero {bs : List UInt8} : leNat bs = 0 ↔ ∀ b ∈ bs, b = 0 := by
  induction bs with
  | nil => simp
  | cons b bs ih =>
    have hbyte : b.toNat = 0 ↔ b = 0 := by rw [← UInt8.toNat_inj, UInt8.toNat_zero]
    rw [leNat, List.forall_mem_cons, ← ih, ← hbyte]
    omega

@[simp] theorem leNat_replicate_zero (n : ℕ) : leNat (List.replicate n 0) = 0 :=
  leNat_eq_zero.mpr fun _ hb ↦ List.eq_of_mem_replicate hb

/-- The number of bytes that a number takes when none of them is to be spared. -/
def byteLength (n : ℕ) : ℕ := (Nat.digits 256 n).length

theorem byteLength_le_iff {n k : ℕ} : byteLength n ≤ k ↔ n < 256 ^ k :=
  Nat.digits_length_le_iff (by decide) n

theorem lt_byteLength_iff {n k : ℕ} : k < byteLength n ↔ 256 ^ k ≤ n :=
  Nat.lt_digits_length_iff (by decide) n

@[simp] theorem byteLength_zero : byteLength 0 = 0 := by
  rw [byteLength, Nat.digits_zero, List.length_nil]

@[simp] theorem byteLength_eq_zero {n : ℕ} : byteLength n = 0 ↔ n = 0 := by
  rw [byteLength, List.length_eq_zero_iff, Nat.digits_eq_nil_iff_eq_zero]

theorem lt_pow_byteLength (n : ℕ) : n < 256 ^ byteLength n := byteLength_le_iff.mp le_rfl

theorem byteLength_leNat_le (bs : List UInt8) : byteLength (leNat bs) ≤ bs.length :=
  byteLength_le_iff.mpr (leNat_lt bs)

theorem byteLength_eq_succ {n k : ℕ} (hle : 256 ^ k ≤ n) (hlt : n < 256 ^ (k + 1)) :
    byteLength n = k + 1 := by
  apply Nat.le_antisymm
  · exact byteLength_le_iff.mpr hlt
  · exact lt_byteLength_iff.mpr hle

theorem byteLength_concat {bs : List UInt8} {b : UInt8} (hb : b ≠ 0) :
    byteLength (leNat (bs ++ [b])) = bs.length + 1 := by
  have hpos : 1 ≤ b.toNat := by
    apply Nat.one_le_iff_ne_zero.mpr
    rwa [ne_eq, ← UInt8.toNat_zero, UInt8.toNat_inj]
  have hvalue : leNat (bs ++ [b]) = leNat bs + 256 ^ bs.length * b.toNat := by
    rw [leNat_append, leNat_singleton]
  have hmul : 256 ^ bs.length * 1 ≤ 256 ^ bs.length * b.toNat := Nat.mul_le_mul_left _ hpos
  apply byteLength_eq_succ
  · omega
  · simpa using leNat_lt (bs ++ [b])

theorem leNat_take_of_byteLength_le {bs : List UInt8} {n : ℕ} (hn : byteLength (leNat bs) ≤ n) :
    leNat (bs.take n) = leNat bs := by
  obtain hle | hlt := Nat.lt_or_ge bs.length n
  · rw [List.take_of_length_le hle.le]
  · have hsplit := leNat_take_add_drop bs hlt
    have hbound := byteLength_le_iff.mp hn
    have hzero : leNat (bs.drop n) = 0 := by
      by_contra hne
      have hmul := Nat.le_mul_of_pos_right (256 ^ n) (Nat.pos_of_ne_zero hne)
      omega
    rw [hzero, Nat.mul_zero, Nat.add_zero] at hsplit
    exact hsplit

end Libobject
