import Libobject.Archive.SevenZipSafe
import Libobject.Lib.Digits
import Mathlib.Tactic.IntervalCases

/-!
# Numbers of variable length in a 7z header

The first byte of a number has as many leading ones as there are bytes behind it. They hold the low
bytes of the number, and what is left of the first byte its highest bits.
-/

namespace Libobject.SevenZip

/-- The turns of `__write_number`, with the bytes behind the first one that are written so far. -/
def write_numberFrom : ℕ → ℕ → UInt8 → UInt8 → UInt64 → List UInt8 → List UInt8
  | 0, _, first, _, _, rest => first :: rest
  | n + 1, i, first, mask, value, rest =>
    if value < 1 <<< UInt64.ofNat (7 * (i + 1)) then
      (first ||| (value >>> UInt64.ofNat (8 * i)).toUInt8) :: rest
    else
      write_numberFrom n (i + 1) (first ||| mask) (mask >>> 1) (value >>> 8)
        (rest ++ [value.toUInt8])

/-- The bytes of a number. The value is shifted from turn to turn, and the bits for the first byte
are taken from what is left of it. -/
def write_number (value : UInt64) : List UInt8 := write_numberFrom 8 0 0 0x80 value []

/-- A first byte with `k` leading ones and `x` behind the zero that ends them. -/
def lead (k x : ℕ) : UInt8 := UInt8.ofNat (256 - 2 ^ (8 - k) + x)

theorem lead_spec : ∀ k < 5, ∀ x < 2 ^ (7 - k),
    (∀ j < k, lead k x &&& (0x80 >>> UInt8.ofNat j) ≠ 0) ∧
      lead k x &&& (0x80 >>> UInt8.ofNat k) = 0 ∧
      (lead k x &&& ((0x80 >>> UInt8.ofNat k) - 1)).toNat = x ∧
      lead k 0 ||| UInt8.ofNat x = lead k x := by
  decide

theorem lead_succ : ∀ k < 4, lead k 0 ||| (0x80 >>> UInt8.ofNat k) = lead (k + 1) 0 ∧
    (0x80 : UInt8) >>> UInt8.ofNat k >>> 1 = 0x80 >>> UInt8.ofNat (k + 1) := by
  decide

/-! ## What is written -/

theorem toNat_shiftRight {i : ℕ} (hi : i < 8) (v : UInt64) :
    (v >>> UInt64.ofNat (8 * i)).toNat = v.toNat / 256 ^ i := by
  have hmod : (UInt64.ofNat (8 * i)).toNat % 64 = 8 * i := by
    rw [UInt64.toNat_ofNat']
    omega
  rw [UInt64.toNat_shiftRight, hmod, Nat.shiftRight_eq_div_pow, Nat.pow_mul]

theorem toNat_bound {i : ℕ} (hi : i < 8) :
    ((1 : UInt64) <<< UInt64.ofNat (7 * (i + 1))).toNat = 128 ^ (i + 1) := by
  interval_cases i <;> rfl

theorem shiftRight_succ {i : ℕ} (hi : i < 7) (v : UInt64) :
    v >>> UInt64.ofNat (8 * i) >>> 8 = v >>> UInt64.ofNat (8 * (i + 1)) := by
  apply UInt64.toNat_inj.mp
  have hone := toNat_shiftRight (show 1 < 8 by decide) (v >>> UInt64.ofNat (8 * i))
  rw [Nat.mul_one, toNat_shiftRight (by omega), Nat.div_div_eq_div_mul, ← Nat.pow_add] at hone
  exact hone.trans (toNat_shiftRight (by omega) v).symm

theorem toUInt8_shiftRight {i : ℕ} (hi : i < 8) (v : UInt64) :
    (v >>> UInt64.ofNat (8 * i)).toUInt8 = UInt8.ofNat (v.toNat / 256 ^ i) := by
  apply UInt8.toNat_inj.mp
  rw [UInt64.toNat_toUInt8, toNat_shiftRight hi, UInt8.toNat_ofNat']

theorem write_numberFrom_eq (v : UInt64) {n i : ℕ} (hn : i + n = 8) (hi : i ≤ 4)
    (hfrom : i = 0 ∨ 128 ^ i * 256 ^ (i - 1) ≤ v.toNat) :
    ∃ k ≤ 4, (k = 0 ∨ 128 ^ k * 256 ^ (k - 1) ≤ v.toNat) ∧
      v.toNat < 128 ^ (k + 1) * 256 ^ k ∧
      write_numberFrom n i (lead i 0) (0x80 >>> UInt8.ofNat i) (v >>> UInt64.ofNat (8 * i))
        (leBytes i v.toNat) = lead k (v.toNat / 256 ^ (2 * k)) :: leBytes k v.toNat := by
  induction n generalizing i with
  | zero => omega
  | succ n ih =>
    have hshift := toNat_shiftRight (show i < 8 by omega) v
    have hbound := toNat_bound (show i < 8 by omega)
    rw [write_numberFrom]
    split
    · next hlt =>
      rw [UInt64.lt_iff_toNat_lt, hshift, hbound, Nat.div_lt_iff_lt_mul (by positivity)] at hlt
      refine ⟨i, hi, hfrom, hlt, ?_⟩
      have hx : v.toNat / 256 ^ (2 * i) < 2 ^ (7 - i) := by
        rw [Nat.div_lt_iff_lt_mul (by positivity)]
        interval_cases i <;> omega
      have htop : (v >>> UInt64.ofNat (8 * i) >>> UInt64.ofNat (8 * i)).toUInt8 =
          UInt8.ofNat (v.toNat / 256 ^ (2 * i)) := by
        rw [toUInt8_shiftRight (by omega), hshift, Nat.div_div_eq_div_mul, ← Nat.pow_add,
          ← Nat.two_mul]
      rw [htop, (lead_spec i (by omega) _ hx).2.2.2]
    · next hge =>
      rw [UInt64.lt_iff_toNat_lt, hshift, hbound, Nat.div_lt_iff_lt_mul (by positivity),
        Nat.not_lt] at hge
      have hlt4 : i < 4 := by
        have hv := v.toNat_lt
        by_contra hnot
        obtain rfl : i = 4 := by omega
        omega
      have hlead := lead_succ i hlt4
      rw [hlead.1, hlead.2, shiftRight_succ (by omega), toUInt8_shiftRight (by omega),
        ← leBytes_succ]
      exact ih (by omega) (by omega) (.inr hge)

theorem write_number_eq (v : UInt64) :
    ∃ k ≤ 4, (k = 0 ∨ 128 ^ k * 256 ^ (k - 1) ≤ v.toNat) ∧
      v.toNat < 128 ^ (k + 1) * 256 ^ k ∧
      write_number v = lead k (v.toNat / 256 ^ (2 * k)) :: leBytes k v.toNat := by
  have hfrom := write_numberFrom_eq v (show 0 + 8 = 8 from rfl) (Nat.zero_le 4) (.inl rfl)
  have hzero : v >>> UInt64.ofNat (8 * 0) = v := UInt64.shiftRight_zero
  rw [hzero] at hfrom
  exact hfrom

/-! ## What is read back -/

theorem toNat_or_shiftLeft {i : ℕ} (hi : i < 8) {value : UInt64} (hvalue : value.toNat < 256 ^ i)
    (b : UInt8) :
    (value ||| (b.toUInt64 <<< UInt64.ofNat (8 * i))).toNat = value.toNat + 256 ^ i * b.toNat := by
  have hmod : (UInt64.ofNat (8 * i)).toNat % 64 = 8 * i := by
    rw [UInt64.toNat_ofNat']
    omega
  have hbyte := b.toNat_lt
  have hpow : (2 : ℕ) ^ (8 * i) = 256 ^ i := Nat.pow_mul 2 8 i
  have hfits : 2 ^ (8 * i) * b.toNat < 2 ^ 64 := by
    calc
      2 ^ (8 * i) * b.toNat < 2 ^ (8 * i) * 2 ^ 8 :=
        Nat.mul_lt_mul_of_pos_left hbyte (by positivity)
      _ = 2 ^ (8 * i + 8) := (Nat.pow_add 2 (8 * i) 8).symm
      _ ≤ 2 ^ 64 := Nat.pow_le_pow_right (by decide) (by omega)
  rw [UInt64.toNat_or, UInt64.toNat_shiftLeft, UInt8.toNat_toUInt64, hmod, Nat.shiftLeft_eq,
    Nat.mul_comm, Nat.mod_eq_of_lt hfits, Nat.or_comm, ← Nat.two_pow_add_eq_or_of_lt (by omega),
    hpow, Nat.add_comm]

/-- The bytes `bs` are read one after the other, and the bits behind the leading ones are put on
top. -/
theorem numberFrom_eq (value : UInt64) {w : Window} {first : UInt8} {k : ℕ} (hk : k < 8)
    (hones : ∀ j < k, first &&& (0x80 >>> UInt8.ofNat j) ≠ 0)
    (hzero : first &&& (0x80 >>> UInt8.ofNat k) = 0) {bs rest : List UInt8} {i n p : ℕ}
    (hvalue : value.toNat < 256 ^ i) (hlen : i + bs.length = k) (hn : i + n = 8)
    (hdata : w.data.drop (p + 1) = bs ++ rest) (hstop : w.stop = w.data.length) :
    ∃ v : UInt64, numberFrom w first n i value p = some (v, p + bs.length + 1) ∧
      v.toNat = value.toNat + 256 ^ i * leNat bs +
        256 ^ k * (first &&& ((0x80 >>> UInt8.ofNat k) - 1)).toNat := by
  induction bs generalizing i n p value with
  | nil =>
    obtain rfl : i = k := hlen
    obtain ⟨n, rfl⟩ : ∃ m, n = m + 1 := ⟨n - 1, by omega⟩
    rw [numberFrom, if_pos hzero]
    refine ⟨_, rfl, ?_⟩
    rw [toNat_or_shiftLeft (by omega) hvalue, leNat_nil, Nat.mul_zero, Nat.add_zero]
  | cons b bs ih =>
    rw [List.length_cons] at hlen
    obtain ⟨n, rfl⟩ : ∃ m, n = m + 1 := ⟨n - 1, by omega⟩
    have hget : w.data[p + 1]? = some b := by
      rw [← Nat.add_zero (p + 1), ← List.getElem?_drop, hdata]
      rfl
    have hinside : ¬ w.stop ≤ p + 1 := by
      obtain ⟨hlt, -⟩ := List.getElem?_eq_some_iff.mp hget
      omega
    have hnext : w.data.drop (p + 1 + 1) = bs ++ rest := by
      rw [← List.drop_drop, hdata]
      rfl
    have hor := toNat_or_shiftLeft (show i < 8 by omega) hvalue b
    have hbyte : 256 ^ i * b.toNat ≤ 256 ^ i * 255 :=
      Nat.mul_le_mul_left _ (Nat.le_of_lt_succ b.toNat_lt)
    have hpow : 256 ^ (i + 1) = 256 ^ i * 256 := Nat.pow_succ ..
    obtain ⟨v, hv, hsum⟩ := ih (value ||| (b.toUInt64 <<< UInt64.ofNat (8 * i))) (i := i + 1)
      (n := n) (p := p + 1) (by omega) (by omega) (by omega) hnext
    refine ⟨v, ?_, ?_⟩
    · rw [numberFrom, if_neg (hones i (by omega)), if_neg hinside, hget]
      dsimp only
      rw [List.length_cons, hv, Nat.add_right_comm p 1, Nat.add_assoc p]
    · rw [hsum, hor, leNat, hpow]
      ring

/-- What is read of the bytes of `v`: where the highest bits are in the first byte, they are taken
from twice as high as they are put back to. -/
theorem read_written (v : UInt64) (addr : ℕ) (pre post : List UInt8) :
    ∃ k ≤ 4, (k = 0 ∨ 128 ^ k * 256 ^ (k - 1) ≤ v.toNat) ∧ v.toNat < 128 ^ (k + 1) * 256 ^ k ∧
      ∃ r : UInt64, numberAt ⟨addr, pre ++ (write_number v ++ post),
          (pre ++ (write_number v ++ post)).length⟩ pre.length =
        some (r, pre.length + (write_number v).length) ∧
      r.toNat = v.toNat % 256 ^ k + 256 ^ k * (v.toNat / 256 ^ (2 * k)) := by
  obtain ⟨k, hk, hlow, hhigh, heq⟩ := write_number_eq v
  have hx : v.toNat / 256 ^ (2 * k) < 2 ^ (7 - k) := by
    rw [Nat.div_lt_iff_lt_mul (by positivity)]
    interval_cases k <;> omega
  obtain ⟨hones, hzero, hbits, -⟩ := lead_spec k (by omega) _ hx
  refine ⟨k, hk, hlow, hhigh, ?_⟩
  rw [heq]
  have hdata : (pre ++ (lead k (v.toNat / 256 ^ (2 * k)) :: leBytes k v.toNat ++ post)).drop
      (pre.length + 1) = leBytes k v.toNat ++ post := by
    rw [← List.drop_drop, List.drop_left]
    rfl
  have hget :
      (pre ++ (lead k (v.toNat / 256 ^ (2 * k)) :: leBytes k v.toNat ++ post))[pre.length]? =
      some (lead k (v.toNat / 256 ^ (2 * k))) := by
    rw [List.getElem?_append_right le_rfl, Nat.sub_self]
    rfl
  obtain ⟨hlt, -⟩ := List.getElem?_eq_some_iff.mp hget
  obtain ⟨r, hr, hsum⟩ := numberFrom_eq 0
    (w := ⟨addr, pre ++ (lead k (v.toNat / 256 ^ (2 * k)) :: leBytes k v.toNat ++ post),
      (pre ++ (lead k (v.toNat / 256 ^ (2 * k)) :: leBytes k v.toNat ++ post)).length⟩)
    (by omega) hones hzero (i := 0) (n := 8) (by decide)
    ((Nat.zero_add _).trans (length_leBytes k v.toNat)) rfl hdata rfl
  refine ⟨r, ?_, ?_⟩
  · rw [numberAt, if_neg (by exact Nat.not_le.mpr hlt), hget]
    exact hr.trans (by rw [List.length_cons, Nat.add_assoc])
  · rw [hsum, hbits, leNat_leBytes, UInt64.toNat_zero, Nat.zero_add, Nat.pow_zero, Nat.one_mul]

/-! ## When a number comes back -/

/-- The number is what is read of its bytes, wherever they stand and whatever follows them, the
cursor is behind them, and nothing is read at the end of a window or behind it. -/
structure Returns (v : UInt64) (addr : ℕ) (pre post : List UInt8) : Prop where
  value : numberAt ⟨addr, pre ++ (write_number v ++ post),
      (pre ++ (write_number v ++ post)).length⟩ pre.length =
    some (v, pre.length + (write_number v).length)
  inside : ∀ (data : List UInt8) (stop p : ℕ), stop ≤ data.length →
    (numberAt ⟨addr, data.take stop, stop⟩ p).isSome

theorem returns_iff (v : UInt64) (addr : ℕ) (pre post : List UInt8) :
    Returns v addr pre post ↔ v < 256 := by
  obtain ⟨k, hk, hlow, hhigh, r, hr, hsum⟩ := read_written v addr pre post
  have hsmall : r = v ↔ v < 256 := by
    rw [← UInt64.toNat_inj, UInt64.lt_iff_toNat_lt, hsum]
    change _ ↔ v.toNat < 256
    interval_cases k <;> omega
  rw [← hsmall]
  constructor
  · intro h
    have hvalue := hr.symm.trans h.value
    exact (Prod.mk.inj (Option.some.inj hvalue)).1
  · rintro rfl
    refine ⟨hr, fun data stop p hstop ↦ ?_⟩
    rw [numberAt_isSome]
    have hlen : (data.take stop).length = stop := List.length_take_of_le hstop
    exact fun hp ↦ ⟨hlen.symm ▸ hp, fun j _ _ hj ↦ hlen.symm ▸ hj⟩

/-- The two bytes of 256 are read as 0. -/
theorem not_returns : ¬ ∀ (v : UInt64) (addr : ℕ) (pre post : List UInt8),
    Returns v addr pre post := by
  intro h
  have hvalue := (h 256 0 [] []).value
  revert hvalue
  decide

end Libobject.SevenZip
