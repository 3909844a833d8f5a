import Libobject.BigNumber.Basic
import Mathlib.Data.Nat.ModEq
import Mathlib.Tactic.LinearCombination

/-!
# Multiplying two numbers

The first number is multiplied with one 32-bit digit of the second after the other, and each row is
added to the product. A digit of the product is read in four bytes even where the buffer ends before
them: `behind` is what stands there, by the distance from the beginning of the buffer. What is
written past the end is dropped.
-/

namespace Libobject.BigNumber

/-- The digit `r`, the product of `a` and `w` and the carry `c` as a digit and a new carry. -/
def BN_MUL_U32 (r a w c : UInt32) : UInt32 × UInt32 :=
  let product := w.toUInt64 * a.toUInt64
  let high := (product >>> 32).toUInt32
  let low := product.toUInt32
  let ret := r + c
  let c := (if ret < c then 1 else 0) + high
  let ret := ret + low
  (ret, c + if ret < low then 1 else 0)

def wordOf (bs : List UInt8) : UInt32 := UInt32.ofNat (leNat bs)

/-- The digits of a number, the last one of the bytes that are left. -/
def words : List UInt8 → List UInt32
  | [] => []
  | [b0] => [wordOf [b0]]
  | [b0, b1] => [wordOf [b0, b1]]
  | [b0, b1, b2] => [wordOf [b0, b1, b2]]
  | b0 :: b1 :: b2 :: b3 :: bs => wordOf [b0, b1, b2, b3] :: words bs
  termination_by structural bs => bs

section Buffer

variable (behind : ℕ → UInt8)

def readBytes (dest : List UInt8) (off : ℕ) : ℕ → List UInt8
  | 0 => []
  | n + 1 => dest[off]?.getD (behind off) :: readBytes dest (off + 1) n

def putBytes (dest : List UInt8) (off : ℕ) : List UInt8 → List UInt8
  | [] => dest
  | b :: bs => putBytes (if off < dest.length then dest.set off b else dest) (off + 1) bs

def mulWords (word : UInt32) : List UInt32 → ℕ → List UInt8 → UInt32 → List UInt8 × ℕ × UInt32
  | [], off, dest, carry => (dest, off, carry)
  | t2 :: a, off, dest, carry =>
    let t := BN_MUL_U32 (wordOf (readBytes behind dest off 4)) t2 word carry
    mulWords word a (off + 4) (putBytes dest off (leBytes 4 t.1.toNat)) t.2

/-- `bn_mul_u32` from the place `i` of the buffer on. -/
def bn_mul_u32 (dest : List UInt8) (i : ℕ) (a : List UInt8) (word : UInt32) : List UInt8 :=
  let (dest, off, carry) := mulWords behind word (words a) i dest 0
  if carry > 0 then putBytes dest off (leBytes 4 carry.toNat) else dest

/-- The loop of `bn_mul` over the digits of the second number. -/
def mulRows (a : List UInt8) : List UInt32 → ℕ → List UInt8 → List UInt8
  | [], _, dest => dest
  | value :: b, i, dest => mulRows a b (i + 4) (bn_mul_u32 behind dest i a value)

def bn_mul (dest : List UInt8) (dest_size : ℕ) (a b : List UInt8) :
    Option (ℤ × List UInt8 × ℕ) := do
  let a_size ← bn_size a a.length
  let b_size ← bn_size b b.length
  if dest.length < a_size + b_size then return (-1, dest, dest_size)
  let (a, b) :=
    if a_size < b_size then (b.take b_size, a.take a_size) else (a.take a_size, b.take b_size)
  if b.length ≤ 0 then return (0, dest, dest_size)
  let dest := mulRows behind a (words b) 0 dest
  let dest_size ← bn_size dest dest.length
  return (1, dest, dest_size)

end Buffer

theorem toNat_wordOf {bs : List UInt8} (h : bs.length ≤ 4) : (wordOf bs).toNat = leNat bs := by
  have hlt := leNat_lt bs
  have hpow : 256 ^ bs.length ≤ 256 ^ 4 := Nat.pow_le_pow_right (by decide) h
  rw [wordOf, UInt32.toNat_ofNat', Nat.mod_eq_of_lt (by omega)]

def leWords : List UInt32 → ℕ
  | [] => 0
  | w :: ws => w.toNat + 256 ^ 4 * leWords ws

theorem leWords_words (bs : List UInt8) : leWords (words bs) = leNat bs := by
  induction bs using words.induct with
  | case1 => rfl
  | case2 b0 => rw [words, leWords, toNat_wordOf (by simp), leWords]; rfl
  | case3 b0 b1 => rw [words, leWords, toNat_wordOf (by simp), leWords]; rfl
  | case4 b0 b1 b2 => rw [words, leWords, toNat_wordOf (by simp), leWords]; rfl
  | case5 b0 b1 b2 b3 bs ih =>
    rw [words, leWords, toNat_wordOf (by simp), ih]
    simp only [leNat]
    omega

theorem BN_MUL_U32_eq (r a w c : UInt32) :
    (BN_MUL_U32 r a w c).1.toNat + 256 ^ 4 * (BN_MUL_U32 r a w c).2.toNat =
      r.toNat + a.toNat * w.toNat + c.toNat := by
  have hr := r.toNat_lt
  have hc := c.toNat_lt
  have hproduct : (w.toUInt64 * a.toUInt64).toNat = a.toNat * w.toNat := by
    have hle : w.toNat * a.toNat ≤ (2 ^ 32 - 1) * (2 ^ 32 - 1) :=
      Nat.mul_le_mul (Nat.le_pred_of_lt w.toNat_lt) (Nat.le_pred_of_lt a.toNat_lt)
    rw [UInt64.toNat_mul, UInt32.toNat_toUInt64, UInt32.toNat_toUInt64, Nat.mul_comm a.toNat]
    exact Nat.mod_eq_of_lt (by omega)
  have hbound : a.toNat * w.toNat ≤ (2 ^ 32 - 1) * (2 ^ 32 - 1) :=
    Nat.mul_le_mul (Nat.le_pred_of_lt a.toNat_lt) (Nat.le_pred_of_lt w.toNat_lt)
  have hlow : (w.toUInt64 * a.toUInt64).toUInt32.toNat = a.toNat * w.toNat % 2 ^ 32 := by
    rw [UInt64.toNat_toUInt32, hproduct]
  have hhigh : ((w.toUInt64 * a.toUInt64) >>> 32).toUInt32.toNat = a.toNat * w.toNat / 2 ^ 32 := by
    rw [UInt64.toNat_toUInt32, UInt64.toNat_shiftRight, hproduct]
    have hdiv : a.toNat * w.toNat / 2 ^ 32 < 2 ^ 32 := by omega
    simpa [Nat.shiftRight_eq_div_pow] using Nat.mod_eq_of_lt hdiv
  generalize hp : a.toNat * w.toNat = p at hlow hhigh hbound
  have hsplit := Nat.div_add_mod p (2 ^ 32)
  simp only [BN_MUL_U32, UInt32.lt_iff_toNat_lt, UInt32.toNat_add, hlow]
  split_ifs <;> simp [hhigh] <;> omega

theorem leBytes_word (w : UInt32) : leNat (leBytes 4 w.toNat) = w.toNat := by
  rw [leNat_leBytes]
  exact Nat.mod_eq_of_lt w.toNat_lt

@[simp] theorem length_readBytes (behind : ℕ → UInt8) (dest : List UInt8) (off n : ℕ) :
    (readBytes behind dest off n).length = n := by
  induction n generalizing off with
  | zero => rfl
  | succ n ih => rw [readBytes, List.length_cons, ih]

theorem readBytes_congr (behind : ℕ → UInt8) {dest dest' : List UInt8} {off : ℕ}
    (h : ∀ k, off ≤ k → dest[k]? = dest'[k]?) (n : ℕ) :
    readBytes behind dest off n = readBytes behind dest' off n := by
  induction n generalizing off with
  | zero => rfl
  | succ n ih =>
    rw [readBytes, readBytes, h off le_rfl, ih fun k hk ↦ h k (Nat.le_of_succ_le hk)]

@[simp] theorem length_putBytes (dest : List UInt8) (off : ℕ) (bs : List UInt8) :
    (putBytes dest off bs).length = dest.length := by
  induction bs generalizing dest off with
  | nil => rfl
  | cons b bs ih =>
    rw [putBytes, ih]
    split
    · rw [List.length_set]
    · rfl

theorem drop_putBytes {dest : List UInt8} {off m : ℕ} (bs : List UInt8) (h : off + bs.length ≤ m) :
    (putBytes dest off bs).drop m = dest.drop m := by
  induction bs generalizing dest off with
  | nil => rfl
  | cons b bs ih =>
    rw [List.length_cons] at h
    rw [putBytes, ih (by omega)]
    split
    · rw [List.drop_set_of_lt (by omega)]
    · rfl

theorem pow_modEq_zero {n off : ℕ} (h : n ≤ off) (k : ℕ) : 256 ^ off * k ≡ 0 [MOD 256 ^ n] := by
  apply (Nat.modEq_zero_iff_dvd).mpr
  exact Dvd.dvd.mul_right (Nat.pow_dvd_pow 256 h) k

theorem leNat_putBytes (behind : ℕ → UInt8) (dest : List UInt8) (off : ℕ) (bs : List UInt8) :
    leNat (putBytes dest off bs) + 256 ^ off * leNat (readBytes behind dest off bs.length) ≡
      leNat dest + 256 ^ off * leNat bs [MOD 256 ^ dest.length] := by
  induction bs generalizing dest off with
  | nil => rfl
  | cons b bs ih =>
    by_cases h : off < dest.length
    · have hread : readBytes behind (dest.set off b) (off + 1) bs.length =
          readBytes behind dest (off + 1) bs.length := by
        apply readBytes_congr
        intro k hk
        rw [List.getElem?_set_ne (by omega)]
      have hrest := ih (dest.set off b) (off + 1)
      rw [hread, List.length_set] at hrest
      have hset := leNat_set b h
      rw [putBytes, if_pos h, List.length_cons, readBytes, List.getElem?_eq_getElem h,
        Option.getD_some, leNat, leNat]
      have hadd := hrest.add_right (256 ^ off * dest[off].toNat)
      rw [Nat.pow_succ] at hadd
      have hleft : leNat (putBytes (dest.set off b) (off + 1) bs) + 256 ^ off *
          (dest[off].toNat + 256 * leNat (readBytes behind dest (off + 1) bs.length)) =
          leNat (putBytes (dest.set off b) (off + 1) bs) + 256 ^ off * 256 *
            leNat (readBytes behind dest (off + 1) bs.length) + 256 ^ off * dest[off].toNat := by
        ring
      have hright : leNat dest + 256 ^ off * (b.toNat + 256 * leNat bs) =
          leNat (dest.set off b) + 256 ^ off * 256 * leNat bs + 256 ^ off * dest[off].toNat := by
        rw [Nat.mul_add, ← Nat.mul_assoc]
        omega
      rw [hleft, hright]
      exact hadd
    · have hpast : dest.length ≤ off := Nat.le_of_not_lt h
      have hrest := ih dest (off + 1)
      have hzero := @pow_modEq_zero dest.length (off + 1) (by omega)
      have hsame : leNat (putBytes dest (off + 1) bs) ≡ leNat dest [MOD 256 ^ dest.length] := by
        have hone := (Nat.ModEq.refl (leNat (putBytes dest (off + 1) bs))).add
          (hzero (leNat (readBytes behind dest (off + 1) bs.length)))
        have htwo := (Nat.ModEq.refl (n := 256 ^ dest.length) (leNat dest)).add
          (hzero (leNat bs))
        exact hone.symm.trans (hrest.trans htwo)
      rw [putBytes, if_neg h]
      exact hsame.add ((pow_modEq_zero hpast _).trans (pow_modEq_zero hpast _).symm)

theorem leNat_readBytes (behind : ℕ → UInt8) (dest : List UInt8) (off n : ℕ) :
    256 ^ off * leNat (readBytes behind dest off n) ≡
      256 ^ off * leNat ((dest.drop off).take n) [MOD 256 ^ dest.length] := by
  induction n generalizing off with
  | zero => rfl
  | succ n ih =>
    by_cases h : off < dest.length
    · have hrest := ih (off + 1)
      rw [Nat.pow_succ, Nat.mul_assoc, Nat.mul_assoc] at hrest
      rw [readBytes, List.getElem?_eq_getElem h, Option.getD_some, List.drop_eq_getElem_cons h,
        List.take_succ_cons, leNat, leNat, Nat.mul_add, Nat.mul_add]
      exact hrest.add_left _
    · have hpast : dest.length ≤ off := Nat.le_of_not_lt h
      exact (pow_modEq_zero hpast _).trans (pow_modEq_zero hpast _).symm

section Rows

variable (behind : ℕ → UInt8) (word : UInt32)

theorem mulWords_frame (ws : List UInt32) (off : ℕ) (dest : List UInt8) (carry : UInt32) :
    (mulWords behind word ws off dest carry).1.length = dest.length ∧
      (mulWords behind word ws off dest carry).2.1 = off + 4 * ws.length ∧
      (mulWords behind word ws off dest carry).1.drop (off + 4 * ws.length) =
        dest.drop (off + 4 * ws.length) := by
  induction ws generalizing off dest carry with
  | nil => exact ⟨rfl, rfl, rfl⟩
  | cons w ws ih =>
    have hoff : off + 4 * (w :: ws).length = off + 4 + 4 * ws.length := by
      rw [List.length_cons]
      omega
    rw [mulWords, hoff]
    obtain ⟨hlen, hend, hdrop⟩ := ih (off + 4)
      (putBytes dest off (leBytes 4
        (BN_MUL_U32 (wordOf (readBytes behind dest off 4)) w word carry).1.toNat))
      (BN_MUL_U32 (wordOf (readBytes behind dest off 4)) w word carry).2
    refine ⟨hlen.trans (length_putBytes _ _ _), hend, hdrop.trans ?_⟩
    apply drop_putBytes
    rw [length_leBytes]
    omega

theorem leNat_mulWords (ws : List UInt32) (off : ℕ) (dest : List UInt8) (carry : UInt32) :
    leNat (mulWords behind word ws off dest carry).1 +
        256 ^ (off + 4 * ws.length) * (mulWords behind word ws off dest carry).2.2.toNat ≡
      leNat dest + 256 ^ off * (leWords ws * word.toNat + carry.toNat) [MOD 256 ^ dest.length] := by
  induction ws generalizing off dest carry with
  | nil =>
    simp only [mulWords, List.length_nil, Nat.mul_zero, Nat.add_zero, leWords, Nat.zero_mul,
      Nat.zero_add]
    rfl
  | cons w ws ih =>
    let old := readBytes behind dest off 4
    let t := BN_MUL_U32 (wordOf old) w word carry
    have ht : t.1.toNat + 256 ^ 4 * t.2.toNat = leNat old + w.toNat * word.toNat + carry.toNat := by
      have hdigit := BN_MUL_U32_eq (wordOf old) w word carry
      rwa [toNat_wordOf (length_readBytes _ _ _ _).le] at hdigit
    have hput := leNat_putBytes behind dest off (leBytes 4 t.1.toNat)
    rw [leBytes_word, length_leBytes] at hput
    have hrest := ih (off + 4) (putBytes dest off (leBytes 4 t.1.toNat)) t.2
    rw [length_putBytes] at hrest
    have hoff : off + 4 * (w :: ws).length = off + 4 + 4 * ws.length := by
      rw [List.length_cons]
      omega
    rw [mulWords, hoff]
    -- what was read of the buffer stands on both sides
    apply Nat.ModEq.add_right_cancel' (256 ^ off * leNat old)
    have hadd := hrest.add_right (256 ^ off * leNat old)
    have hput' := hput.add_right (256 ^ (off + 4) * (leWords ws * word.toNat + t.2.toNat))
    have hmiddle : leNat (putBytes dest off (leBytes 4 t.1.toNat)) +
          256 ^ (off + 4) * (leWords ws * word.toNat + t.2.toNat) + 256 ^ off * leNat old =
        leNat (putBytes dest off (leBytes 4 t.1.toNat)) + 256 ^ off * leNat old +
          256 ^ (off + 4) * (leWords ws * word.toNat + t.2.toNat) := Nat.add_right_comm _ _ _
    have hfinal : leNat dest + 256 ^ off * t.1.toNat +
          256 ^ (off + 4) * (leWords ws * word.toNat + t.2.toNat) =
        leNat dest + 256 ^ off * (leWords (w :: ws) * word.toNat + carry.toNat) +
          256 ^ off * leNat old := by
      have hscaled := congrArg (256 ^ off * ·) ht
      simp only [Nat.mul_add] at hscaled
      rw [leWords, Nat.pow_add]
      linear_combination hscaled
    rw [hmiddle] at hadd
    rw [hfinal] at hput'
    exact hadd.trans hput'

theorem leNat_bn_mul_u32 {dest a : List UInt8} {i : ℕ}
    (hzero : leNat (dest.drop (i + 4 * (words a).length)) = 0) :
    leNat (bn_mul_u32 behind dest i a word) ≡ leNat dest + 256 ^ i * (leNat a * word.toNat)
      [MOD 256 ^ dest.length] := by
  have hrow := leNat_mulWords behind word (words a) i dest 0
  obtain ⟨hlen, hend, hdrop⟩ := mulWords_frame behind word (words a) i dest 0
  rw [leWords_words, UInt32.toNat_zero, Nat.add_zero] at hrow
  unfold bn_mul_u32
  generalize mulWords behind word (words a) i dest 0 = r at hrow hlen hend hdrop
  obtain ⟨row, off, carry⟩ := r
  simp only at hrow hlen hend hdrop ⊢
  subst hend
  split
  · have hput := leNat_putBytes behind row (i + 4 * (words a).length) (leBytes 4 carry.toNat)
    have hold := leNat_readBytes behind row (i + 4 * (words a).length) 4
    have hnone : leNat ((row.drop (i + 4 * (words a).length)).take 4) = 0 := by
      rw [hdrop]
      apply leNat_eq_zero.mpr
      intro b hb
      exact leNat_eq_zero.mp hzero b (List.mem_of_mem_take hb)
    rw [hnone, Nat.mul_zero] at hold
    rw [leBytes_word, length_leBytes, hlen] at hput
    rw [hlen] at hold
    have hsum := (Nat.ModEq.refl (leNat (putBytes row (i + 4 * (words a).length)
      (leBytes 4 carry.toNat)))).add hold
    rw [Nat.add_zero] at hsum
    exact hsum.symm.trans (hput.trans hrow)
  · next hcarry =>
      have hnone : carry.toNat = 0 := Nat.le_zero.mp (UInt32.not_lt.mp hcarry)
      rwa [hnone, Nat.mul_zero, Nat.add_zero] at hrow

theorem bn_mul_u32_frame (dest a : List UInt8) (i : ℕ) :
    (bn_mul_u32 behind dest i a word).length = dest.length ∧
      (bn_mul_u32 behind dest i a word).drop (i + 4 + 4 * (words a).length) =
        dest.drop (i + 4 + 4 * (words a).length) := by
  obtain ⟨hlen, hend, hdrop⟩ := mulWords_frame behind word (words a) i dest 0
  have hbehind : (mulWords behind word (words a) i dest 0).1.drop (i + 4 + 4 * (words a).length) =
      dest.drop (i + 4 + 4 * (words a).length) := by
    have hmore := congrArg (List.drop 4) hdrop
    rw [List.drop_drop, List.drop_drop] at hmore
    rwa [Nat.add_right_comm]
  unfold bn_mul_u32
  generalize mulWords behind word (words a) i dest 0 = r at hlen hend hbehind
  obtain ⟨row, off, carry⟩ := r
  simp only at hlen hend hbehind ⊢
  subst hend
  split
  · refine ⟨(length_putBytes _ _ _).trans hlen, ?_⟩
    rw [drop_putBytes _ (by rw [length_leBytes]; omega), hbehind]
  · exact ⟨hlen, hbehind⟩

variable {word} in
theorem leNat_mulRows (a : List UInt8) (ws : List UInt32) (i : ℕ) (dest : List UInt8)
    (hzero : leNat (dest.drop (i + 4 * (words a).length)) = 0) :
    leNat (mulRows behind a ws i dest) ≡ leNat dest + 256 ^ i * (leNat a * leWords ws)
        [MOD 256 ^ dest.length] ∧
      (mulRows behind a ws i dest).length = dest.length := by
  induction ws generalizing i dest with
  | nil => exact ⟨rfl, rfl⟩
  | cons value ws ih =>
    obtain ⟨hlen, hdrop⟩ := bn_mul_u32_frame behind value dest a i
    have hrow := leNat_bn_mul_u32 behind value hzero
    have hzero' : leNat ((bn_mul_u32 behind dest i a value).drop
        (i + 4 + 4 * (words a).length)) = 0 := by
      rw [hdrop, Nat.add_right_comm, ← List.drop_drop]
      apply leNat_eq_zero.mpr
      intro b hb
      exact leNat_eq_zero.mp hzero b (List.mem_of_mem_drop hb)
    obtain ⟨hrest, hlen'⟩ := ih (i + 4) (bn_mul_u32 behind dest i a value) hzero'
    rw [hlen] at hrest hlen'
    refine ⟨?_, hlen'⟩
    have hadd := hrow.add_right (256 ^ (i + 4) * (leNat a * leWords ws))
    have hall : leNat dest + 256 ^ i * (leNat a * value.toNat) +
          256 ^ (i + 4) * (leNat a * leWords ws) =
        leNat dest + 256 ^ i * (leNat a * leWords (value :: ws)) := by
      rw [leWords, Nat.pow_add]
      ring
    rw [hall] at hadd
    exact hrest.trans hadd

end Rows

theorem leNat_mulRows_zeroed (behind : ℕ → UInt8) {dest a b : List UInt8} (hzero : leNat dest = 0)
    (hroom : a.length + b.length ≤ dest.length) :
    leNat (mulRows behind a (words b) 0 dest) = leNat a * leNat b ∧
      (mulRows behind a (words b) 0 dest).length = dest.length := by
  have hdrop : leNat (dest.drop (0 + 4 * (words a).length)) = 0 := by
    apply leNat_eq_zero.mpr
    intro b hb
    exact leNat_eq_zero.mp hzero b (List.mem_of_mem_drop hb)
  obtain ⟨hmod, hlen⟩ := leNat_mulRows behind a (words b) 0 dest hdrop
  refine ⟨?_, hlen⟩
  have hproduct : leNat a * leNat b < 256 ^ dest.length := by
    have hmul : leNat a * leNat b < 256 ^ a.length * 256 ^ b.length :=
      Nat.mul_lt_mul'' (leNat_lt a) (leNat_lt b)
    rw [← Nat.pow_add] at hmul
    exact hmul.trans_le (Nat.pow_le_pow_right (by decide) hroom)
  have hvalue := leNat_lt (mulRows behind a (words b) 0 dest)
  rw [hzero, leWords_words, Nat.zero_add, Nat.pow_zero, Nat.one_mul] at hmod
  rw [hlen] at hvalue
  exact Nat.ModEq.eq_of_lt_of_lt hmod hvalue hproduct

theorem operands_swapped (a b : List UInt8) :
    ∃ x y : List UInt8,
      (if byteLength (leNat a) < byteLength (leNat b)
        then (b.take (byteLength (leNat b)), a.take (byteLength (leNat a)))
        else (a.take (byteLength (leNat a)), b.take (byteLength (leNat b)))) = (x, y) ∧
      leNat x * leNat y = leNat a * leNat b ∧
      x.length + y.length = byteLength (leNat a) + byteLength (leNat b) ∧
      (y.length = 0 ↔ leNat a = 0 ∨ leNat b = 0) := by
  have ha : (a.take (byteLength (leNat a))).length = byteLength (leNat a) :=
    List.length_take_of_le (byteLength_leNat_le a)
  have hb : (b.take (byteLength (leNat b))).length = byteLength (leNat b) :=
    List.length_take_of_le (byteLength_leNat_le b)
  have hva : leNat (a.take (byteLength (leNat a))) = leNat a := leNat_take_of_byteLength_le le_rfl
  have hvb : leNat (b.take (byteLength (leNat b))) = leNat b := leNat_take_of_byteLength_le le_rfl
  have hza := byteLength_eq_zero (n := leNat a)
  have hzb := byteLength_eq_zero (n := leNat b)
  split
  · refine ⟨_, _, rfl, ?_, ?_, ?_⟩
    · rw [hva, hvb, Nat.mul_comm]
    · rw [ha, hb, Nat.add_comm]
    · rw [ha]
      omega
  · refine ⟨_, _, rfl, ?_, ?_, ?_⟩
    · rw [hva, hvb]
    · rw [ha, hb]
    · rw [hb]
      omega

theorem bn_mul_eq {behind : ℕ → UInt8} {dest a b : List UInt8} (dest_size : ℕ)
    (hzero : leNat dest = 0) (hroom : byteLength (leNat a) + byteLength (leNat b) ≤ dest.length) :
    (leNat a = 0 ∨ leNat b = 0 → bn_mul behind dest dest_size a b = some (0, dest, dest_size)) ∧
      (leNat a ≠ 0 ∧ leNat b ≠ 0 → ∃ product : List UInt8,
        product.length = dest.length ∧ leNat product = leNat a * leNat b ∧
        bn_mul behind dest dest_size a b =
          some (1, product, byteLength (leNat a * leNat b))) := by
  have hsizea := @bn_size_eq a _ le_rfl
  have hsizeb := @bn_size_eq b _ le_rfl
  rw [List.take_length] at hsizea hsizeb
  obtain ⟨x, y, hswap, hproduct, hlen, hempty⟩ := operands_swapped a b
  have hcode : bn_mul behind dest dest_size a b =
      if y.length ≤ 0 then some (0, dest, dest_size)
      else (bn_size (mulRows behind x (words y) 0 dest)
        (mulRows behind x (words y) 0 dest).length).map
          fun size ↦ (1, mulRows behind x (words y) 0 dest, size) := by
    rw [bn_mul, hsizea, hsizeb]
    simp only [Option.bind_eq_bind, Option.bind_some]
    rw [if_neg (by omega), hswap]
    split
    · rfl
    · simp only [Option.map_eq_bind, Option.pure_def, Function.comp_def]
  constructor
  · intro h
    rw [hcode, if_pos (hempty.mpr h).le]
  · rintro ⟨ha, hb⟩
    have hne : ¬ y.length ≤ 0 := by
      intro hle
      exact (hempty.mp (Nat.le_zero.mp hle)).elim ha hb
    obtain ⟨hvalue, hrows⟩ := leNat_mulRows_zeroed behind hzero (hlen.trans_le hroom)
    refine ⟨_, hrows, hvalue.trans hproduct, ?_⟩
    rw [hcode, if_neg hne, bn_size_eq le_rfl, List.take_length, hvalue, hproduct, Option.map_some]

theorem bn_mul_value {behind : ℕ → UInt8} {dest a b : List UInt8} (dest_size : ℕ)
    (hzero : leNat dest = 0) (hroom : byteLength (leNat a) + byteLength (leNat b) ≤ dest.length) :
    ∃ (ret : ℤ) (product : List UInt8) (size : ℕ),
      bn_mul behind dest dest_size a b = some (ret, product, size) ∧ 0 ≤ ret ∧
        product.length = dest.length ∧ leNat product = leNat a * leNat b := by
  obtain ⟨hthrow, hmul⟩ := bn_mul_eq dest_size hzero hroom
  by_cases hnone : leNat a = 0 ∨ leNat b = 0
  · refine ⟨0, dest, dest_size, hthrow hnone, le_rfl, rfl, ?_⟩
    rw [hzero, Nat.mul_eq_zero.mpr hnone]
  · obtain ⟨product, hlen, hvalue, hcode⟩ := hmul (not_or.mp hnone)
    exact ⟨1, product, _, hcode, by decide, hlen, hvalue⟩

theorem bn_mul_no_room {behind : ℕ → UInt8} {dest a b : List UInt8} (dest_size : ℕ)
    (hroom : dest.length < byteLength (leNat a) + byteLength (leNat b)) :
    bn_mul behind dest dest_size a b = some (-1, dest, dest_size) := by
  have hsizea := @bn_size_eq a _ le_rfl
  have hsizeb := @bn_size_eq b _ le_rfl
  rw [List.take_length] at hsizea hsizeb
  rw [bn_mul, hsizea, hsizeb]
  simp only [Option.bind_eq_bind, Option.bind_some]
  rw [if_pos hroom]
  rfl

/-- The destination holds the product, and the size is what it takes. -/
def Multiplies (behind : ℕ → UInt8) (dest : List UInt8) (dest_size : ℕ) (a b : List UInt8) :
    Prop :=
  ∃ (ret : ℤ) (product : List UInt8) (size : ℕ),
    bn_mul behind dest dest_size a b = some (ret, product, size) ∧ 0 ≤ ret ∧
      leNat product = leNat a * leNat b ∧ size = byteLength (leNat a * leNat b)

/-- Multiplying is right exactly for operands of which none is zero, as the size is not stored
for the others. -/
theorem multiplies_iff (behind : ℕ → UInt8) (dest : List UInt8) (dest_size : ℕ) (a b : List UInt8)
    (hzero : leNat dest = 0) (hroom : a.length + b.length ≤ dest.length) :
    Multiplies behind dest dest_size a b ↔ (leNat a ≠ 0 ∧ leNat b ≠ 0) ∨ dest_size = 0 := by
  have hfits : byteLength (leNat a) + byteLength (leNat b) ≤ dest.length := by
    have ha := byteLength_leNat_le a
    have hb := byteLength_leNat_le b
    omega
  obtain ⟨hthrow, hmul⟩ := bn_mul_eq dest_size hzero hfits
  by_cases hnone : leNat a = 0 ∨ leNat b = 0
  · have hproduct : leNat a * leNat b = 0 := Nat.mul_eq_zero.mpr hnone
    have hnot : ¬ (leNat a ≠ 0 ∧ leNat b ≠ 0) := by tauto
    rw [Multiplies, hthrow hnone, hproduct, byteLength_zero, or_iff_right hnot]
    constructor
    · rintro ⟨ret, product, size, hcode, -, -, hsize⟩
      simp only [Option.some.injEq, Prod.mk.injEq] at hcode
      rw [hcode.2.2, hsize]
    · rintro rfl
      exact ⟨0, dest, 0, rfl, le_rfl, hzero, rfl⟩
  · have hboth : leNat a ≠ 0 ∧ leNat b ≠ 0 := not_or.mp hnone
    obtain ⟨product, -, hvalue, hcode⟩ := hmul hboth
    exact iff_of_true ⟨1, product, _, hcode, by decide, hvalue, rfl⟩ (Or.inl hboth)

theorem multiplies_few : Multiplies (fun _ ↦ 255) [0, 0, 0] 7 [255, 0] [2] :=
  (multiplies_iff (fun _ ↦ 255) [0, 0, 0] 7 [255, 0] [2] rfl (by decide)).mpr
    (Or.inl ⟨by decide, by decide⟩)

/-- A zero operand: the size is not stored. -/
theorem not_multiplies : ¬ ∀ (behind : ℕ → UInt8) (dest : List UInt8) (dest_size : ℕ)
    (a b : List UInt8), leNat dest = 0 → a.length + b.length ≤ dest.length →
      Multiplies behind dest dest_size a b := by
  intro hall
  obtain ⟨ret, product, size, hcode, -, -, hsize⟩ :=
    hall (fun _ ↦ 0) [0, 0] 7 [0] [1] rfl (by decide)
  have hthrow : bn_mul (fun _ ↦ 0) [0, 0] 7 [0] [1] = some (0, [0, 0], 7) := by decide
  rw [hthrow] at hcode
  simp only [Option.some.injEq, Prod.mk.injEq] at hcode
  have hzero : leNat [0] * leNat [1] = 0 := rfl
  rw [hzero, byteLength_zero, ← hcode.2.2] at hsize
  exact absurd hsize (by decide)

end Libobject.BigNumber
