import Libobject.BigNumber.Guess
import Libobject.BigNumber.Mul
import Libobject.BigNumber.Sub
import Libobject.Lib.Buffer

/-!
# Dividing a number by another

One digit of the quotient after the other is guessed from the top bytes of the dividend and of the
divisor, lowered until its product with the divisor is found to fit, and taken off the dividend. The
remainder's buffer holds the products; its length counts in a byte only.
-/

namespace Libobject.BigNumber

structure Division where
  dividend : Number
  quotient : List UInt8
  deriving DecidableEq

/-- A guess was too long for the dividend and ends the division, or a digit was found. -/
inductive Trial
  | leave
  | digit (multiple : ℕ)
  deriving DecidableEq

inductive Turn
  | done (ret : ℤ) (s : Division)
  | next (s : Division)
  deriving DecidableEq

structure Divided where
  ret : ℤ
  quotient : List UInt8
  quotient_size : ℕ
  remainder : List UInt8
  remainder_size : ℕ
  deriving DecidableEq

section Loop

variable (behind : ℕ → UInt8) (tmp_len : ℕ) (divisor : List UInt8)

/-- The loop that lowers the guess `multiple`. It is left with 0 when there is none left; the guess
0 itself is accepted at once. -/
def lowerMultiple (dividend : Number) : ℕ → Option Trial
  | 0 => some (.digit 0)
  | m + 1 => do
    let tmp := bn_mul_u32 behind (List.replicate tmp_len 0) 0 divisor (UInt32.ofNat (m + 1))
    let tmp_size ← bn_size tmp tmp_len
    if dividend.size < tmp_size then some .leave
    else do
      let compare_result ← bn_cmp (dividend.buf.drop (dividend.size - tmp_size)) tmp_size tmp
        tmp_size
      if compare_result ≥ 0 then some (.digit (m + 1)) else lowerMultiple dividend m

/-- Taking a digit at the place `i` off the dividend, from the guess on. -/
def subtractDigit (s : Division) (multiple : ℕ) (i : ℤ) : Option Turn := do
  let trial ← lowerMultiple behind tmp_len divisor s.dividend multiple
  match trial with
  | .leave => return .done 1 s
  | .digit 0 => return .done (-1) s
  | .digit m =>
    if i < 0 then none
    else do
      let quotient ← store s.quotient i.toNat (UInt8.ofNat m)
      let s := { s with quotient }
      let (ret, tmp, _) ← bn_mul behind (List.replicate tmp_len 0) 0 divisor
        (quotient.take (i.toNat + 1))
      if ret < 0 then return .done (-1) s
      let tmp_size ← bn_size tmp tmp_len
      let size := s.dividend.size
      let (ret, rest, _) ← bn_sub ⟨s.dividend.buf.take size, size⟩ 0 (tmp.take tmp_size)
      if ret < 0 then return .done (-1) s
      return .next { s with dividend := ⟨rest.buf ++ s.dividend.buf.drop size, rest.size⟩ }

def turn (s : Division) : Option Turn :=
  let size := s.dividend.size
  let divisor_size := divisor.length
  if size < divisor_size then some (.done 1 s)
  else do
    let compare_result ← bn_cmp (s.dividend.buf.drop (size - divisor_size)) divisor_size divisor
      divisor_size
    let high ← s.dividend.buf[size - 1]?
    let top ← divisor[divisor_size - 1]?
    if compare_result ≥ 0 then
      subtractDigit behind tmp_len divisor s (high.toNat / top.toNat) (size - divisor_size)
    else if 2 ≤ size then do
      let second ← s.dividend.buf[size - 2]?
      subtractDigit behind tmp_len divisor s ((high.toNat * 256 + second.toNat) / top.toNat)
        (size - divisor_size - 1)
    else return .done 1 s

/-- The division's loop, undefined where it does not end. -/
def divLoop : ℕ → Division → Option (ℤ × Division)
  | 0, _ => none
  | fuel + 1, s => do
    let r ← turn behind tmp_len divisor s
    match r with
    | .done ret s => return (ret, s)
    | .next s => divLoop fuel s

end Loop

/-- What `bn_div` does at the end in any case. -/
def finish (remainder_len : ℕ) (r : ℤ × Division) : Option Divided := do
  let quotient_size ← bn_size r.2.quotient r.2.quotient.length
  let remainder ← Buffer.put (List.replicate remainder_len 0) 0
    (r.2.dividend.buf.take r.2.dividend.size)
  return ⟨r.1, r.2.quotient, quotient_size, remainder, r.2.dividend.size⟩

def bn_div (behind : ℕ → UInt8) (fuel : ℕ) (quotient : List UInt8) (remainder_len : ℕ)
    (dividend divisor : List UInt8) : Option Divided := do
  let s : Division := ⟨⟨dividend, dividend.length⟩, quotient⟩
  if remainder_len < dividend.length ∨ quotient.length < dividend.length then
    finish remainder_len (-1, s)
  else do
    let tmp_len := (UInt8.ofNat remainder_len).toNat
    let dividend_size ← bn_size dividend dividend.length
    let divisor_size ← bn_size divisor divisor.length
    let ret ← bn_cmp dividend dividend_size divisor divisor_size
    if ret < 0 then do
      let quotient ← store quotient 0 0
      finish remainder_len (1, ⟨⟨dividend, dividend_size⟩, quotient⟩)
    else if ret = 0 then do
      let quotient ← store quotient 0 1
      finish remainder_len (1, ⟨⟨dividend, 0⟩, quotient⟩)
    else do
      let r ← divLoop behind tmp_len (divisor.take divisor_size) fuel
        ⟨⟨dividend, dividend_size⟩, quotient⟩
      finish remainder_len r

section Guess

variable (behind : ℕ → UInt8) (tmp_len : ℕ) (divisor : List UInt8) (dividend : Number)

variable {tmp_len divisor dividend}

theorem leNat_product (w : UInt32) :
    leNat (bn_mul_u32 behind (List.replicate tmp_len 0) 0 divisor w) =
        product (leNat divisor) tmp_len w.toNat ∧
      (bn_mul_u32 behind (List.replicate tmp_len 0) 0 divisor w).length = tmp_len := by
  have hzero : leNat ((List.replicate tmp_len (0 : UInt8)).drop (0 + 4 * (words divisor).length)) =
      0 := by
    rw [List.drop_replicate, leNat_replicate_zero]
  have hlen : (bn_mul_u32 behind (List.replicate tmp_len 0) 0 divisor w).length = tmp_len := by
    rw [(bn_mul_u32_frame behind w _ divisor 0).1, List.length_replicate]
  have hmod := leNat_bn_mul_u32 behind w hzero
  have hlt := leNat_lt (bn_mul_u32 behind (List.replicate tmp_len 0) 0 divisor w)
  rw [leNat_replicate_zero, Nat.zero_add, Nat.pow_zero, Nat.one_mul, List.length_replicate] at hmod
  rw [hlen] at hlt
  refine ⟨?_, hlen⟩
  rw [product, ← hmod, Nat.mod_eq_of_lt hlt]

theorem bn_size_all {tmp : List UInt8} {n : ℕ} (hlen : tmp.length = n) :
    bn_size tmp n = some (byteLength (leNat tmp)) := by
  subst hlen
  rw [bn_size_eq le_rfl, List.take_length]

theorem bn_cmp_top {tmp : List UInt8} (hsize : dividend.size ≤ dividend.buf.length) {n : ℕ}
    (hn : n ≤ dividend.size) (htmp : n ≤ tmp.length) :
    bn_cmp (dividend.buf.drop (dividend.size - n)) n tmp n =
      some (((dividend.value / 256 ^ (dividend.size - n) : ℕ) : ℤ) - leNat (tmp.take n)).sign := by
  have htop : leNat ((dividend.buf.drop (dividend.size - n)).take n) =
      dividend.value / 256 ^ (dividend.size - n) := by
    rw [leNat_drop_take (by omega), Nat.sub_add_cancel hn]
    rfl
  rw [bn_cmp_eq (by rw [List.length_drop]; omega) htmp, htop]

theorem lowerMultiple_succ {m : ℕ} (hm : m + 1 < 2 ^ 32)
    (hsize : dividend.size ≤ dividend.buf.length) :
    lowerMultiple behind tmp_len divisor dividend (m + 1) =
      if dividend.size < byteLength (product (leNat divisor) tmp_len (m + 1)) then some .leave
      else if product (leNat divisor) tmp_len (m + 1) ≤ dividend.value /
          256 ^ (dividend.size - byteLength (product (leNat divisor) tmp_len (m + 1))) then
        some (.digit (m + 1))
      else lowerMultiple behind tmp_len divisor dividend m := by
  obtain ⟨hvalue, hlen⟩ := leNat_product behind
    (UInt32.ofNat (m + 1))
  have hword : (UInt32.ofNat (m + 1)).toNat = m + 1 := by
    rw [UInt32.toNat_ofNat', Nat.mod_eq_of_lt hm]
  rw [hword] at hvalue
  rw [lowerMultiple, bn_size_all hlen, hvalue]
  simp only [Option.bind_eq_bind, Option.bind_some]
  split
  · rfl
  · next hle =>
      have hbytes := hvalue ▸ hlen ▸ byteLength_leNat_le
        (bn_mul_u32 behind (List.replicate tmp_len 0) 0 divisor (UInt32.ofNat (m + 1)))
      rw [bn_cmp_top hsize (Nat.le_of_not_lt hle) (hbytes.trans hlen.ge),
        leNat_take_of_byteLength_le (hvalue ▸ le_rfl), hvalue, Option.bind_some]
      apply if_congr _ rfl rfl
      rw [ge_iff_le, Int.sign_nonneg_iff, sub_nonneg, Nat.cast_le]

theorem lowerMultiple_cases {m₀ : ℕ} (hm : m₀ < 2 ^ 32)
    (hsize : dividend.size ≤ dividend.buf.length) :
    ∃ m ≤ m₀, (∀ m', m < m' → m' ≤ m₀ →
        Exceeds dividend.value dividend.size (leNat divisor) tmp_len m') ∧
      ((m = 0 ∧ lowerMultiple behind tmp_len divisor dividend m₀ = some (.digit 0)) ∨
        (0 < m ∧ Fits dividend.value dividend.size (leNat divisor) tmp_len m ∧
          lowerMultiple behind tmp_len divisor dividend m₀ = some (.digit m)) ∨
        (0 < m ∧ dividend.size < byteLength (product (leNat divisor) tmp_len m) ∧
          lowerMultiple behind tmp_len divisor dividend m₀ = some .leave)) := by
  induction m₀ with
  | zero => exact ⟨0, le_rfl, fun m' h h' ↦ by omega, Or.inl ⟨rfl, rfl⟩⟩
  | succ m₀ ih =>
    have hstep := @lowerMultiple_succ behind tmp_len divisor _ _ hm hsize
    by_cases hlong : dividend.size < byteLength (product (leNat divisor) tmp_len (m₀ + 1))
    · rw [if_pos hlong] at hstep
      exact ⟨m₀ + 1, le_rfl, fun m' h h' ↦ by omega,
        Or.inr (Or.inr ⟨Nat.succ_pos _, hlong, hstep⟩)⟩
    · rw [if_neg hlong] at hstep
      by_cases hfits : product (leNat divisor) tmp_len (m₀ + 1) ≤ dividend.value /
          256 ^ (dividend.size - byteLength (product (leNat divisor) tmp_len (m₀ + 1)))
      · rw [if_pos hfits] at hstep
        exact ⟨m₀ + 1, le_rfl, fun m' h h' ↦ by omega,
          Or.inr (Or.inl ⟨Nat.succ_pos _, ⟨Nat.le_of_not_lt hlong, hfits⟩, hstep⟩)⟩
      · rw [if_neg hfits] at hstep
        obtain ⟨m, hle, habove, hcases⟩ := ih (by omega)
        refine ⟨m, hle.trans (Nat.le_succ _), ?_, by rwa [hstep]⟩
        intro m' hlt hle'
        obtain heq | hle'' := Nat.lt_or_eq_of_le hle' |>.symm
        · subst heq
          exact ⟨Nat.le_of_not_lt hlong, Nat.lt_of_not_le hfits⟩
        · exact habove m' hlt (by omega)

end Guess

section Turn

variable (behind : ℕ → UInt8) (tmp_len : ℕ) {divisor : List UInt8} {n : ℕ} {s : Division}

theorem top_byte {d : Number} (hsize : d.size ≤ d.buf.length) (hd : 1 ≤ d.size) :
    ∃ b, d.buf[d.size - 1]? = some b ∧ b.toNat = d.value / 256 ^ (d.size - 1) := by
  have hlt : d.size - 1 < d.buf.length := by omega
  have hbyte := toNat_getElem_eq_div hlt
  rw [Nat.sub_add_cancel hd] at hbyte
  exact ⟨_, List.getElem?_eq_getElem hlt, hbyte⟩

theorem second_byte {d : Number} (hsize : d.size ≤ d.buf.length) (hd : 2 ≤ d.size) :
    ∃ b, d.buf[d.size - 2]? = some b ∧
      d.value / 256 ^ (d.size - 1) * 256 + b.toNat = d.value / 256 ^ (d.size - 2) := by
  have hlt : d.size - 2 < d.buf.length := by omega
  have hone : d.size - 2 + 1 = d.size - 1 := by omega
  have htwo : d.size - 1 + 1 = d.size := by omega
  have hpos : 0 < 256 ^ (d.size - 2) := Nat.pow_pos (by decide)
  have hbyte := toNat_getElem_eq_div hlt
  have htop := @toNat_getElem_eq_div d.buf (d.size - 1) (by omega)
  have hvalue := @leNat_take_succ d.buf (d.size - 1) (by omega)
  rw [hone] at hbyte
  rw [htwo] at htop hvalue
  refine ⟨_, List.getElem?_eq_getElem hlt, ?_⟩
  have hpow : 256 ^ (d.size - 1) = 256 ^ (d.size - 2) * 256 := by rw [← hone, Nat.pow_succ]
  rw [Number.value, ← htop, hbyte, hvalue, hpow, Nat.mul_assoc, Nat.add_mul_div_left _ _ hpos]
  omega

theorem turn_eq {d : Number} {quotient : List UInt8} (hlen : divisor.length = n + 1)
    (hsize : d.size ≤ d.buf.length) (hle : n + 1 ≤ d.size) :
    turn behind tmp_len divisor ⟨d, quotient⟩ =
      if leNat divisor ≤ d.value / 256 ^ (d.size - (n + 1)) then
        subtractDigit behind tmp_len divisor ⟨d, quotient⟩
          (guess n (d.value / 256 ^ (d.size - (n + 1))) (leNat divisor)) (d.size - (n + 1) : ℕ)
      else if 2 ≤ d.size then
        subtractDigit behind tmp_len divisor ⟨d, quotient⟩
          (d.value / 256 ^ (d.size - 2) / (leNat divisor / 256 ^ n))
          ((d.size - (n + 1) : ℕ) - 1)
      else some (.done 1 ⟨d, quotient⟩) := by
  have hcmp := bn_cmp_top (n := n + 1) hsize hle hlen.ge
  rw [List.take_of_length_le hlen.le] at hcmp
  obtain ⟨high, hhigh, hhigh'⟩ := top_byte hsize (show 1 ≤ d.size by omega)
  obtain ⟨top, htop, htop'⟩ := top_byte (d := ⟨divisor, n + 1⟩) hlen.ge (Nat.succ_pos n)
  simp only [Number.value, List.take_of_length_le hlen.le, Nat.add_sub_cancel] at htop htop'
  have hsub : (d.size : ℤ) - (n + 1 : ℕ) = (d.size - (n + 1) : ℕ) := (Nat.cast_sub hle).symm
  have hguess : d.value / 256 ^ (d.size - 1) / (leNat divisor / 256 ^ n) =
      guess n (d.value / 256 ^ (d.size - (n + 1))) (leNat divisor) := by
    have hexp : d.size - 1 = d.size - (n + 1) + n := by omega
    rw [guess, hexp, Nat.pow_add, ← Nat.div_div_eq_div_mul d.value]
  have hsign : ((d.value / 256 ^ (d.size - (n + 1)) : ℕ) - (leNat divisor : ℤ)).sign ≥ 0 ↔
      leNat divisor ≤ d.value / 256 ^ (d.size - (n + 1)) := by
    rw [ge_iff_le, Int.sign_nonneg_iff, sub_nonneg, Nat.cast_le]
  rw [turn]
  simp only [hlen, if_neg (Nat.not_lt.mpr hle), hcmp, Nat.add_sub_cancel, hhigh, htop, hsub,
    Option.bind_eq_bind, Option.bind_some, hhigh', htop', hguess]
  apply if_congr hsign rfl
  split
  · next htwo =>
      obtain ⟨second, hsecond, hbytes⟩ := second_byte hsize htwo
      rw [hsecond, Option.bind_some, hbytes]
  · rfl

theorem leNat_take_set {quotient : List UInt8} {i : ℕ} (hi : i < quotient.length)
    (hlow : leNat (quotient.take i) = 0) (m : ℕ) :
    leNat ((quotient.set i (UInt8.ofNat m)).take (i + 1)) = m % 256 * 256 ^ i := by
  have hlen : i < (quotient.set i (UInt8.ofNat m)).length := by rwa [List.length_set]
  have hdigit : (UInt8.ofNat m).toNat = m % 256 := UInt8.toNat_ofNat'
  rw [leNat_take_succ hlen, List.take_set_of_le (le_refl i), hlow, List.getElem_set_self, hdigit,
    Nat.zero_add, Nat.mul_comm]

theorem subtractDigit_taken {d : Number} {quotient : List UInt8} {m₀ m i : ℕ}
    (hdivisor : byteLength (leNat divisor) = n + 1)
    (hm : lowerMultiple behind tmp_len divisor d m₀ = some (.digit m)) (hpos : 0 < m)
    (hi : i < quotient.length) (hlow : leNat (quotient.take i) = 0) :
    (tmp_len < n + 1 + byteLength (m % 256 * 256 ^ i) →
      subtractDigit behind tmp_len divisor ⟨d, quotient⟩ m₀ i =
        some (.done (-1) ⟨d, quotient.set i (UInt8.ofNat m)⟩)) ∧
    (n + 1 + byteLength (m % 256 * 256 ^ i) ≤ tmp_len →
      ∃ sub : List UInt8, leNat sub = leNat divisor * (m % 256 * 256 ^ i) ∧
        sub.length = byteLength (leNat divisor * (m % 256 * 256 ^ i)) ∧
        subtractDigit behind tmp_len divisor ⟨d, quotient⟩ m₀ i =
          (bn_sub ⟨d.buf.take d.size, d.size⟩ 0 sub).bind fun r ↦
            if r.1 < 0 then some (.done (-1) ⟨d, quotient.set i (UInt8.ofNat m)⟩)
            else some (.next ⟨⟨r.2.1.buf ++ d.buf.drop d.size, r.2.1.size⟩,
              quotient.set i (UInt8.ofNat m)⟩)) := by
  have hvalue := leNat_take_set hi hlow m
  have hstore : store quotient i (UInt8.ofNat m) = some (quotient.set i (UInt8.ofNat m)) :=
    if_pos hi
  have hzero : leNat (List.replicate tmp_len (0 : UInt8)) = 0 := leNat_replicate_zero _
  have hneg : ¬ (i : ℤ) < 0 := by omega
  obtain ⟨m, rfl⟩ := Nat.exists_eq_succ_of_ne_zero hpos.ne'
  constructor
  · intro hroom
    have hmul := @bn_mul_no_room behind (List.replicate tmp_len 0) divisor
      ((quotient.set i (UInt8.ofNat (m + 1))).take (i + 1)) 0
      (by rw [hvalue, hdivisor, List.length_replicate]; exact hroom)
    rw [subtractDigit, hm]
    simp only [Option.bind_eq_bind, Option.bind_some, if_neg hneg, Int.toNat_natCast, hstore, hmul]
    rfl
  · intro hroom
    obtain ⟨ret, tmp, size, hmul, hret, hlen, hproduct⟩ := @bn_mul_value behind
      (List.replicate tmp_len 0) divisor ((quotient.set i (UInt8.ofNat (m + 1))).take (i + 1)) 0
      hzero (by rw [hvalue, hdivisor, List.length_replicate]; exact hroom)
    rw [List.length_replicate] at hlen
    rw [hvalue] at hproduct
    have hshort := byteLength_leNat_le tmp
    refine ⟨tmp.take (byteLength (leNat tmp)), ?_, ?_, ?_⟩
    · rw [leNat_take_of_byteLength_le le_rfl, hproduct]
    · rw [List.length_take_of_le hshort, hproduct]
    · rw [subtractDigit, hm]
      simp only [Option.bind_eq_bind, Option.bind_some, if_neg hneg, Int.toNat_natCast, hstore,
        hmul, if_neg (not_lt.mpr hret), bn_size_all hlen]
      rfl

end Turn

section Rest

variable {d : Number} {sub : List UInt8}

/-- What is left of the dividend to subtract from. -/
def Number.cut (d : Number) : Number := ⟨d.buf.take d.size, d.size⟩

theorem cut_value (d : Number) : d.cut.value = d.value := by
  rw [Number.value, Number.cut, List.take_take, Nat.min_self]
  rfl

theorem bn_sub_no_room (hlong : d.size < sub.length) :
    bn_sub d.cut 0 sub = some (-1, d.cut, 0) := by
  have hlen : d.cut.buf.length ≤ d.size := List.length_take_le _ _
  have hsize : d.cut.size = d.size := rfl
  exact if_pos (by omega)

/-- A digit's product that is as long as the dividend, or a byte shorter than one that starts with
a byte of at least 2, is taken off as it should. -/
theorem bn_sub_exact (hsize : d.size ≤ d.buf.length) (hsmall : d.size < 256)
    (hle : leNat sub ≤ d.value)
    (hlen : sub.length = d.size ∨
      (sub.length + 1 = d.size ∧ 2 ≤ d.value / 256 ^ (d.size - 1))) :
    ∃ (rest : Number) (flag : ℤ), bn_sub d.cut 0 sub = some (1, rest, flag) ∧
      rest.buf.length = d.size ∧ rest.value = d.value - leNat sub ∧
      rest.size = byteLength (d.value - leNat sub) := by
  have hcut : d.cut.buf.length = d.size := List.length_take_of_le hsize
  have hcutsize : d.cut.size = d.size := rfl
  have hroom : max d.cut.size sub.length ≤ d.cut.buf.length := by omega
  have hcount : Countable d.cut sub := by
    unfold Countable
    omega
  have hlarger : Larger d.cut sub := by
    rw [Larger, cut_value, hcutsize]
    omega
  have hborrow : BorrowsWell d.cut sub := by
    intro hlow
    rw [larger, smaller, if_pos hlarger, if_pos hlarger] at hlow
    rw [larger, if_pos hlarger]
    obtain hsame | ⟨hshort, htop⟩ := hlen
    · rw [hcutsize, hsame, Nat.min_self, List.take_take, Nat.min_self] at hlow
      have hvalue := cut_value d
      rw [Number.value, hcutsize] at hvalue
      omega
    · obtain ⟨b, hb, hbyte⟩ := top_byte (d := d) hsize (by omega)
      have hmin : min d.cut.size sub.length = d.size - 1 := by omega
      have hlt : d.size - 1 < (d.cut.buf.take d.cut.size).length := by
        rw [List.length_take, hcut]
        omega
      have hget : (d.cut.buf.take d.cut.size)[d.size - 1] = b := by
        rw [List.getElem_take]
        unfold Number.cut
        rw [List.getElem_take]
        exact (List.getElem?_eq_some_iff.mp hb).2
      rw [hmin, List.drop_eq_getElem_cons hlt, hget]
      exact Or.inl (hbyte ▸ htop)
  have hleft : left d.cut sub = d.value - leNat sub := by
    rw [(left_iff_of_countable hroom hcount).mpr hborrow, distance, cut_value]
    omega
  obtain ⟨rest, hsub, hbuf, hvalue, hlength⟩ := bn_sub_of_countable 0 hroom hcount
  rw [hleft] at hvalue hlength
  exact ⟨rest, _, hsub, hbuf.trans hcut, hvalue, hlength⟩

end Rest

section Steps

variable {behind : ℕ → UInt8} {tmp_len : ℕ} {divisor : List UInt8} {n : ℕ}

theorem subtractDigit_next {d : Number} {quotient : List UInt8} {g i : ℕ} {s' : Division}
    (hdivisor : byteLength (leNat divisor) = n + 1) (hsize : d.size ≤ d.buf.length)
    (hg : g < 2 ^ 32) (hlow : leNat (quotient.take i) = 0)
    (h : subtractDigit behind tmp_len divisor ⟨d, quotient⟩ g i = some (.next s')) :
    ∃ m, 0 < m ∧ m ≤ g ∧ i < quotient.length ∧ s'.quotient = quotient.set i (UInt8.ofNat m) ∧
      Fits d.value d.size (leNat divisor) tmp_len m ∧
      (∀ m', m < m' → m' ≤ g → Exceeds d.value d.size (leNat divisor) tmp_len m') ∧
      n + 1 + byteLength (m % 256 * 256 ^ i) ≤ tmp_len ∧
      ∃ (sub : List UInt8) (ret flag : ℤ) (rest : Number),
        leNat sub = leNat divisor * (m % 256 * 256 ^ i) ∧
        sub.length = byteLength (leNat divisor * (m % 256 * 256 ^ i)) ∧
        bn_sub d.cut 0 sub = some (ret, rest, flag) ∧ 0 ≤ ret ∧
        s'.dividend = ⟨rest.buf ++ d.buf.drop d.size, rest.size⟩ := by
  obtain ⟨m, hle, habove, ⟨-, hzero⟩ | ⟨hpos, hfits, hm⟩ | ⟨-, -, hleave⟩⟩ :=
    lowerMultiple_cases behind hg hsize
  · rw [subtractDigit, hzero] at h
    simp at h
  · have hi : i < quotient.length := by
      by_contra hout
      have hnone (b : UInt8) : store quotient i b = none := if_neg hout
      obtain ⟨m, rfl⟩ := Nat.exists_eq_succ_of_ne_zero hpos.ne'
      have hneg : ¬ (i : ℤ) < 0 := by omega
      rw [subtractDigit, hm] at h
      simp [hnone, hneg] at h
    obtain ⟨hfail, htaken⟩ := subtractDigit_taken behind tmp_len hdivisor hm hpos hi hlow
    by_cases hroom : tmp_len < n + 1 + byteLength (m % 256 * 256 ^ i)
    · rw [hfail hroom] at h
      simp at h
    · obtain ⟨sub, hvalue, hlen, hcode⟩ := htaken (Nat.le_of_not_lt hroom)
      rw [hcode] at h
      obtain ⟨⟨ret, rest, flag⟩, hsub, hrest⟩ := Option.bind_eq_some_iff.mp h
      split at hrest
      · simp at hrest
      · next hret =>
          have hs' := Turn.next.inj (Option.some.inj hrest)
          refine ⟨m, hpos, hle, hi, by rw [← hs'], hfits, habove, Nat.le_of_not_lt hroom, sub, ret,
            flag, rest, hvalue, hlen, hsub, Int.not_lt.mp hret, by rw [← hs']⟩
  · rw [subtractDigit, hleave] at h
    simp at h

/-- A digit taken off the dividend, found for the window of `l + 1` bytes from the place `i` on. -/
structure Stepped (n v tl : ℕ) (s s' : Division) (l i m : ℕ) : Prop where
  size : s.dividend.size = l + 1 + i
  window : (l = n ∧ v ≤ s.dividend.value / 256 ^ i) ∨
    (l = n + 1 ∧ s.dividend.value / 256 ^ i < v * 256)
  inside : i < s.quotient.length
  quotient : s'.quotient = s.quotient.set i (UInt8.ofNat m)
  bound : m ≤ guess n (s.dividend.value / 256 ^ i) v
  above : ∀ m', m < m' → m' ≤ guess n (s.dividend.value / 256 ^ i) v →
    Exceeds s.dividend.value (l + 1 + i) v tl m'
  room : s'.dividend.size ≤ s'.dividend.buf.length
  /-- Nothing was taken off, or the digit, or 1 instead of the digit. -/
  rest : (m % 256 = 0 ∧ s'.dividend.buf = s.dividend.buf ∧
      s'.dividend.size ≤ s.dividend.size) ∨
    (0 < m ∧ m < 256 ∧ n + 1 + i < tl ∧ 256 ^ l ≤ v * m ∧ v * m ≤ s.dividend.value / 256 ^ i ∧
      s.dividend.value / 256 ^ i < v * (m + 1) ∧
      s'.dividend.value = s.dividend.value - v * (m * 256 ^ i) ∧
      s'.dividend.size = byteLength (s.dividend.value - v * (m * 256 ^ i))) ∨
    (m = 257 ∧ l = n + 1 ∧ n + 1 + i < tl ∧ guess n (s.dividend.value / 256 ^ i) v = 257 ∧
      s.dividend.value / 256 ^ i / 256 ^ n = 65535 ∧
      s'.dividend.value = s.dividend.value - v * 256 ^ i ∧
      s'.dividend.size = byteLength (s.dividend.value - v * 256 ^ i))

theorem byteLength_mul_pow {a b i : ℕ} (hlow : 256 ^ b ≤ a) (hhigh : a < 256 ^ (b + 1)) :
    byteLength (a * 256 ^ i) = b + 1 + i := by
  have hpos : 0 < 256 ^ i := Nat.pow_pos (by decide)
  have hle : 256 ^ (b + i) ≤ a * 256 ^ i := by
    rw [Nat.pow_add]
    exact Nat.mul_le_mul_right _ hlow
  have hlt : a * 256 ^ i < 256 ^ (b + i + 1) := by
    rw [Nat.add_right_comm, Nat.pow_add]
    exact Nat.mul_lt_mul_of_pos_right hhigh hpos
  rw [byteLength_eq_succ hle hlt, Nat.add_right_comm]

theorem rest_value {d rest : Number} {x : ℕ} (hbuf : rest.buf.length = d.size)
    (hvalue : rest.value = d.value - x) (hsize : rest.size = byteLength (d.value - x)) :
    (⟨rest.buf ++ d.buf.drop d.size, rest.size⟩ : Number).value = d.value - x ∧
      rest.size ≤ (rest.buf ++ d.buf.drop d.size).length := by
  have hlt : d.value < 256 ^ d.size := leNat_take_lt d.buf d.size
  have hle : rest.size ≤ rest.buf.length := by
    rw [hsize, byteLength_le_iff, hbuf]
    omega
  constructor
  · rw [← hvalue, Number.value, List.take_append_of_le_length hle]
    rfl
  · rw [List.length_append]
    omega

theorem stepped_of_window {d : Number} {quotient : List UInt8} {i : ℕ} {s' : Division}
    (hlen : divisor.length = n + 1) (hv : 256 ^ n ≤ leNat divisor)
    (hsize : d.size ≤ d.buf.length) (htl : tmp_len < 256) (hlow : leNat (quotient.take i) = 0)
    (hwindow : d.size = n + 1 + i) (hw : leNat divisor ≤ d.value / 256 ^ i)
    (h : subtractDigit behind tmp_len divisor ⟨d, quotient⟩
      (guess n (d.value / 256 ^ i) (leNat divisor)) i = some (.next s')) :
    ∃ m, Stepped n (leNat divisor) tmp_len ⟨d, quotient⟩ s' n i m := by
  have hv' : leNat divisor < 256 ^ (n + 1) := hlen ▸ leNat_lt divisor
  have hr : d.value < 256 ^ (n + 1 + i) := hwindow ▸ leNat_take_lt d.buf d.size
  have hi : 0 < 256 ^ i := Nat.pow_pos (by decide)
  have hguess : guess n (d.value / 256 ^ i) (leNat divisor) < 256 := by
    have hwindow' : d.value / 256 ^ i / 256 ^ n < 256 := by
      rw [Nat.div_div_eq_div_mul, ← Nat.pow_add,
        Nat.div_lt_iff_lt_mul (Nat.pow_pos (by decide)), ← Nat.pow_succ']
      have hexp : (i + n).succ = n + 1 + i := by omega
      rwa [hexp]
    exact (Nat.div_le_self _ _).trans_lt hwindow'
  obtain ⟨m, hpos, hle, hplace, hquotient, hfits, habove, hroom, sub, ret, flag, rest, hvalue,
    hsub, hcode, hret, hs'⟩ := subtractDigit_next (byteLength_eq_succ hv hv') hsize
      (hguess.trans (by decide)) hlow h
  have hm : m % 256 = m := Nat.mod_eq_of_lt (hle.trans_lt hguess)
  rw [hm] at hroom hvalue hsub
  have hdigit : byteLength (m * 256 ^ i) = i + 1 := by
    rw [byteLength_mul_pow (b := 0) (by omega) (by omega)]
    omega
  rw [hwindow] at hfits habove
  have hshort : sub.length ≤ d.size := by
    by_contra hlong
    have hfail := bn_sub_no_room (Nat.lt_of_not_le hlong)
    rw [hfail] at hcode
    simp only [Option.some.injEq, Prod.mk.injEq] at hcode
    omega
  rw [hsub, ← Nat.mul_assoc, hwindow, byteLength_le_iff] at hshort
  obtain ⟨hm', hless, hin, hnext⟩ := found_of_window hv hr hle hpos hfits habove
    (show n + 1 + i < tmp_len by omega) hshort
  have hlow' : 256 ^ n ≤ leNat divisor * m := hv.trans (Nat.le_mul_of_pos_right _ hpos)
  have hall : leNat divisor * (m * 256 ^ i) ≤ d.value := by
    rw [← Nat.mul_assoc]
    exact (Nat.mul_le_mul_right _ hin).trans (Nat.div_mul_le_self _ _)
  have hlength : sub.length = d.size := by
    rw [hsub, ← Nat.mul_assoc, byteLength_mul_pow hlow' hless, hwindow]
  obtain ⟨rest', flag', hexact, hbuf, hrest, hcount⟩ := bn_sub_exact hsize
    (show d.size < 256 by omega) (hvalue ▸ hall) (Or.inl hlength)
  rw [hcode, Option.some.injEq, Prod.mk.injEq, Prod.mk.injEq] at hexact
  obtain ⟨-, rfl, -⟩ := hexact
  rw [hvalue] at hrest hcount
  obtain ⟨hleft, hfit⟩ := rest_value hbuf hrest hcount
  refine ⟨m, hwindow, Or.inl ⟨rfl, hw⟩, hplace, hquotient, hle, habove, by rw [hs']; exact hfit,
    Or.inr (Or.inl ⟨hpos, hm', by omega, hlow', hin, hnext, ?_, ?_⟩)⟩
  · rw [hs']
    exact hleft
  · rw [hs']
    exact hcount

theorem stepped_of_long_window {d : Number} {quotient : List UInt8} {i : ℕ} {s' : Division}
    (hlen : divisor.length = n + 1) (hv : 256 ^ n ≤ leNat divisor)
    (hsize : d.size ≤ d.buf.length) (htl : tmp_len < 256) (hlow : leNat (quotient.take i) = 0)
    (hwindow : d.size = n + 2 + i) (hw : d.value / 256 ^ i < leNat divisor * 256)
    (h : subtractDigit behind tmp_len divisor ⟨d, quotient⟩
      (guess n (d.value / 256 ^ i) (leNat divisor)) i = some (.next s')) :
    ∃ m, Stepped n (leNat divisor) tmp_len ⟨d, quotient⟩ s' (n + 1) i m := by
  have hv' : leNat divisor < 256 ^ (n + 1) := hlen ▸ leNat_lt divisor
  have hr : d.value < 256 ^ (n + 2 + i) := hwindow ▸ leNat_take_lt d.buf d.size
  have hi : 0 < 256 ^ i := Nat.pow_pos (by decide)
  have hguess : guess n (d.value / 256 ^ i) (leNat divisor) < 256 ^ 2 := by
    have hwindow' : d.value / 256 ^ i / 256 ^ n < 256 ^ 2 := by
      rw [Nat.div_div_eq_div_mul, ← Nat.pow_add,
        Nat.div_lt_iff_lt_mul (Nat.pow_pos (by decide)), ← Nat.pow_add]
      have hexp : 2 + (i + n) = n + 2 + i := by omega
      rwa [hexp]
    exact (Nat.div_le_self _ _).trans_lt hwindow'
  obtain ⟨m, hpos, hle, hplace, hquotient, hfits, habove, hroom, sub, ret, flag, rest, hvalue,
    hsub, hcode, hret, hs'⟩ := subtractDigit_next (byteLength_eq_succ hv hv') hsize
      (hguess.trans (by decide)) hlow h
  rw [hwindow] at hfits habove
  have hstepped := Stepped.mk (s := ⟨d, quotient⟩) (l := n + 1) (m := m)
    hwindow (Or.inr ⟨rfl, hw⟩) hplace hquotient hle habove
  refine ⟨m, ?_⟩
  by_cases hdigit : m % 256 = 0
  · -- the digit's byte is zero and nothing is taken off
    rw [hdigit, Nat.zero_mul, Nat.mul_zero, byteLength_zero] at hsub
    obtain rfl := List.length_eq_zero_iff.mp hsub
    obtain ⟨-, hbuf, hcount⟩ := bn_sub_nil (List.length_take_of_le hsize).ge hcode
    have hwhole : s'.dividend.buf = d.buf := by
      rw [hs']
      simp only [hbuf, Number.cut, List.take_append_drop]
    have hcount' : s'.dividend.size ≤ d.size := by
      rw [hs']
      exact hcount
    exact hstepped (hwhole ▸ hcount'.trans hsize) (Or.inl ⟨hdigit, hwhole, hcount'⟩)
  · have hbyte : byteLength (m % 256 * 256 ^ i) = i + 1 := by
      rw [byteLength_mul_pow (b := 0) (by omega) (by omega)]
      omega
    obtain ⟨hm', hlow', hin, hnext⟩ | ⟨rfl, hat, htop⟩ :=
      found_of_long_window hv hv' hr hw hle hpos hfits habove (by omega)
    · have hm : m % 256 = m := Nat.mod_eq_of_lt hm'
      rw [hm] at hvalue hsub
      have hall : leNat divisor * (m * 256 ^ i) ≤ d.value := by
        rw [← Nat.mul_assoc]
        exact (Nat.mul_le_mul_right _ hin).trans (Nat.div_mul_le_self _ _)
      have hless : leNat divisor * m < 256 ^ (n + 2) := by
        apply hin.trans_lt
        rwa [Nat.div_lt_iff_lt_mul hi, ← Nat.pow_add]
      have hlength : sub.length = d.size := by
        rw [hsub, ← Nat.mul_assoc, byteLength_mul_pow hlow' hless, hwindow]
      obtain ⟨rest', flag', hexact, hbuf, hrest, hcount⟩ := bn_sub_exact hsize
        (show d.size < 256 by omega) (hvalue ▸ hall) (Or.inl hlength)
      rw [hcode, Option.some.injEq, Prod.mk.injEq, Prod.mk.injEq] at hexact
      obtain ⟨-, rfl, -⟩ := hexact
      rw [hvalue] at hrest hcount
      obtain ⟨hleft, hfit⟩ := rest_value hbuf hrest hcount
      apply hstepped (hs' ▸ hfit)
      exact Or.inr (Or.inl ⟨hpos, hm', by omega, hlow', hin, hnext, hs' ▸ hleft, hs' ▸ hcount⟩)
    · -- the guess 257 is stored as 1
      have hone : 257 % 256 * 256 ^ i = 256 ^ i := Nat.one_mul _
      rw [hone] at hvalue hsub
      have hwhole : 65535 * 256 ^ n ≤ d.value / 256 ^ i := htop ▸ top_mul_le n _
      have hall : leNat divisor * 256 ^ i ≤ d.value := by
        have hle' : leNat divisor ≤ d.value / 256 ^ i := by
          rw [Nat.pow_succ] at hv'
          omega
        exact (Nat.mul_le_mul_right _ hle').trans (Nat.div_mul_le_self _ _)
      have hlength : sub.length + 1 = d.size := by
        rw [hsub, byteLength_mul_pow hv hv', hwindow]
        omega
      have htopbyte : 2 ≤ d.value / 256 ^ (d.size - 1) := by
        have hexp : d.size - 1 = i + (n + 1) := by omega
        rw [hexp, Nat.pow_add, ← Nat.div_div_eq_div_mul, Nat.pow_succ, ← Nat.div_div_eq_div_mul,
          htop]
        decide
      obtain ⟨rest', flag', hexact, hbuf, hrest, hcount⟩ := bn_sub_exact hsize
        (show d.size < 256 by omega) (hvalue ▸ hall) (Or.inr ⟨hlength, htopbyte⟩)
      rw [hcode, Option.some.injEq, Prod.mk.injEq, Prod.mk.injEq] at hexact
      obtain ⟨-, rfl, -⟩ := hexact
      rw [hvalue] at hrest hcount
      obtain ⟨hleft, hfit⟩ := rest_value hbuf hrest hcount
      apply hstepped (hs' ▸ hfit)
      exact Or.inr (Or.inr ⟨rfl, rfl, by omega, hat, htop, hs' ▸ hleft, hs' ▸ hcount⟩)

end Steps

end Libobject.BigNumber
