import Mathlib.Data.BitVec
import Mathlib.Data.List.GetD

/-!
# Cyclic redundancy checks

The reflected form: the register moves down by one bit for each bit of the message, the lowest bit
of a byte first, and the polynomial is added where the bits that fall out differ.
-/

namespace Libobject.Crc

variable {w : ℕ} (p : BitVec w)

def shiftIn (s : BitVec w) (b : Bool) : BitVec w :=
  if s.getLsbD 0 ^^ b then (s >>> 1) ^^^ p else s >>> 1

def register (s : BitVec w) (bits : List Bool) : BitVec w := bits.foldl (shiftIn p) s

def bits (b : UInt8) : List Bool := (List.range 8).map b.toBitVec.getLsbD

/-- The check of a message, with the complement in front and behind. -/
def check (start : BitVec w) (message : List UInt8) : BitVec w :=
  ~~~register p (~~~start) (message.flatMap bits)

/-- `n` moves without a message. -/
def moves : ℕ → BitVec w → BitVec w
  | 0, s => s
  | n + 1, s => moves n (shiftIn p s false)

theorem register_append (s : BitVec w) (xs ys : List Bool) :
    register p s (xs ++ ys) = register p (register p s xs) ys := List.foldl_append

theorem check_append (start : BitVec w) (x y : List UInt8) :
    check p (check p start x) y = check p start (x ++ y) := by
  simp [check, register_append]

/-! ## Several bits at once -/

theorem shiftIn_xor (s x : BitVec w) :
    shiftIn p (s ^^^ x) false = shiftIn p s false ^^^ shiftIn p x false := by
  simp only [shiftIn, Bool.xor_false, BitVec.getLsbD_xor, BitVec.ushiftRight_xor_distrib]
  cases s.getLsbD 0 <;> cases x.getLsbD 0
  · rfl
  · simp [BitVec.xor_assoc]
  · simp only [Bool.xor_false, if_true, Bool.false_eq_true, if_false]
    ac_rfl
  · have hcancel : (s >>> 1 ^^^ p) ^^^ (x >>> 1 ^^^ p) = s >>> 1 ^^^ x >>> 1 := by
      rw [BitVec.xor_assoc, BitVec.xor_comm p, BitVec.xor_assoc, BitVec.xor_self, BitVec.xor_zero]
    simpa using hcancel.symm

theorem moves_xor (n : ℕ) (s x : BitVec w) :
    moves p n (s ^^^ x) = moves p n s ^^^ moves p n x := by
  induction n generalizing s x with
  | zero => rfl
  | succ n ih => rw [moves, shiftIn_xor, ih, moves, moves]

theorem moves_succ (n : ℕ) (s : BitVec w) :
    moves p (n + 1) s = shiftIn p (moves p n s) false := by
  induction n generalizing s with
  | zero => rfl
  | succ n ih => rw [moves, ih, moves]

theorem moves_high {n : ℕ} {s : BitVec w} (h : ∀ i < n, s.getLsbD i = false) :
    moves p n s = s >>> n := by
  induction n generalizing s with
  | zero => simp [moves]
  | succ n ih =>
    have hstep : shiftIn p s false = s >>> 1 := by simp [shiftIn, h 0 (Nat.succ_pos n)]
    rw [moves, hstep, ih, ← BitVec.shiftRight_add, Nat.add_comm]
    intro i hi
    simpa [Nat.add_comm] using h (i + 1) (Nat.succ_lt_succ hi)

theorem register_range (s x : BitVec w) (n : ℕ) :
    register p s ((List.range n).map x.getLsbD) = moves p n (s ^^^ x) ^^^ x >>> n := by
  induction n with
  | zero =>
    rw [moves, BitVec.ushiftRight_zero, BitVec.xor_assoc, BitVec.xor_self, BitVec.xor_zero]
    rfl
  | succ n ih =>
    rw [List.range_succ, List.map_append, register_append, ih]
    have hbit : ((moves p n (s ^^^ x) ^^^ x >>> n).getLsbD 0 ^^ x.getLsbD n) =
        (moves p n (s ^^^ x)).getLsbD 0 := by
      rw [BitVec.getLsbD_xor, BitVec.getLsbD_ushiftRight, Nat.add_zero, Bool.xor_assoc,
        Bool.xor_self, Bool.xor_false]
    rw [moves_succ, List.map_singleton, register, List.foldl_cons, List.foldl_nil, shiftIn, hbit,
      shiftIn, Bool.xor_false, BitVec.ushiftRight_xor_distrib, ← BitVec.shiftRight_add]
    split
    · ac_rfl
    · rfl

theorem getLsbD_low (i : ℕ) : (0xff#w).getLsbD i = (decide (i < w) && decide (i < 8)) := by
  rw [BitVec.getLsbD_ofNat]
  exact congrArg _ (Nat.testBit_two_pow_sub_one 8 i)

theorem moves_eight (s : BitVec w) : moves p 8 s = moves p 8 (s &&& 0xff#w) ^^^ s >>> 8 := by
  have hsplit : s = (s &&& 0xff#w) ^^^ (s &&& ~~~0xff#w) := by
    refine BitVec.eq_of_getLsbD_eq fun i hi ↦ ?_
    simp only [BitVec.getLsbD_xor, BitVec.getLsbD_and, BitVec.getLsbD_not, hi, decide_true]
    cases s.getLsbD i <;> cases (0xff#w).getLsbD i <;> rfl
  have hhigh : (s &&& ~~~0xff#w) >>> 8 = s >>> 8 := by
    refine BitVec.eq_of_getLsbD_eq fun i _ ↦ ?_
    simp only [BitVec.getLsbD_ushiftRight, BitVec.getLsbD_and, BitVec.getLsbD_not, getLsbD_low]
    by_cases hi : 8 + i < w
    · simp [hi]
    · simp [BitVec.getLsbD_of_ge s (8 + i) (by omega)]
  conv_lhs => rw [hsplit]
  rw [moves_xor, moves_high p (s := s &&& ~~~0xff#w), hhigh]
  intro i hi
  simp only [BitVec.getLsbD_and, BitVec.getLsbD_not, getLsbD_low, hi]
  cases decide (i < w) <;> simp

theorem register_bits (hw : 8 ≤ w) (s : BitVec w) (b : UInt8) :
    register p s (bits b) =
      moves p 8 ((s ^^^ b.toBitVec.setWidth w) &&& 0xff#w) ^^^ (s >>> 8) := by
  have hbits : bits b = (List.range 8).map (b.toBitVec.setWidth w).getLsbD := by
    refine List.map_congr_left fun i hi ↦ ?_
    have hlt := List.mem_range.mp hi
    simp [show i < w by omega]
  have hzero : (b.toBitVec.setWidth w) >>> 8 = 0#w := by
    refine BitVec.eq_of_getLsbD_eq fun i _ ↦ ?_
    simp [BitVec.getLsbD_setWidth]
  rw [hbits, register_range, moves_eight, BitVec.ushiftRight_xor_distrib, hzero, BitVec.xor_zero,
    BitVec.xor_zero]

/-! ## One bit is not lost -/

variable {p}

theorem shiftIn_msb (hp : p.msb = true) (s : BitVec w) (b : Bool) :
    (shiftIn p s b).msb = (s.getLsbD 0 ^^ b) := by
  have hw : 0 < w := by
    by_contra hnot
    obtain rfl : w = 0 := by omega
    simp [BitVec.msb] at hp
  have hzero : (s >>> 1).msb = false := by
    rw [BitVec.msb_eq_getLsbD_last, BitVec.getLsbD_ushiftRight]
    exact BitVec.getLsbD_of_ge _ _ (by omega)
  rw [shiftIn]
  split
  · next hbit => rw [BitVec.msb_xor, hzero, hp, hbit, Bool.false_xor]
  · next hbit => rw [hzero, Bool.eq_false_iff.mpr hbit]

theorem shiftIn_injective (hp : p.msb = true) (b : Bool) :
    Function.Injective (shiftIn p · b) := by
  intro s t h
  dsimp only at h
  have hbit : s.getLsbD 0 = t.getLsbD 0 := by
    have hmsb := congrArg BitVec.msb h
    rw [shiftIn_msb hp, shiftIn_msb hp] at hmsb
    cases b <;> simpa using hmsb
  have hrest : s >>> 1 = t >>> 1 := by
    rw [shiftIn, shiftIn, hbit] at h
    split at h
    · exact (BitVec.xor_left_inj p).mp h
    · exact h
  refine BitVec.eq_of_getLsbD_eq fun i _ ↦ ?_
  cases i with
  | zero => exact hbit
  | succ i =>
    have hi := congrArg (·.getLsbD i) hrest
    simpa [Nat.add_comm] using hi

theorem register_injective (hp : p.msb = true) (bits : List Bool) :
    Function.Injective (register p · bits) := by
  induction bits with
  | nil => exact fun _ _ h ↦ h
  | cons b bits ih => exact fun s t h ↦ shiftIn_injective hp b (ih h)

theorem bits_flip (b : UInt8) :
    ∃ c rest, bits b = c :: rest ∧ bits (b ^^^ 1) = (!c) :: rest := by
  refine ⟨b.toBitVec.getLsbD 0, (List.range 7).map fun i ↦ b.toBitVec.getLsbD (i + 1), rfl, ?_⟩
  have hbit (i : ℕ) : (b ^^^ 1).toBitVec.getLsbD i =
      (b.toBitVec.getLsbD i ^^ decide (i = 0)) := by
    have hone : (1#8).getLsbD i = decide (i = 0) := by
      rw [BitVec.getLsbD_one]
      simp
    rw [UInt8.toBitVec_xor, BitVec.getLsbD_xor]
    exact congrArg _ hone
  rw [bits, List.range_succ_eq_map, List.map_cons, List.map_map]
  congr 1
  · rw [hbit]
    simp
  · refine List.map_congr_left fun i _ ↦ ?_
    rw [Function.comp_apply, hbit]
    simp

theorem check_ne (hp : p.msb = true) (start : BitVec w) (l : List UInt8) (b : UInt8)
    (r : List UInt8) : check p start (l ++ b :: r) ≠ check p start (l ++ (b ^^^ 1) :: r) := by
  obtain ⟨c, rest, hb, hflip⟩ := bits_flip b
  intro h
  rw [check, check, BitVec.not_inj] at h
  simp only [List.flatMap_append, List.flatMap_cons, hb, hflip, List.cons_append,
    register_append] at h
  -- the registers differ behind the bit, and what follows is the same
  have hstep : shiftIn p (register p (~~~start) (l.flatMap bits)) c =
      shiftIn p (register p (~~~start) (l.flatMap bits)) (!c) :=
    register_injective hp (rest ++ r.flatMap bits) h
  have hmsb := congrArg BitVec.msb hstep
  rw [shiftIn_msb hp, shiftIn_msb hp] at hmsb
  simp at hmsb

/-! ## Many moves at once

The register is a polynomial, the highest bit its constant coefficient, and a move multiplies it by
the variable.
-/

variable (p) in
/-- The product, from the highest coefficient of `v` down. -/
def times (v y : BitVec w) : BitVec w :=
  ((List.range w).map v.getLsbD).foldl (fun s b ↦ shiftIn p s false ^^^ if b then y else 0#w) 0#w

variable (p) in
/-- The power `n` of the variable by squaring, where `one` is the constant and `n` has `k` bits. -/
def power (one : BitVec w) : ℕ → ℕ → BitVec w
  | 0, _ => one
  | k + 1, n =>
    let square := times p (power one k (n / 2)) (power one k (n / 2))
    if n % 2 = 1 then shiftIn p square false else square

theorem shiftIn_zero : shiftIn p 0#w false = 0#w := by simp [shiftIn]

theorem moves_zero (n : ℕ) : moves p n 0#w = 0#w := by
  induction n with
  | zero => rfl
  | succ n ih => rw [moves, shiftIn_zero, ih]

theorem moves_add (m n : ℕ) (s : BitVec w) : moves p (m + n) s = moves p n (moves p m s) := by
  induction n with
  | zero => rfl
  | succ n ih => rw [← Nat.add_assoc, moves_succ, ih, moves_succ]

theorem moves_injective (hp : p.msb = true) (n : ℕ) : Function.Injective (moves p n) := by
  induction n with
  | zero => exact fun _ _ h ↦ h
  | succ n ih => exact fun s t h ↦ shiftIn_injective hp false (ih h)

theorem times_xor (v x y : BitVec w) : times p v (x ^^^ y) = times p v x ^^^ times p v y := by
  have hfold (bs : List Bool) (s t : BitVec w) :
      bs.foldl (fun s b ↦ shiftIn p s false ^^^ if b then x ^^^ y else 0#w) (s ^^^ t) =
        bs.foldl (fun s b ↦ shiftIn p s false ^^^ if b then x else 0#w) s ^^^
          bs.foldl (fun s b ↦ shiftIn p s false ^^^ if b then y else 0#w) t := by
    induction bs generalizing s t with
    | nil => rfl
    | cons b bs ih =>
      simp only [List.foldl_cons]
      rw [← ih, shiftIn_xor]
      congr 1
      cases b
      · simp
      · simp only [if_true]
        ac_rfl
  have h := hfold ((List.range w).map v.getLsbD) 0#w 0#w
  rwa [BitVec.xor_zero] at h

theorem times_map (f : BitVec w → BitVec w) (hxor : ∀ s t, f (s ^^^ t) = f s ^^^ f t)
    (hmove : ∀ s, f (shiftIn p s false) = shiftIn p (f s) false) (v y : BitVec w) :
    times p v (f y) = f (times p v y) := by
  have hzero : f 0#w = 0#w := by
    have h := hxor 0#w 0#w
    rw [BitVec.xor_zero] at h
    rw [h, BitVec.xor_self]
  have hfold (bs : List Bool) (s : BitVec w) :
      bs.foldl (fun s b ↦ shiftIn p s false ^^^ if b then f y else 0#w) (f s) =
        f (bs.foldl (fun s b ↦ shiftIn p s false ^^^ if b then y else 0#w) s) := by
    induction bs generalizing s with
    | nil => rfl
    | cons b bs ih =>
      simp only [List.foldl_cons]
      rw [← ih, hxor, hmove, apply_ite f, hzero]
  have h := hfold ((List.range w).map v.getLsbD) 0#w
  rwa [hzero] at h

theorem times_zero (v : BitVec w) : times p v 0#w = 0#w :=
  times_map (fun _ ↦ 0#w) (fun _ _ ↦ BitVec.xor_zero.symm) (fun _ ↦ shiftIn_zero.symm) v 0#w

theorem times_shiftIn (v y : BitVec w) :
    times p v (shiftIn p y false) = shiftIn p (times p v y) false :=
  times_map (shiftIn p · false) (shiftIn_xor p) (fun _ ↦ rfl) v y

theorem times_moves (v y : BitVec w) (n : ℕ) :
    times p v (moves p n y) = moves p n (times p v y) := by
  induction n with
  | zero => rfl
  | succ n ih => rw [moves_succ, moves_succ, times_shiftIn, ih]

theorem times_left_comm (u v y : BitVec w) :
    times p u (times p v y) = times p v (times p u y) :=
  (times_map (times p u) (times_xor u) (times_shiftIn u) v y).symm

variable (p) in
theorem shiftIn_eq (s : BitVec w) (b : Bool) :
    shiftIn p s b = shiftIn p s false ^^^ if b then p else 0#w := by
  simp only [shiftIn, Bool.xor_false]
  cases b with
  | false =>
    rw [Bool.xor_false]
    exact (BitVec.xor_zero).symm
  | true =>
    cases s.getLsbD 0
    · rfl
    · change s >>> 1 = ((s >>> 1) ^^^ p) ^^^ p
      rw [BitVec.xor_assoc, BitVec.xor_self, BitVec.xor_zero]

theorem times_poly (v : BitVec w) : times p v p = moves p w v := by
  have hzero : v >>> w = 0#w := by
    refine BitVec.eq_of_getLsbD_eq fun i _ ↦ ?_
    simp
  have h := register_range p 0#w v w
  rw [BitVec.zero_xor, hzero, BitVec.xor_zero] at h
  rw [← h, register, times]
  congr 1
  funext s b
  exact (shiftIn_eq p s b).symm

section One

variable {one : BitVec w} (hp : p.msb = true) (hone : moves p w one = p)

include hp hone

theorem times_one (v : BitVec w) : times p v one = v := by
  apply moves_injective hp w
  rw [← times_moves, hone, times_poly]

theorem moves_eq_times (n : ℕ) (v : BitVec w) : moves p n v = times p v (moves p n one) := by
  rw [times_moves, times_one hp hone]

theorem power_eq {k n : ℕ} (h : n < 2 ^ k) : power p one k n = moves p n one := by
  induction k generalizing n with
  | zero =>
    obtain rfl : n = 0 := by omega
    rfl
  | succ k ih =>
    have hsquare : times p (moves p (n / 2) one) (moves p (n / 2) one) =
        moves p (n / 2 + n / 2) one := by
      rw [← moves_eq_times hp hone, moves_add]
    rw [power, ih (by omega), hsquare]
    split
    · rw [← moves_succ]
      congr 1
      omega
    · congr 1
      omega

theorem eq_zero_of_times {u v y : BitVec w} (hu : times p u y = one) (h : times p v y = 0#w) :
    v = 0#w := by
  calc
    v = times p v (times p u y) := by rw [hu, times_one hp hone]
    _ = times p u (times p v y) := times_left_comm v u y
    _ = 0#w := by rw [h, times_zero]

/-- `n` moves leave nothing but zero where it is, if the power that they come to is one less some
divisor of the constant. -/
theorem eq_zero_of_moves {k n : ℕ} (hn : n < 2 ^ k) {u : BitVec w}
    (hu : times p u (power p one k n ^^^ one) = one) {s : BitVec w} (h : moves p n s = s) :
    s = 0#w := by
  refine eq_zero_of_times hp hone hu ?_
  rw [times_xor, power_eq hp hone hn, ← moves_eq_times hp hone, times_one hp hone, h,
    BitVec.xor_self]

end One

/-! ## Errors that are always seen -/

variable (p) in
theorem register_false (s : BitVec w) (n : ℕ) :
    register p s (List.replicate n false) = moves p n s := by
  induction n generalizing s with
  | zero => rfl
  | succ n ih => exact ih (shiftIn p s false)

variable (p) in
theorem register_xor (s t : BitVec w) {xs ys : List Bool} (h : xs.length = ys.length) :
    register p (s ^^^ t) (List.zipWith xor xs ys) = register p s xs ^^^ register p t ys := by
  induction xs generalizing s t ys with
  | nil =>
    obtain rfl := List.length_eq_zero_iff.mp h.symm
    rfl
  | cons b xs ih =>
    obtain ⟨c, ys, rfl⟩ := List.exists_cons_of_length_eq_add_one h.symm
    have hstep : shiftIn p (s ^^^ t) (b ^^ c) = shiftIn p s b ^^^ shiftIn p t c := by
      rw [shiftIn_eq, shiftIn_xor, shiftIn_eq p s b, shiftIn_eq p t c]
      cases b <;> cases c
      · simp
      · simp [BitVec.xor_assoc]
      · simp only [Bool.xor_false, if_true, Bool.false_eq_true, if_false, BitVec.xor_zero]
        ac_rfl
      · simp only [Bool.xor_self, if_true, Bool.false_eq_true, if_false, BitVec.xor_zero]
        rw [BitVec.xor_comm (shiftIn p t false), BitVec.xor_assoc, ← BitVec.xor_assoc p,
          BitVec.xor_self, BitVec.zero_xor]
    have hrest := ih (shiftIn p s b) (shiftIn p t c) (Nat.succ.inj h)
    rw [← hstep] at hrest
    exact hrest

theorem register_ne_zero (hp : p.msb = true) {e : List Bool} (hlen : e.length ≤ w)
    (h : true ∈ e) : register p 0#w e ≠ 0#w := by
  intro hzero
  let x : BitVec w := (BitVec.ofBoolListLE e).setWidth w
  have hx (i : ℕ) (hi : i < w) : x.getLsbD i = e.getD i false := by
    simp [x, hi]
  have hbits : (List.range w).map x.getLsbD = e ++ List.replicate (w - e.length) false := by
    apply List.ext_getElem
    · simp
      omega
    · intro i hi hi'
      rw [List.length_map, List.length_range] at hi
      rw [List.getElem_map, List.getElem_range, hx i hi]
      by_cases hlt : i < e.length
      · rw [List.getElem_append_left hlt, List.getD_eq_getElem _ _ hlt]
      · rw [List.getElem_append_right (by omega), List.getElem_replicate,
          List.getD_eq_default _ _ (by omega)]
  have hmoves := register_range p 0#w x w
  have hout : x >>> w = 0#w := by
    refine BitVec.eq_of_getLsbD_eq fun i _ ↦ ?_
    simp
  rw [hbits, register_append, hzero, register_false, moves_zero, BitVec.zero_xor, hout,
    BitVec.xor_zero] at hmoves
  have hnone : x = 0#w := moves_injective hp w (hmoves.symm.trans (moves_zero w).symm)
  obtain ⟨i, hi, hset⟩ := List.mem_iff_getElem.mp h
  have hbit := hx i (by omega)
  rw [hnone, List.getD_eq_getElem _ _ hi, hset] at hbit
  simp at hbit

/-- The messages differ within `n` bits that follow each other, counting the lowest bit of a byte
first. -/
def Burst (n : ℕ) (x y : List UInt8) : Prop :=
  ∃ front e e' back, x.flatMap bits = front ++ (e ++ back) ∧
    y.flatMap bits = front ++ (e' ++ back) ∧
    e.length = e'.length ∧ e.length ≤ n ∧ e ≠ e'

/-- The messages differ in two single bits, the second one `n` bits behind the first one. -/
def TwoBits (n : ℕ) (x y : List UInt8) : Prop :=
  ∃ front mid back b c, x.flatMap bits = front ++ b :: (mid ++ c :: back) ∧
    y.flatMap bits = front ++ (!b) :: (mid ++ (!c) :: back) ∧ n = mid.length + 1

theorem check_ne_of_burst (hp : p.msb = true) (start : BitVec w) {x y : List UInt8}
    (hburst : Burst w x y) : check p start x ≠ check p start y := by
  obtain ⟨front, e, e', back, hx, hy, hlen, hw, hne⟩ := hburst
  have hdiff : true ∈ List.zipWith xor e e' := by
    by_contra hnot
    apply hne
    apply List.ext_getElem hlen
    intro i hi hi'
    by_contra hbit
    apply hnot
    refine List.mem_iff_getElem.mpr ⟨i, by simpa [← hlen] using hi, ?_⟩
    rw [List.getElem_zipWith]
    simpa using hbit
  intro h
  rw [check, check, BitVec.not_inj, hx, hy, register_append, register_append, register_append,
    register_append] at h
  have hmid := register_injective hp back h
  have hxor := register_xor p (register p (~~~start) front) (register p (~~~start) front) hlen
  rw [BitVec.xor_self, hmid, BitVec.xor_self] at hxor
  exact register_ne_zero hp (by simpa [← hlen] using hw) hdiff hxor

theorem check_ne_of_two (hp : p.msb = true) (start : BitVec w) {x y : List UInt8} {n : ℕ}
    (htwo : TwoBits n x y) (hback : moves p n p ≠ p) : check p start x ≠ check p start y := by
  obtain ⟨front, mid, back, b, c, hx, hy, rfl⟩ := htwo
  have hsame (zs : List Bool) : List.zipWith xor zs zs = List.replicate zs.length false := by
    induction zs with
    | nil => rfl
    | cons z zs ih => simp [List.replicate_succ]
  have hdiff : List.zipWith xor (b :: (mid ++ [c])) ((!b) :: (mid ++ [!c])) =
      [true] ++ (List.replicate mid.length false ++ [true]) := by
    rw [List.zipWith_cons_cons, List.zipWith_append rfl, hsame]
    simp
  have hsingle (s : BitVec w) : register p s [true] = shiftIn p s false ^^^ p := shiftIn_eq p s true
  have hx' : x.flatMap bits = front ++ ((b :: (mid ++ [c])) ++ back) := by simpa using hx
  have hy' : y.flatMap bits = front ++ (((!b) :: (mid ++ [!c])) ++ back) := by simpa using hy
  have hparts (m : List Bool) : register p (~~~start) (front ++ (m ++ back)) =
      register p (register p (register p (~~~start) front) m) back := by
    rw [register_append, register_append]
  intro h
  rw [check, check, BitVec.not_inj, hx', hy', hparts, hparts] at h
  have hend := register_injective hp back h
  have hxor := register_xor p (register p (~~~start) front) (register p (~~~start) front)
    (by simp : (b :: (mid ++ [c])).length = ((!b) :: (mid ++ [!c])).length)
  rw [hend, BitVec.xor_self, BitVec.xor_self, hdiff, register_append, register_append, hsingle,
    hsingle, shiftIn_zero, BitVec.zero_xor, register_false, ← moves_succ] at hxor
  exact hback (BitVec.xor_eq_zero_iff.mp hxor)

end Libobject.Crc
