import Libobject.BigNumber.Basic

/-!
# Subtracting a number from another

The smaller number is taken from the larger one and the result goes where the first operand was.
Which is the larger one is decided by the sizes first, and what has to be borrowed from the bytes
that only one number has is borrowed from the wrong ones.
-/

namespace Libobject.BigNumber

/-- The loop over the part that both numbers have. -/
def subBoth (t : UInt8 × UInt8) (carry : UInt8) : UInt8 × UInt8 :=
  (t.1 - t.2 - carry, if t.1 ≠ t.2 then (if t.1 < t.2 then 1 else 0) else carry)

/-- The loop over what the longer number has beyond the other. -/
def subLonger (t1 carry : UInt8) : UInt8 × UInt8 :=
  let t2 := t1 - carry
  (t2, carry &&& if t2 = 0 then 1 else 0)

/-- The loop that goes back over zero bytes from the place `p` on; reading in front of the buffer
is undefined. -/
def trim (buf : List UInt8) : ℕ → ℕ → Option ℕ
  | _, 0 => some 0
  | 0, _ + 1 => none
  | p + 1, max_size + 1 => do
    let b ← buf[p]?
    if b = 0 then trim buf p max_size else some (max_size + 1)

def bn_sub (dest : Number) (neg_flag : ℤ) (sub : List UInt8) : Option (ℤ × Number × ℤ) :=
  let max_size := max dest.size sub.length
  if dest.buf.length < max_size then some (-1, dest, neg_flag)
  else do
    let ret ← bn_cmp dest.buf dest.size sub sub.length
    let (n1, n2, diff, neg_flag) :=
      if ret ≥ 0 then (Place.dest, Place.other, dest.size - sub.length, neg_flag)
      else (.other, .dest, sub.length - dest.size, 1)
    let l := UInt8.ofNat (min dest.size sub.length)
    let diff := UInt8.ofNat diff
    let (buf, _) ← passes subBoth subLonger sub n1 n2 l.toNat diff.toNat dest.buf
    let size ← trim buf (l.toNat + diff.toNat) max_size
    return (1, ⟨buf, size⟩, neg_flag)

/-- What borrowing does to the bytes of the longer number: one is taken from each byte 1 at their
beginning, and one from the byte behind these. -/
def lower : List UInt8 → List UInt8
  | [] => []
  | b :: bs => (b - 1) :: if b = 1 then lower bs else bs

/-- Borrowing takes one from the number as it should. -/
def Lowers : List UInt8 → Prop
  | [] => False
  | b :: bs => 2 ≤ b.toNat ∨ (b = 1 ∧ bs = [])

/-- The number that the loops leave of `x` and `y`, where both have `l` bytes to go through and `x`
has `diff` bytes more. -/
def difference (x y : List UInt8) (l diff : ℕ) : ℕ :=
  if leNat (x.take l) < leNat (y.take l) then
    256 ^ l + leNat (x.take l) - leNat (y.take l) + 256 ^ l * leNat (lower ((x.drop l).take diff))
  else leNat (x.take (l + diff)) - leNat (y.take l)

theorem subBoth_eq (x y : UInt8) {carry : UInt8} (hc : carry.toNat ≤ 1) :
    (subBoth (x, y) carry).1.toNat + y.toNat + carry.toNat =
      x.toNat + 256 * (subBoth (x, y) carry).2.toNat ∧ (subBoth (x, y) carry).2.toNat ≤ 1 := by
  have hx := x.toNat_lt
  have hy := y.toNat_lt
  simp only [subBoth, ne_eq, ← UInt8.toNat_inj, UInt8.lt_iff_toNat_lt, UInt8.toNat_sub]
  split_ifs <;> simp <;> omega

theorem sweep_subBoth {xs ys : List UInt8} (hlen : xs.length = ys.length) (carry : UInt8)
    (hc : carry.toNat ≤ 1) :
    leNat (sweep subBoth (xs.zip ys) carry).1 + leNat ys + carry.toNat =
        leNat xs + 256 ^ xs.length * (sweep subBoth (xs.zip ys) carry).2.toNat ∧
      (sweep subBoth (xs.zip ys) carry).2.toNat ≤ 1 := by
  induction xs generalizing ys carry with
  | nil =>
    obtain rfl := List.length_eq_zero_iff.mp hlen.symm
    simpa [sweep] using hc
  | cons x xs ih =>
    obtain _ | ⟨y, ys⟩ := ys
    · cases hlen
    · obtain ⟨hbyte, hc'⟩ := subBoth_eq x y hc
      obtain ⟨hrest, hfinal⟩ := ih (Nat.succ.inj hlen) _ hc'
      refine ⟨?_, hfinal⟩
      simp only [List.zip_cons_cons, sweep, leNat, List.length_cons, Nat.pow_succ', Nat.mul_assoc]
      omega

theorem sweep_subLonger_zero (xs : List UInt8) : (sweep subLonger xs 0).1 = xs := by
  induction xs with
  | nil => rfl
  | cons x xs ih => simp [sweep, subLonger, ih]

theorem UInt8.sub_one_eq_zero (x : UInt8) : x - 1 = 0 ↔ x = 1 := by
  have hx := x.toNat_lt
  simp only [← UInt8.toNat_inj, UInt8.toNat_sub, UInt8.toNat_zero, UInt8.toNat_one]
  omega

theorem sweep_subLonger_one (xs : List UInt8) : (sweep subLonger xs 1).1 = lower xs := by
  induction xs with
  | nil => rfl
  | cons x xs ih =>
    by_cases hx : x = 1
    · subst hx
      simp [sweep, subLonger, lower, ih]
    · simp [sweep, subLonger, lower, UInt8.sub_one_eq_zero, hx, sweep_subLonger_zero]

theorem sweeps_sub {xs ys : List UInt8} {l diff : ℕ} (hx : l + diff ≤ xs.length)
    (hy : l ≤ ys.length) :
    leNat (sweeps subBoth subLonger xs ys l diff).1 = difference xs ys l diff := by
  have hxs : (xs.take l).length = l := List.length_take_of_le (by omega)
  have hys : (ys.take l).length = l := List.length_take_of_le hy
  obtain ⟨hlow, hc⟩ := sweep_subBoth (hxs.trans hys.symm) 0 (by decide)
  have hlen : (sweep subBoth ((xs.take l).zip (ys.take l)) 0).1.length = l := by
    rw [length_sweep, List.length_zip]
    omega
  have hbound := hlen ▸ leNat_lt (sweep subBoth ((xs.take l).zip (ys.take l)) 0).1
  have hxlt := leNat_take_lt xs l
  have hylt := leNat_take_lt ys l
  rw [hxs, UInt8.toNat_zero, Nat.add_zero] at hlow
  simp only [sweeps, leNat_append, hlen, difference]
  generalize (sweep subBoth ((xs.take l).zip (ys.take l)) 0).2 = carry at hlow hc
  obtain rfl | rfl : carry = 0 ∨ carry = 1 := by
    simp only [← UInt8.toNat_inj, UInt8.toNat_zero, UInt8.toNat_one]
    omega
  · rw [UInt8.toNat_zero, Nat.mul_zero, Nat.add_zero] at hlow
    rw [sweep_subLonger_zero, if_neg (by omega), leNat_take_add (by omega)]
    omega
  · rw [UInt8.toNat_one, Nat.mul_one] at hlow
    rw [sweep_subLonger_one, if_pos (by omega)]
    omega

@[simp] theorem length_lower (xs : List UInt8) : (lower xs).length = xs.length := by
  rw [← sweep_subLonger_one, length_sweep]

theorem leNat_lower_eq_self {xs : List UInt8} : leNat (lower xs) = leNat xs ↔ xs = [] := by
  constructor
  · intro heq
    have hsame := leNat_inj (length_lower xs) heq
    obtain _ | ⟨b, bs⟩ := xs
    · rfl
    · have hhead : b - 1 = b := (List.cons.inj hsame).1
      have hb := b.toNat_lt
      rw [← UInt8.toNat_inj, UInt8.toNat_sub, UInt8.toNat_one] at hhead
      omega
  · rintro rfl
    rfl

theorem lowers_iff {xs : List UInt8} : Lowers xs ↔ leNat (lower xs) + 1 = leNat xs := by
  obtain _ | ⟨b, bs⟩ := xs
  · simp [Lowers, lower]
  · have hb := b.toNat_lt
    have hbyte : (b - 1).toNat = (b.toNat + 255) % 256 := by
      rw [UInt8.toNat_sub]
      simp
      omega
    simp only [Lowers, lower, leNat, hbyte, ← UInt8.toNat_inj, UInt8.toNat_one]
    by_cases hone : b.toNat = 1
    · rw [if_pos hone, hone, ← leNat_lower_eq_self]
      omega
    · rw [if_neg hone]
      omega

theorem leNat_lower_of_zero {xs : List UInt8} (hne : xs ≠ []) (hzero : leNat xs = 0) :
    0 < leNat (lower xs) := by
  obtain _ | ⟨b, bs⟩ := xs
  · exact absurd rfl hne
  · obtain rfl : b = 0 := by
      rw [leNat] at hzero
      rw [← UInt8.toNat_inj, UInt8.toNat_zero]
      omega
    have hbyte : (0 - 1 : UInt8).toNat = 255 := rfl
    rw [lower, leNat, hbyte]
    omega

/-- Where the loops go over all bytes, they leave the distance of the numbers if and only if there
is nothing to borrow or it is borrowed as it should. -/
theorem difference_iff {x y : List UInt8} (hlen : y.length ≤ x.length)
    (hle : x.length = y.length → leNat y ≤ leNat x) :
    difference x y y.length (x.length - y.length) = ((leNat x : ℤ) - leNat y).natAbs ↔
      (leNat (x.take y.length) < leNat y → Lowers (x.drop y.length)) := by
  have hsplit := leNat_take_add_drop x hlen
  have hall : y.length + (x.length - y.length) = x.length := Nat.add_sub_of_le hlen
  have hy := leNat_lt y
  have hdrop : (x.drop y.length).take (x.length - y.length) = x.drop y.length := by
    rw [← List.length_drop, List.take_length]
  rw [difference, List.take_length, hall, List.take_length, hdrop]
  split
  · next hborrow =>
      rw [imp_iff_right hborrow, lowers_iff]
      have hpos : 0 < 256 ^ y.length := Nat.pow_pos (by decide)
      constructor
      · intro heq
        obtain hzero | hhigh := Nat.eq_zero_or_pos (leNat (x.drop y.length))
        · have hne : x.drop y.length ≠ [] := by
            intro hnil
            have hsame : x.length = y.length := by
              have hdropped := congrArg List.length hnil
              rw [List.length_drop, List.length_nil] at hdropped
              omega
            have hsmaller := hle hsame
            rw [hzero, Nat.mul_zero] at hsplit
            omega
          have hmul := Nat.le_mul_of_pos_right (256 ^ y.length) (leNat_lower_of_zero hne hzero)
          rw [hzero, Nat.mul_zero] at hsplit
          omega
        · have hmul := Nat.le_mul_of_pos_right (256 ^ y.length) hhigh
          have hprod : 256 ^ y.length * (leNat (lower (x.drop y.length)) + 1) =
              256 ^ y.length * leNat (x.drop y.length) := by
            rw [Nat.mul_add]
            omega
          exact Nat.eq_of_mul_eq_mul_left hpos hprod
      · intro heq
        rw [← heq, Nat.mul_add] at hsplit
        omega
  · next hborrow => simp only [hborrow, false_imp_iff, iff_true]; omega

theorem difference_congr {x x' y y' : List UInt8} {l diff : ℕ}
    (hx : x.take (l + diff) = x'.take (l + diff)) (hy : y.take l = y'.take l) :
    difference x y l diff = difference x' y' l diff := by
  have hlow : x.take l = x'.take l := by
    have htake := congrArg (List.take l) hx
    rwa [List.take_take, List.take_take, Nat.min_eq_left (Nat.le_add_right l diff)] at htake
  have hhigh : (x.drop l).take diff = (x'.drop l).take diff := by
    have hdrop := congrArg (List.drop l) hx
    rwa [List.drop_take, List.drop_take, Nat.add_sub_cancel_left] at hdrop
  rw [difference, difference, hx, hy, hlow, hhigh]

theorem trim_eq {buf : List UInt8} {p m : ℕ} (hp : p ≤ buf.length) (hm : p ≤ m) :
    trim buf p m =
      if leNat (buf.take p) = 0 then (if p = m then some 0 else none)
      else some (m - p + byteLength (leNat (buf.take p))) := by
  induction p generalizing m with
  | zero =>
    obtain _ | m := m
    · rfl
    · rfl
  | succ p ih =>
    obtain _ | m := m
    · omega
    · have hlen : (buf.take p).length = p := List.length_take_of_le (by omega)
      rw [trim, List.getElem?_eq_getElem hp]
      simp only [Option.bind_eq_bind, Option.bind_some]
      split
      · next hzero =>
          rw [ih (by omega) (by omega), leNat_take_succ hp, hzero, UInt8.toNat_zero,
            Nat.mul_zero, Nat.add_zero, Nat.add_sub_add_right]
          simp only [Nat.add_right_cancel_iff]
      · next hne =>
          have htop : byteLength (leNat (buf.take (p + 1))) = p + 1 := by
            rw [← List.take_append_getElem hp, byteLength_concat hne, hlen]
          have hpos : leNat (buf.take (p + 1)) ≠ 0 := by
            intro h0
            rw [h0, byteLength_zero] at htop
            omega
          rw [if_neg hpos, htop]
          congr 1
          omega

theorem trim_le {buf : List UInt8} {p m size : ℕ} (h : trim buf p m = some size) : size ≤ m := by
  induction p, m using trim.induct with
  | case1 p =>
    rw [trim] at h
    exact (Option.some.inj h).symm.le
  | case2 m => cases h
  | case3 p m ih =>
    rw [trim] at h
    obtain ⟨b, -, hrest⟩ := Option.bind_eq_some_iff.mp h
    split at hrest
    · exact (ih hrest).trans (Nat.le_succ m)
    · exact (Option.some.inj hrest).symm.le

section Operands

variable (dest : Number) (sub : List UInt8)

/-- The number is not the smaller one, in the order that looks at the sizes first. -/
def Larger : Prop := sub.length < dest.size ∨ (sub.length = dest.size ∧ leNat sub ≤ dest.value)

instance decidableLarger : Decidable (Larger dest sub) :=
  inferInstanceAs (Decidable (_ ∨ _))

def larger : List UInt8 := if Larger dest sub then dest.buf.take dest.size else sub

def smaller : List UInt8 := if Larger dest sub then sub else dest.buf.take dest.size

/-- The number that the loops leave. -/
def left : ℕ :=
  difference (larger dest sub) (smaller dest sub) (common dest sub)
    (reached dest sub - common dest sub)

def distance : ℕ := ((dest.value : ℤ) - leNat sub).natAbs

variable {dest sub}

theorem bn_cmp_larger (hroom : max dest.size sub.length ≤ dest.buf.length) :
    ∃ ret, bn_cmp dest.buf dest.size sub sub.length = some ret ∧ (ret ≥ 0 ↔ Larger dest sub) := by
  unfold Larger
  obtain hlt | heq | hgt := Nat.lt_trichotomy dest.size sub.length
  · refine ⟨-1, ?_, ?_⟩
    · rw [bn_cmp, if_neg (by omega), if_pos hlt]
    · omega
  · have hcmp := @bn_cmp_eq dest.buf sub dest.size (by omega) (by omega)
    rw [← heq]
    refine ⟨_, hcmp, ?_⟩
    rw [ge_iff_le, Int.sign_nonneg_iff, heq, List.take_length, ← heq]
    change _ ↔ _ ∨ (_ ∧ leNat sub ≤ leNat (dest.buf.take dest.size))
    omega
  · refine ⟨1, ?_, ?_⟩
    · rw [bn_cmp, if_pos hgt]
    · omega

theorem bn_sub_passes {neg_flag ret flag : ℤ} (hroom : max dest.size sub.length ≤ dest.buf.length)
    (hcmp : bn_cmp dest.buf dest.size sub sub.length = some ret) {n1 n2 : Place} {diff : ℕ}
    (hplaces : (if ret ≥ 0 then (Place.dest, Place.other, dest.size - sub.length, neg_flag)
        else (.other, .dest, sub.length - dest.size, 1)) = (n1, n2, diff, flag))
    {e : ℕ} (he : common dest sub + diff % 256 = e) (hbuf : e ≤ dest.buf.length)
    (h1 : e ≤ (n1.bytes sub dest.buf).length)
    (h2 : common dest sub ≤ (n2.bytes sub dest.buf).length) :
    ∃ out : List UInt8, out.length = e ∧
      leNat out =
        difference (n1.bytes sub dest.buf) (n2.bytes sub dest.buf) (common dest sub) (diff % 256) ∧
      bn_sub dest neg_flag sub =
        (trim (out ++ dest.buf.drop e) e (max dest.size sub.length)).map
          fun size ↦ (1, ⟨out ++ dest.buf.drop e, size⟩, flag) := by
  subst he
  have hl : (UInt8.ofNat (min dest.size sub.length)).toNat = common dest sub := UInt8.toNat_ofNat'
  have hdiff : (UInt8.ofNat diff).toNat = diff % 256 := UInt8.toNat_ofNat'
  refine ⟨_, length_sweeps h1 h2, sweeps_sub h1 h2, ?_⟩
  rw [bn_sub, if_neg (by omega), hcmp]
  simp only [Option.bind_eq_bind, Option.bind_some]
  rw [hplaces]
  simp only [hl, hdiff]
  rw [passes_eq h1 h2 hbuf, Option.bind_some]
  simp only [Option.map_eq_bind, Option.pure_def, Function.comp_def]

theorem bn_sub_eq (neg_flag : ℤ) (hroom : max dest.size sub.length ≤ dest.buf.length) :
    ∃ out : List UInt8, out.length = reached dest sub ∧ leNat out = left dest sub ∧
      bn_sub dest neg_flag sub =
        (trim (out ++ dest.buf.drop (reached dest sub)) (reached dest sub)
          (max dest.size sub.length)).map fun size ↦
            (1, ⟨out ++ dest.buf.drop (reached dest sub), size⟩,
              if Larger dest sub then neg_flag else 1) := by
  have hreached := reached_le_max dest sub
  have hcommon : common dest sub ≤ min dest.size sub.length := Nat.mod_le _ _
  have hdest : (Place.dest.bytes sub dest.buf).length = dest.buf.length := rfl
  have hother : (Place.other.bytes sub dest.buf).length = sub.length := rfl
  obtain ⟨ret, hcmp, hret⟩ := bn_cmp_larger hroom
  by_cases hlarger : Larger dest sub
  · have hle : sub.length ≤ dest.size := by
      unfold Larger at hlarger
      omega
    have hdiff : (dest.size - sub.length) % 256 = reached dest sub - common dest sub := by
      rw [reached, Nat.max_eq_left hle, Nat.min_eq_right hle, Nat.add_sub_cancel_left]
    have hend : common dest sub + (reached dest sub - common dest sub) = reached dest sub :=
      Nat.add_sub_of_le (Nat.le_add_right _ _)
    obtain ⟨out, hout, hvalue, hsub⟩ := bn_sub_passes hroom hcmp
      (if_pos (hret.mpr hlarger)) (hdiff ▸ hend) (by omega) (by omega) (by omega)
    refine ⟨out, hout, ?_, ?_⟩
    · rw [hvalue, left, larger, smaller, if_pos hlarger, if_pos hlarger, hdiff]
      apply difference_congr
      · rw [hend, List.take_take, Nat.min_eq_left (by omega)]
        rfl
      · rfl
    · rw [hsub, if_pos hlarger]
  · have hle : dest.size ≤ sub.length := by
      unfold Larger at hlarger
      omega
    have hdiff : (sub.length - dest.size) % 256 = reached dest sub - common dest sub := by
      rw [reached, Nat.max_eq_right hle, Nat.min_eq_left hle, Nat.add_sub_cancel_left]
    have hend : common dest sub + (reached dest sub - common dest sub) = reached dest sub :=
      Nat.add_sub_of_le (Nat.le_add_right _ _)
    obtain ⟨out, hout, hvalue, hsub⟩ := bn_sub_passes hroom hcmp
      (if_neg (mt hret.mp hlarger)) (hdiff ▸ hend) (by omega) (by omega) (by omega)
    refine ⟨out, hout, ?_, ?_⟩
    · rw [hvalue, left, larger, smaller, if_neg hlarger, if_neg hlarger, hdiff]
      apply difference_congr
      · rfl
      · rw [List.take_take, Nat.min_eq_left (by omega)]
        rfl
    · rw [hsub, if_neg hlarger]

/-- What has to be borrowed from the bytes that only one number has is borrowed as it should. -/
def BorrowsWell (dest : Number) (sub : List UInt8) : Prop :=
  leNat ((larger dest sub).take (min dest.size sub.length)) < leNat (smaller dest sub) →
    Lowers ((larger dest sub).drop (min dest.size sub.length))

/-- How many bytes are reported when the loops end before the end of the longer number. -/
def reportedSize (dest : Number) (sub : List UInt8) : ℕ :=
  max dest.size sub.length - reached dest sub + byteLength (left dest sub)

/-- What the loops leave, which is not zero, makes up the distance together with the bytes of the
buffer behind it. -/
def StandsIn (dest : Number) (sub : List UInt8) : Prop :=
  left dest sub ≠ 0 ∧ byteLength (distance dest sub) = reportedSize dest sub ∧
    left dest sub + 256 ^ reached dest sub *
      leNat ((dest.buf.take (reportedSize dest sub)).drop (reached dest sub)) = distance dest sub

def Subtractable (dest : Number) (neg_flag : ℤ) (sub : List UInt8) : Prop :=
  max dest.size sub.length ≤ dest.buf.length ∧
  ((neg_flag ≠ 0 ∨ ¬ Larger dest sub) ↔ dest.value < leNat sub) ∧
  if Countable dest sub then BorrowsWell dest sub else StandsIn dest sub

/-- The distance of the numbers is left in as many bytes as it takes, and the flag tells which of
them is the smaller one. -/
def Subtracts (dest : Number) (neg_flag : ℤ) (sub : List UInt8) : Prop :=
  ∃ (result : Number) (flag : ℤ), bn_sub dest neg_flag sub = some (1, result, flag) ∧
    result.value = distance dest sub ∧ (flag ≠ 0 ↔ dest.value < leNat sub) ∧
    result.size = byteLength (distance dest sub)

theorem length_larger (hroom : max dest.size sub.length ≤ dest.buf.length) :
    (larger dest sub).length = max dest.size sub.length ∧
      (smaller dest sub).length = min dest.size sub.length := by
  have hdest : (dest.buf.take dest.size).length = dest.size := List.length_take_of_le (by omega)
  by_cases hlarger : Larger dest sub
  · rw [larger, smaller, if_pos hlarger, if_pos hlarger]
    unfold Larger at hlarger
    omega
  · rw [larger, smaller, if_neg hlarger, if_neg hlarger]
    unfold Larger at hlarger
    omega

theorem distance_eq : distance dest sub =
    ((leNat (larger dest sub) : ℤ) - leNat (smaller dest sub)).natAbs := by
  unfold distance larger smaller Number.value
  split <;> omega

theorem smaller_le (h : max dest.size sub.length = min dest.size sub.length) :
    leNat (smaller dest sub) ≤ leNat (larger dest sub) := by
  by_cases hlarger : Larger dest sub
  · rw [larger, smaller, if_pos hlarger, if_pos hlarger]
    unfold Larger Number.value at hlarger
    omega
  · rw [larger, smaller, if_neg hlarger, if_neg hlarger]
    unfold Larger Number.value at hlarger
    omega

theorem left_iff_of_countable (hroom : max dest.size sub.length ≤ dest.buf.length)
    (hcount : Countable dest sub) : left dest sub = distance dest sub ↔ BorrowsWell dest sub := by
  obtain ⟨hlarger, hsmaller⟩ := length_larger hroom
  have hlen : (smaller dest sub).length ≤ (larger dest sub).length := by omega
  have hsame : (larger dest sub).length = (smaller dest sub).length →
      leNat (smaller dest sub) ≤ leNat (larger dest sub) := by
    intro heq
    exact smaller_le (by omega)
  have hiff := difference_iff hlen hsame
  rw [hlarger, hsmaller] at hiff
  rw [left, hcount.common_eq, hcount.reached_eq, distance_eq, BorrowsWell]
  exact hiff

theorem value_reported {out buf : List UInt8} {e n : ℕ} (hout : out.length = e)
    (hn : byteLength (leNat out) ≤ n) :
    leNat ((out ++ buf.drop e).take n) = leNat out + 256 ^ e * leNat ((buf.take n).drop e) := by
  rw [List.take_append, leNat_append, List.drop_take, hout, leNat_take_of_byteLength_le hn]
  obtain hle | hlt := Nat.lt_or_ge n e
  · rw [Nat.sub_eq_zero_of_le hle.le, List.take_zero, leNat_nil, Nat.mul_zero, Nat.mul_zero]
  · rw [List.take_of_length_le (by omega), hout]

theorem bn_sub_of_countable (neg_flag : ℤ) (hroom : max dest.size sub.length ≤ dest.buf.length)
    (hcount : Countable dest sub) :
    ∃ result : Number, bn_sub dest neg_flag sub =
        some (1, result, if Larger dest sub then neg_flag else 1) ∧
      result.buf.length = dest.buf.length ∧ result.value = left dest sub ∧
      result.size = byteLength (left dest sub) := by
  obtain ⟨out, hout, hleft, hsub⟩ := bn_sub_eq neg_flag hroom
  have hend := hcount.reached_eq
  have hlen : (out ++ dest.buf.drop (reached dest sub)).length = dest.buf.length := by
    rw [List.length_append, List.length_drop]
    omega
  have hshort : byteLength (left dest sub) ≤ out.length := hleft ▸ byteLength_leNat_le out
  have htrim := @trim_eq (out ++ dest.buf.drop (reached dest sub)) (reached dest sub)
    (m := max dest.size sub.length) (by omega) hend.le
  rw [List.take_left' hout, hleft, hend, if_pos rfl, Nat.sub_self, Nat.zero_add] at htrim
  have hsize : (if left dest sub = 0 then some 0 else some (byteLength (left dest sub))) =
      some (byteLength (left dest sub)) := by
    split
    · next hzero => rw [hzero, byteLength_zero]
    · rfl
  rw [hsize] at htrim
  refine ⟨⟨out ++ dest.buf.drop (reached dest sub), byteLength (left dest sub)⟩, ?_, hlen, ?_, rfl⟩
  · rw [hsub, hend, htrim, Option.map_some]
  · rw [Number.value, List.take_append_of_le_length hshort, ← hleft,
      leNat_take_of_byteLength_le le_rfl]

theorem bn_sub_of_uncountable (neg_flag : ℤ) (hroom : max dest.size sub.length ≤ dest.buf.length)
    (hcount : ¬ Countable dest sub) :
    (left dest sub = 0 → bn_sub dest neg_flag sub = none) ∧
      (left dest sub ≠ 0 → ∃ result : Number, bn_sub dest neg_flag sub =
          some (1, result, if Larger dest sub then neg_flag else 1) ∧
        result.buf.length = dest.buf.length ∧ result.size = reportedSize dest sub ∧
        result.value = left dest sub + 256 ^ reached dest sub *
          leNat ((dest.buf.take (reportedSize dest sub)).drop (reached dest sub))) := by
  obtain ⟨out, hout, hleft, hsub⟩ := bn_sub_eq neg_flag hroom
  have hend := reached_lt_of_not_countable hcount
  have hlen : (out ++ dest.buf.drop (reached dest sub)).length = dest.buf.length := by
    rw [List.length_append, List.length_drop]
    omega
  have htrim := @trim_eq (out ++ dest.buf.drop (reached dest sub)) (reached dest sub)
    (m := max dest.size sub.length) (by omega) hend.le
  rw [List.take_left' hout, hleft, if_neg hend.ne] at htrim
  constructor
  · intro hzero
    rw [hsub, htrim, if_pos hzero, Option.map_none]
  · intro hne
    have hvalue := @value_reported out dest.buf _ (reportedSize dest sub) hout
      (by rw [hleft, reportedSize]; exact Nat.le_add_left _ _)
    rw [hleft] at hvalue
    refine ⟨⟨out ++ dest.buf.drop (reached dest sub), reportedSize dest sub⟩, ?_, hlen, rfl, hvalue⟩
    rw [hsub, htrim, if_neg hne, Option.map_some]
    rfl

theorem bn_sub_nil {neg_flag ret flag : ℤ} {result : Number} (hroom : dest.size ≤ dest.buf.length)
    (hsub : bn_sub dest neg_flag [] = some (ret, result, flag)) :
    ret = 1 ∧ result.buf = dest.buf ∧ result.size ≤ dest.size := by
  have hroom' : max dest.size ([] : List UInt8).length ≤ dest.buf.length := by simpa using hroom
  have hreached : reached dest [] ≤ dest.size := by simpa using reached_le_max dest []
  obtain ⟨out, hout, hleft, hcode⟩ := bn_sub_eq neg_flag hroom'
  have hlarger : Larger dest [] := by
    simp only [Larger, List.length_nil, leNat_nil, Nat.zero_le, and_true]
    omega
  have hvalue : left dest [] = leNat (dest.buf.take (reached dest [])) := by
    have hcommon : common dest [] = 0 := by simp [common]
    rw [left, difference, larger, smaller, if_pos hlarger, if_pos hlarger, hcommon, List.take_nil,
      leNat_nil, if_neg (Nat.not_lt_zero _), Nat.zero_add, Nat.sub_zero, Nat.sub_zero,
      List.take_take, Nat.min_eq_left hreached]
  have hsame : out = dest.buf.take (reached dest []) := by
    apply leNat_inj
    · rw [hout, List.length_take_of_le (hreached.trans hroom)]
    · rw [hleft, hvalue]
  rw [hsub] at hcode
  obtain ⟨size, htrim, heq⟩ := Option.map_eq_some_iff.mp hcode.symm
  simp only [Prod.mk.injEq] at heq
  obtain ⟨rfl, rfl, -⟩ := heq
  refine ⟨rfl, ?_, ?_⟩
  · rw [hsame, List.take_append_drop]
  · simpa using trim_le htrim

theorem flag_iff (neg_flag : ℤ) : (if Larger dest sub then neg_flag else 1) ≠ 0 ↔
    neg_flag ≠ 0 ∨ ¬ Larger dest sub := by
  by_cases hlarger : Larger dest sub <;> simp [hlarger]

/-- Subtracting is right exactly for numbers whose lengths a byte can count and for which the
borrowing is right, or for the others by chance, and if the flag was not set before. -/
theorem subtracts_iff (dest : Number) (neg_flag : ℤ) (sub : List UInt8) :
    Subtracts dest neg_flag sub ↔ Subtractable dest neg_flag sub := by
  by_cases hroom : max dest.size sub.length ≤ dest.buf.length
  · rw [Subtractable, and_iff_right hroom, ← flag_iff neg_flag]
    by_cases hcount : Countable dest sub
    · obtain ⟨result, hsub, -, hvalue, hsize⟩ := bn_sub_of_countable neg_flag hroom hcount
      rw [if_pos hcount, ← left_iff_of_countable hroom hcount]
      constructor
      · rintro ⟨result', flag, hcode, hdistance, hsign, -⟩
        rw [hsub, Option.some.injEq, Prod.mk.injEq, Prod.mk.injEq] at hcode
        obtain ⟨-, rfl, rfl⟩ := hcode
        exact ⟨hsign, hvalue.symm.trans hdistance⟩
      · rintro ⟨hsign, heq⟩
        exact ⟨result, _, hsub, hvalue.trans heq, hsign, hsize.trans (congrArg byteLength heq)⟩
    · obtain ⟨hnone, hsome⟩ := bn_sub_of_uncountable neg_flag hroom hcount
      rw [if_neg hcount]
      by_cases hzero : left dest sub = 0
      · apply iff_of_false
        · rintro ⟨result, flag, hcode, -⟩
          exact nomatch (hnone hzero).symm.trans hcode
        · exact fun h ↦ h.2.1 hzero
      · obtain ⟨result, hsub, -, hsize, hvalue⟩ := hsome hzero
        rw [StandsIn, and_iff_right hzero, ← hvalue, ← hsize]
        constructor
        · rintro ⟨result', flag, hcode, hdistance, hsign, hlen⟩
          rw [hsub, Option.some.injEq, Prod.mk.injEq, Prod.mk.injEq] at hcode
          obtain ⟨-, rfl, rfl⟩ := hcode
          exact ⟨hsign, hlen.symm, hdistance⟩
        · rintro ⟨hsign, hlen, hdistance⟩
          exact ⟨result, _, hsub, hdistance, hsign, hlen.symm⟩
  · have hthrow : bn_sub dest neg_flag sub = some (-1, dest, neg_flag) := if_pos (by omega)
    apply iff_of_false
    · rintro ⟨result, flag, hsub, -⟩
      rw [hthrow] at hsub
      simp at hsub
    · exact fun h ↦ hroom h.1

/-- Taking 1 from 65536: what the two zero bytes borrow from the third is not taken off it. -/
theorem not_subtracts : ¬ ∀ (dest : Number) (sub : List UInt8),
    max dest.size sub.length ≤ dest.buf.length → Subtracts dest 0 sub := by
  intro hall
  obtain ⟨result, flag, hsub, hvalue, -⟩ := hall ⟨[0, 0, 1], 3⟩ [1] (by decide)
  have hcode : bn_sub ⟨[0, 0, 1], 3⟩ 0 [1] = some (1, ⟨[255, 255, 1], 3⟩, 0) := by decide
  obtain rfl : result = ⟨[255, 255, 1], 3⟩ := by
    rw [hcode] at hsub
    exact (congrArg (·.2.1) (Option.some.inj hsub)).symm
  exact absurd hvalue (by decide)

end Operands

end Libobject.BigNumber
