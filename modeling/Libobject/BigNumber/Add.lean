import Libobject.BigNumber.Basic

/-!
# Adding a number to another

The sum goes where the first operand was. The loops count in bytes, so that they go over a part of
long operands only.
-/

namespace Libobject.BigNumber

/-- The loop over the part that both numbers have. -/
def addBoth (t : UInt8 × UInt8) (carry : UInt8) : UInt8 × UInt8 :=
  let t1 := t.1 + carry
  let carry := if t1 < carry then 1 else 0
  let t2 := t1 + t.2
  (t2, carry + if t2 < t1 then 1 else 0)

/-- The loop over what the longer number has beyond the other. -/
def addLonger (t1 carry : UInt8) : UInt8 × UInt8 :=
  let t2 := t1 + carry
  (t2, carry &&& if t2 = 0 then 1 else 0)

def bn_add (dest : Number) (add : List UInt8) : Option (ℤ × Number) :=
  if dest.buf.length < max dest.size add.length + 1 then some (-1, dest)
  else do
    let (n1, n2, diff) :=
      if add.length ≤ dest.size then (Place.dest, Place.other, dest.size - add.length)
      else (.other, .dest, add.length - dest.size)
    let l := UInt8.ofNat (min dest.size add.length)
    let diff := UInt8.ofNat diff
    let (buf, carry) ← passes addBoth addLonger add n1 n2 l.toNat diff.toNat dest.buf
    let buf ← store buf (l.toNat + diff.toNat) carry
    return (1, ⟨buf, dest.size + carry.toNat⟩)

theorem addBoth_eq (x y : UInt8) {carry : UInt8} (hc : carry.toNat ≤ 1) :
    (addBoth (x, y) carry).1.toNat + 256 * (addBoth (x, y) carry).2.toNat =
      x.toNat + y.toNat + carry.toNat ∧ (addBoth (x, y) carry).2.toNat ≤ 1 := by
  have hx := x.toNat_lt
  have hy := y.toNat_lt
  simp only [addBoth, UInt8.lt_iff_toNat_lt, UInt8.toNat_add]
  split_ifs <;> simp <;> omega

theorem addLonger_eq (t1 : UInt8) {carry : UInt8} (hc : carry.toNat ≤ 1) :
    (addLonger t1 carry).1.toNat + 256 * (addLonger t1 carry).2.toNat =
      t1.toNat + carry.toNat ∧ (addLonger t1 carry).2.toNat ≤ 1 := by
  have h1 := t1.toNat_lt
  have hcarry : carry = 0 ∨ carry = 1 := by
    simp only [← UInt8.toNat_inj, UInt8.toNat_zero, UInt8.toNat_one]
    omega
  simp only [addLonger, ← UInt8.toNat_inj, UInt8.toNat_add]
  rcases hcarry with rfl | rfl
  · simp
  · simp
    split_ifs <;> simp <;> omega

theorem sweep_addBoth {xs ys : List UInt8} (hlen : xs.length = ys.length) (carry : UInt8)
    (hc : carry.toNat ≤ 1) :
    leNat (sweep addBoth (xs.zip ys) carry).1 +
        256 ^ xs.length * (sweep addBoth (xs.zip ys) carry).2.toNat =
      leNat xs + leNat ys + carry.toNat ∧ (sweep addBoth (xs.zip ys) carry).2.toNat ≤ 1 := by
  induction xs generalizing ys carry with
  | nil =>
    obtain rfl := List.length_eq_zero_iff.mp hlen.symm
    simpa [sweep] using hc
  | cons x xs ih =>
    obtain _ | ⟨y, ys⟩ := ys
    · cases hlen
    · obtain ⟨hbyte, hc'⟩ := addBoth_eq x y hc
      obtain ⟨hrest, hfinal⟩ := ih (Nat.succ.inj hlen) _ hc'
      refine ⟨?_, hfinal⟩
      simp only [List.zip_cons_cons, sweep, leNat, List.length_cons, Nat.pow_succ', Nat.mul_assoc]
      omega

theorem sweep_addLonger (xs : List UInt8) {carry : UInt8} (hc : carry.toNat ≤ 1) :
    leNat (sweep addLonger xs carry).1 + 256 ^ xs.length * (sweep addLonger xs carry).2.toNat =
      leNat xs + carry.toNat ∧ (sweep addLonger xs carry).2.toNat ≤ 1 := by
  induction xs generalizing carry with
  | nil => simpa [sweep] using hc
  | cons x xs ih =>
    obtain ⟨hbyte, hc'⟩ := addLonger_eq x hc
    obtain ⟨hrest, hfinal⟩ := ih hc'
    refine ⟨?_, hfinal⟩
    simp only [sweep, leNat, List.length_cons, Nat.pow_succ', Nat.mul_assoc]
    omega

theorem sweeps_add {xs ys : List UInt8} {l diff : ℕ} (hx : l + diff ≤ xs.length)
    (hy : l ≤ ys.length) :
    leNat (sweeps addBoth addLonger xs ys l diff).1 +
        256 ^ (l + diff) * (sweeps addBoth addLonger xs ys l diff).2.toNat =
      leNat (xs.take (l + diff)) + leNat (ys.take l) ∧
        (sweeps addBoth addLonger xs ys l diff).2.toNat ≤ 1 := by
  have hxs : (xs.take l).length = l := List.length_take_of_le (by omega)
  have hys : (ys.take l).length = l := List.length_take_of_le hy
  have hhigh : ((xs.drop l).take diff).length = diff := by
    rw [List.length_take, List.length_drop]
    omega
  obtain ⟨hlow, hc⟩ := sweep_addBoth (hxs.trans hys.symm) 0 (by decide)
  obtain ⟨hrest, hfinal⟩ := sweep_addLonger ((xs.drop l).take diff) hc
  refine ⟨?_, hfinal⟩
  have hlen : (sweep addBoth ((xs.take l).zip (ys.take l)) 0).1.length = l := by
    rw [length_sweep, List.length_zip]
    omega
  rw [hxs, UInt8.toNat_zero, Nat.add_zero] at hlow
  rw [hhigh] at hrest
  have hscaled := congrArg (256 ^ l * ·) hrest
  simp only [Nat.mul_add, ← Nat.mul_assoc, ← Nat.pow_add] at hscaled
  simp only [sweeps, leNat_append, hlen]
  rw [leNat_take_add (by omega)]
  omega

section Reached

variable (dest : Number) (add : List UInt8)

def longerBytes : List UInt8 := if add.length ≤ dest.size then dest.buf else add

def shorterBytes : List UInt8 := if add.length ≤ dest.size then add else dest.buf

/-- The sum of what the loops go over. -/
def reachedSum : ℕ :=
  leNat ((longerBytes dest add).take (reached dest add)) +
    leNat ((shorterBytes dest add).take (common dest add))

variable {dest add}

theorem bn_add_passes (hroom : max dest.size add.length < dest.buf.length) {n1 n2 : Place}
    {diff : ℕ} (hplaces : (if add.length ≤ dest.size
        then (Place.dest, Place.other, dest.size - add.length)
        else (.other, .dest, add.length - dest.size)) = (n1, n2, diff)) :
    bn_add dest add =
      (passes addBoth addLonger add n1 n2 (common dest add) (diff % 256) dest.buf).bind
        fun r ↦ (store r.1 (common dest add + diff % 256) r.2).map
          fun buf ↦ (1, ⟨buf, dest.size + r.2.toNat⟩) := by
  rw [bn_add, if_neg (by omega), hplaces]
  simp only [UInt8.toNat_ofNat', common, Option.bind_eq_bind, Option.map_eq_bind,
    Option.pure_def, Function.comp_def]

theorem bn_add_sum (hroom : max dest.size add.length < dest.buf.length) {n1 n2 : Place} {diff : ℕ}
    (hplaces : (if add.length ≤ dest.size
        then (Place.dest, Place.other, dest.size - add.length)
        else (.other, .dest, add.length - dest.size)) = (n1, n2, diff))
    {e : ℕ} (he : common dest add + diff % 256 = e) (hbuf : e < dest.buf.length)
    (h1 : e ≤ (n1.bytes add dest.buf).length)
    (h2 : common dest add ≤ (n2.bytes add dest.buf).length) :
    ∃ (out : List UInt8) (carry : UInt8), out.length = e ∧ carry.toNat ≤ 1 ∧
      leNat out + 256 ^ e * carry.toNat = leNat ((n1.bytes add dest.buf).take e) +
        leNat ((n2.bytes add dest.buf).take (common dest add)) ∧
      bn_add dest add =
        some (1, ⟨out ++ carry :: dest.buf.drop (e + 1), dest.size + carry.toNat⟩) := by
  subst he
  let r := sweeps addBoth addLonger (n1.bytes add dest.buf) (n2.bytes add dest.buf)
    (common dest add) (diff % 256)
  have hlen : r.1.length = common dest add + diff % 256 := length_sweeps h1 h2
  obtain ⟨hsum, hcarry⟩ := sweeps_add h1 h2
  have hstore : store (r.1 ++ dest.buf.drop (common dest add + diff % 256))
      (common dest add + diff % 256) r.2 =
        some (r.1 ++ r.2 :: dest.buf.drop (common dest add + diff % 256 + 1)) := by
    rw [store, if_pos (by rw [List.length_append, List.length_drop]; omega),
      List.set_append_right _ _ hlen.le, hlen, Nat.sub_self, List.drop_eq_getElem_cons hbuf,
      List.set_cons_zero]
  refine ⟨r.1, r.2, hlen, hcarry, hsum, ?_⟩
  rw [bn_add_passes hroom hplaces, passes_eq h1 h2 hbuf.le, Option.bind_some, hstore,
    Option.map_some]

theorem bn_add_eq (hroom : max dest.size add.length < dest.buf.length) :
    ∃ (out : List UInt8) (carry : UInt8), out.length = reached dest add ∧ carry.toNat ≤ 1 ∧
      leNat out + 256 ^ reached dest add * carry.toNat = reachedSum dest add ∧
      bn_add dest add = some (1, ⟨out ++ carry :: dest.buf.drop (reached dest add + 1),
        dest.size + carry.toNat⟩) := by
  have hreached := reached_le_max dest add
  have hcommon : common dest add ≤ min dest.size add.length := Nat.mod_le _ _
  have hdest : (Place.dest.bytes add dest.buf).length = dest.buf.length := rfl
  have hother : (Place.other.bytes add dest.buf).length = add.length := rfl
  by_cases hle : add.length ≤ dest.size
  · have hdiff : common dest add + (dest.size - add.length) % 256 = reached dest add := by
      rw [reached, Nat.max_eq_left hle, Nat.min_eq_right hle]
    rw [reachedSum, longerBytes, shorterBytes, if_pos hle, if_pos hle]
    exact bn_add_sum hroom (if_pos hle) hdiff (by omega) (by omega) (by omega)
  · have hlt : dest.size ≤ add.length := Nat.le_of_not_le hle
    have hdiff : common dest add + (add.length - dest.size) % 256 = reached dest add := by
      rw [reached, Nat.max_eq_right hlt, Nat.min_eq_left hlt]
    rw [reachedSum, longerBytes, shorterBytes, if_neg hle, if_neg hle]
    exact bn_add_sum hroom (if_neg hle) hdiff (by omega) (by omega) (by omega)

/-- The sum needs no more room than the number had, as its size grows by the last carry only. -/
def SumFits (dest : Number) (add : List UInt8) : Prop :=
  dest.value + leNat add < 256 ^ dest.size ∨
    (256 ∣ add.length - dest.size ∧ leNat (add.drop dest.size) = 0)

/-- What the loops go past comes to nothing, unless a carry that belongs further up is made good by
the byte that follows the number. -/
def SkipsNothing (dest : Number) (add : List UInt8) : Prop :=
  leNat (dest.buf.take (reached dest add + 1)) + leNat add =
    reachedSum dest add + reachedSum dest add / 256 ^ reached dest add *
      (256 ^ dest.size * (dest.buf[dest.size]?.getD 0).toNat)

def Addable (dest : Number) (add : List UInt8) : Prop :=
  if dest.size < add.length ∧ dest.size < 256 then SumFits dest add
  else Countable dest add ∨ SkipsNothing dest add

def AddsUp (dest : Number) (add : List UInt8) : Prop :=
  ∃ sum, bn_add dest add = some (1, sum) ∧ sum.value = dest.value + leNat add

theorem leNat_take_replaced {out buf : List UInt8} (b : UInt8) {e n : ℕ} (hout : out.length = e)
    (hn : e < n) (hbuf : e < buf.length) :
    leNat ((out ++ b :: buf.drop (e + 1)).take n) + leNat (buf.take (e + 1)) =
      leNat out + 256 ^ e * b.toNat + leNat (buf.take n) := by
  obtain ⟨k, rfl⟩ := Nat.exists_eq_add_of_le hn
  have hlow : (out ++ [b]).length = e + 1 := by rw [List.length_append, hout, List.length_singleton]
  have hrow : (out ++ b :: buf.drop (e + 1)).take (e + 1 + k) =
      (out ++ [b]) ++ (buf.drop (e + 1)).take k := by
    rw [List.append_cons, ← hlow, List.take_length_add_append]
  rw [hrow, leNat_append, leNat_take_add (k := e + 1) hbuf, hlow, leNat_append, hout,
    leNat_singleton]
  omega

theorem leNat_take_out {out buf : List UInt8} (b : UInt8) {e n : ℕ} (hout : out.length = e)
    (hn : n ≤ e) : leNat ((out ++ b :: buf).take n) = leNat out % 256 ^ n := by
  have hlen : n ≤ out.length := by omega
  have hsplit := leNat_take_add_drop out hlen
  rw [List.take_append_of_le_length hlen, ← hsplit, Nat.add_mul_mod_self_left,
    Nat.mod_eq_of_lt (leNat_take_lt out n)]

theorem leNat_take_all {out buf : List UInt8} {b : UInt8} {n : ℕ} (hout : out.length = n)
    (hb : b.toNat ≤ 1) :
    leNat ((out ++ b :: buf).take (n + b.toNat)) = leNat out + 256 ^ n * b.toNat := by
  obtain hzero | hone : b.toNat = 0 ∨ b.toNat = 1 := by omega
  · rw [hzero, Nat.add_zero, List.take_left' hout, Nat.mul_zero, Nat.add_zero]
  · have hlow : (out ++ [b]).length = n + 1 := by
      rw [List.length_append, hout, List.length_singleton]
    rw [hone, List.append_cons, List.take_left' hlow, leNat_append, hout, leNat_singleton, hone]

/-- Where a byte counts what the addend has beyond the number, or falls behind by a multiple
of 256 bytes, the sum is right up to the size of the number. -/
theorem reachedSum_of_longer {dest : Number} {add : List UInt8} (hlonger : dest.size < add.length)
    (hsmall : dest.size < 256) :
    reachedSum dest add = dest.value + leNat (add.take (reached dest add)) := by
  have hcommon : common dest add = dest.size := by
    rw [common, Nat.min_eq_left hlonger.le, Nat.mod_eq_of_lt hsmall]
  have hle : ¬ add.length ≤ dest.size := by omega
  rw [reachedSum, longerBytes, shorterBytes, if_neg hle, if_neg hle, hcommon, Nat.add_comm]
  rfl

theorem sum_of_longer {dest : Number} {add out buf : List UInt8} {carry : UInt8}
    (hlonger : dest.size < add.length) (hsmall : dest.size < 256)
    (hout : out.length = reached dest add) (hcarry : carry.toNat ≤ 1)
    (hsum : leNat out + 256 ^ reached dest add * carry.toNat = reachedSum dest add) :
    leNat ((out ++ carry :: buf).take (dest.size + carry.toNat)) = dest.value + leNat add ↔
      SumFits dest add := by
  have hreach : reached dest add = dest.size + (add.length - dest.size) % 256 := by
    rw [reached, common, Nat.min_eq_left hlonger.le, Nat.max_eq_right hlonger.le,
      Nat.mod_eq_of_lt hsmall]
  have hsplit := leNat_take_add_drop add (k := reached dest add) (by omega)
  have hpow : 256 ^ dest.size ≤ 256 ^ reached dest add :=
    Nat.pow_le_pow_right (by decide) (by omega)
  rw [reachedSum_of_longer hlonger hsmall] at hsum
  obtain hzero | hone : carry.toNat = 0 ∨ carry.toNat = 1 := by omega
  · have hlow : leNat ((out ++ carry :: buf).take dest.size) = leNat out % 256 ^ dest.size :=
      leNat_take_out carry hout (by omega)
    have hpos : 0 < 256 ^ dest.size := Nat.pow_pos (by decide)
    rw [hzero, Nat.mul_zero, Nat.add_zero] at hsum
    rw [hzero, Nat.add_zero, hlow]
    constructor
    · intro heq
      exact Or.inl (heq ▸ Nat.mod_lt _ hpos)
    · intro hfits
      have hdrop : leNat (add.drop (reached dest add)) = 0 := by
        obtain hlt | ⟨hdvd, hrest⟩ := hfits
        · by_contra hne
          have hmul := Nat.le_mul_of_pos_right (256 ^ reached dest add) (Nat.pos_of_ne_zero hne)
          omega
        · rwa [hreach, Nat.mod_eq_zero_of_dvd hdvd]
      have hlt : leNat out < 256 ^ dest.size := by
        obtain hlt | ⟨hdvd, -⟩ := hfits
        · rw [hdrop, Nat.mul_zero] at hsplit
          omega
        · have hend : out.length = dest.size := by
            rw [hout, hreach, Nat.mod_eq_zero_of_dvd hdvd, Nat.add_zero]
          exact hend ▸ leNat_lt out
      rw [hdrop, Nat.mul_zero, Nat.add_zero] at hsplit
      rw [Nat.mod_eq_of_lt hlt, hsum, hsplit]
  · have hlarge : ¬ dest.value + leNat add < 256 ^ dest.size := by
      rw [hone, Nat.mul_one] at hsum
      omega
    rw [SumFits, or_iff_right hlarge]
    obtain hend | hpast := Nat.eq_zero_or_pos ((add.length - dest.size) % 256)
    · have hreach' : reached dest add = dest.size := by omega
      rw [hreach'] at hout hsum hsplit
      rw [leNat_take_all hout hcarry, hsum]
      have hpos : 0 < 256 ^ dest.size := Nat.pow_pos (by decide)
      constructor
      · intro heq
        have hmul : 256 ^ dest.size * leNat (add.drop dest.size) = 0 := by omega
        exact ⟨Nat.dvd_of_mod_eq_zero hend, (Nat.mul_eq_zero.mp hmul).resolve_left hpos.ne'⟩
      · rintro ⟨-, hrest⟩
        rw [hrest, Nat.mul_zero, Nat.add_zero] at hsplit
        rw [hsplit]
    · have hlow : leNat ((out ++ carry :: buf).take (dest.size + 1)) < 256 ^ (dest.size + 1) :=
        leNat_take_lt _ _
      have hpow' : 256 ^ (dest.size + 1) ≤ 256 ^ reached dest add :=
        Nat.pow_le_pow_right (by decide) (by omega)
      rw [hone, Nat.mul_one] at hsum
      rw [hone]
      constructor
      · omega
      · rintro ⟨hdvd, -⟩
        have hmod := Nat.mod_eq_zero_of_dvd hdvd
        omega

theorem sum_of_countable {dest : Number} {add out buf : List UInt8} {carry : UInt8}
    (hle : add.length ≤ dest.size) (hcount : Countable dest add)
    (hout : out.length = reached dest add) (hcarry : carry.toNat ≤ 1)
    (hsum : leNat out + 256 ^ reached dest add * carry.toNat = reachedSum dest add) :
    leNat ((out ++ carry :: buf).take (dest.size + carry.toNat)) = dest.value + leNat add := by
  have hcommon : common dest add = add.length := hcount.common_eq.trans (Nat.min_eq_right hle)
  have hreach : reached dest add = dest.size := hcount.reached_eq.trans (Nat.max_eq_left hle)
  have hall : reachedSum dest add = dest.value + leNat add := by
    rw [reachedSum, longerBytes, shorterBytes, if_pos hle, if_pos hle, hreach, hcommon,
      List.take_length]
    rfl
  rw [hreach] at hout hsum
  rw [leNat_take_all hout hcarry, hsum, hall]

theorem sum_of_uncountable {dest : Number} {add out : List UInt8} {carry : UInt8}
    (hin : reached dest add < dest.size) (hroom : dest.size < dest.buf.length)
    (hout : out.length = reached dest add) (hcarry : carry.toNat ≤ 1)
    (hsum : leNat out + 256 ^ reached dest add * carry.toNat = reachedSum dest add) :
    leNat ((out ++ carry :: dest.buf.drop (reached dest add + 1)).take
        (dest.size + carry.toNat)) = dest.value + leNat add ↔ SkipsNothing dest add := by
  have hreplaced := leNat_take_replaced (n := dest.size + carry.toNat) carry hout (by omega)
    (show reached dest add < dest.buf.length by omega)
  have hlt : leNat out < 256 ^ reached dest add := hout ▸ leNat_lt out
  have hcarried : reachedSum dest add / 256 ^ reached dest add = carry.toNat := by
    rw [← hsum, Nat.add_mul_div_left _ _ (Nat.pow_pos (by decide)), Nat.div_eq_of_lt hlt,
      Nat.zero_add]
  have hgrown : leNat (dest.buf.take (dest.size + carry.toNat)) = dest.value +
      carry.toNat * (256 ^ dest.size * (dest.buf[dest.size]?.getD 0).toNat) := by
    rw [List.getElem?_eq_getElem hroom, Option.getD_some]
    obtain hzero | hone : carry.toNat = 0 ∨ carry.toNat = 1 := by omega
    · rw [hzero, Nat.zero_mul]
      rfl
    · rw [hone, leNat_take_succ hroom, Nat.one_mul]
      rfl
  rw [SkipsNothing, hcarried]
  omega

/-- Adding is right exactly for numbers whose lengths a byte can count, as long as the addend is
not the longer one, or for the others by chance. -/
theorem adds_up_iff (dest : Number) (add : List UInt8)
    (hroom : max dest.size add.length < dest.buf.length) :
    AddsUp dest add ↔ Addable dest add := by
  obtain ⟨out, carry, hout, hcarry, hsum, hadd⟩ := bn_add_eq hroom
  have hvalue : AddsUp dest add ↔
      leNat ((out ++ carry :: dest.buf.drop (reached dest add + 1)).take
        (dest.size + carry.toNat)) = dest.value + leNat add := by
    simp only [AddsUp, hadd, Option.some.injEq, Prod.mk.injEq, true_and, exists_eq_left',
      Number.value]
  rw [hvalue, Addable]
  split
  · next hlonger => exact sum_of_longer hlonger.1 hlonger.2 hout hcarry hsum
  · next hother =>
      by_cases hcount : Countable dest add
      · have hle : add.length ≤ dest.size := by
          have hmin := hcount.1
          omega
        exact iff_of_true (sum_of_countable hle hcount hout hcarry hsum) (Or.inl hcount)
      · have hin : reached dest add < dest.size := by
          simp only [Countable] at hcount
          simp only [reached, common]
          omega
        rw [or_iff_right hcount]
        exact sum_of_uncountable hin (by omega) hout hcarry hsum

/-- A number of one byte and an addend of two: the second byte is outside of the reported size. -/
theorem not_adds_up : ¬ ∀ (dest : Number) (add : List UInt8),
    max dest.size add.length < dest.buf.length → AddsUp dest add := by
  intro hall
  obtain ⟨sum, hadd, hvalue⟩ := hall ⟨[1, 0, 0], 1⟩ [0, 1] (by decide)
  have hcode : bn_add ⟨[1, 0, 0], 1⟩ [0, 1] = some (1, ⟨[1, 1, 0], 1⟩) := by decide
  obtain rfl : sum = ⟨[1, 1, 0], 1⟩ := by simpa using (hcode.symm.trans hadd).symm
  exact absurd hvalue (by decide)

theorem adds_up_with_carry : AddsUp ⟨[255, 255, 0], 2⟩ [1] := by
  have hcount : Countable ⟨[255, 255, 0], 2⟩ [1] := ⟨by decide, by decide⟩
  apply (adds_up_iff ⟨[255, 255, 0], 2⟩ [1] (by decide)).mpr
  exact (if_neg (by decide)).mpr (Or.inl hcount)

end Reached

end Libobject.BigNumber
