import Libobject.Lib.Digits
import Mathlib.Data.Int.Order.Basic

/-!
# Numbers of any length

A number lies in a buffer that may be longer than it, its lowest byte first. An operation works on
one byte of its operands after the other and carries something over from each to the next; the
result goes where the first operand was. An access outside of a buffer is undefined.
-/

namespace Libobject.BigNumber

structure Number where
  buf : List UInt8
  size : ℕ
  deriving DecidableEq

def Number.value (n : Number) : ℕ := leNat (n.buf.take n.size)

/-- The loop of `bn_cmp`, down from the `n` lowest bytes. -/
def compareBytes (n1 n2 : List UInt8) : ℕ → Option ℤ
  | 0 => some 0
  | i + 1 => do
    let a ← n1[i]?
    let b ← n2[i]?
    if a > b then some 1
    else if a < b then some (-1)
    else compareBytes n1 n2 i

/-- What `bn_cmp` stores in `*out`. -/
def bn_cmp (n1 : List UInt8) (n1_len : ℕ) (n2 : List UInt8) (n2_len : ℕ) : Option ℤ :=
  if n1_len > n2_len then some 1
  else if n1_len < n2_len then some (-1)
  else compareBytes n1 n2 n1_len

/-- What `bn_size` stores in `*len`. -/
def bn_size (dest : List UInt8) : ℕ → Option ℕ
  | 0 => some 0
  | i + 1 => do
    let b ← dest[i]?
    if b ≠ 0 then some (i + 1) else bn_size dest i

theorem compareBytes_eq {n1 n2 : List UInt8} {n : ℕ} (h1 : n ≤ n1.length) (h2 : n ≤ n2.length) :
    compareBytes n1 n2 n = some ((leNat (n1.take n) : ℤ) - leNat (n2.take n)).sign := by
  induction n with
  | zero => rfl
  | succ i ih =>
    have hlow1 := leNat_take_lt n1 i
    have hlow2 := leNat_take_lt n2 i
    rw [leNat_take_succ h1, leNat_take_succ h2, compareBytes, List.getElem?_eq_getElem h1,
      List.getElem?_eq_getElem h2]
    simp only [Option.bind_eq_bind, Option.bind_some]
    split
    · next hgt =>
        have hbyte : n2[i].toNat + 1 ≤ n1[i].toNat := UInt8.lt_iff_toNat_lt.mp hgt
        have hmul := Nat.mul_le_mul_left (256 ^ i) hbyte
        rw [Nat.mul_add, Nat.mul_one] at hmul
        rw [Int.sign_eq_one_of_pos (by omega)]
    · next hgt =>
        split
        · next hlt =>
            have hbyte : n1[i].toNat + 1 ≤ n2[i].toNat := UInt8.lt_iff_toNat_lt.mp hlt
            have hmul := Nat.mul_le_mul_left (256 ^ i) hbyte
            rw [Nat.mul_add, Nat.mul_one] at hmul
            rw [Int.sign_eq_neg_one_of_neg (by omega)]
        · next hlt =>
            have hsame : n1[i] = n2[i] := UInt8.le_antisymm (UInt8.not_lt.mp hgt)
              (UInt8.not_lt.mp hlt)
            rw [ih (by omega) (by omega), hsame]
            congr 2
            omega

theorem bn_cmp_eq {n1 n2 : List UInt8} {n : ℕ} (h1 : n ≤ n1.length) (h2 : n ≤ n2.length) :
    bn_cmp n1 n n2 n = some ((leNat (n1.take n) : ℤ) - leNat (n2.take n)).sign := by
  rw [bn_cmp, if_neg (lt_irrefl n), if_neg (lt_irrefl n), compareBytes_eq h1 h2]

theorem bn_size_eq {dest : List UInt8} {n : ℕ} (h : n ≤ dest.length) :
    bn_size dest n = some (byteLength (leNat (dest.take n))) := by
  induction n with
  | zero => simp [bn_size]
  | succ i ih =>
    have hlen : (dest.take i).length = i := List.length_take_of_le (by omega)
    rw [bn_size, List.getElem?_eq_getElem h]
    simp only [Option.bind_eq_bind, Option.bind_some]
    split
    · next hb => rw [← List.take_append_getElem h, byteLength_concat hb, hlen]
    · next hb =>
        have hzero : dest[i].toNat = 0 := by rw [not_not.mp hb, UInt8.toNat_zero]
        rw [ih (by omega), leNat_take_succ h, hzero, Nat.mul_zero, Nat.add_zero]

def store (buf : List UInt8) (i : ℕ) (b : UInt8) : Option (List UInt8) :=
  if i < buf.length then some (buf.set i b) else none

/-- Where the bytes of an operand are: in the destination or outside of it. -/
inductive Place
  | dest
  | other

def Place.read (other : List UInt8) : Place → List UInt8 → ℕ → Option UInt8
  | .dest, buf, i => buf[i]?
  | .other, _, i => other[i]?

section Columns

variable {β : Type} (read : List UInt8 → ℕ → Option β) (f : β → UInt8 → UInt8 × UInt8)

/-- A loop over `n` bytes from `i` on: from what is read there and what is carried over, the byte
to be stored there and what is carried over to the next. -/
def columns : ℕ → ℕ → List UInt8 → UInt8 → Option (List UInt8 × UInt8)
  | 0, _, buf, carry => some (buf, carry)
  | n + 1, i, buf, carry => do
    let x ← read buf i
    let buf ← store buf i (f x carry).1
    columns n (i + 1) buf (f x carry).2

/-- What such a loop makes of a row. -/
def sweep : List β → UInt8 → List UInt8 × UInt8
  | [], carry => ([], carry)
  | x :: xs, carry => ((f x carry).1 :: (sweep xs (f x carry).2).1, (sweep xs (f x carry).2).2)

@[simp] theorem length_sweep (xs : List β) (carry : UInt8) :
    (sweep f xs carry).1.length = xs.length := by
  induction xs generalizing carry with
  | nil => rfl
  | cons x xs ih => simp only [sweep, List.length_cons, ih]

/-- What is read from the place `i` on is the row `xs`, as long as nothing was stored in front of
the place that is read. -/
def Row (i : ℕ) (buf : List UInt8) (xs : List β) : Prop :=
  ∀ j (hj : j < xs.length) (buf' : List UInt8), (∀ k, i + j ≤ k → buf'[k]? = buf[k]?) →
    read buf' (i + j) = some xs[j]

variable {read f}

theorem Row.tail {i : ℕ} {buf : List UInt8} {x : β} {xs : List β} {b : UInt8}
    (h : Row read i buf (x :: xs)) : Row read (i + 1) (buf.set i b) xs := by
  intro j hj buf' hsame
  have hread := h (j + 1) (Nat.succ_lt_succ hj) buf' (by
    intro k hk
    rw [hsame k (by omega), List.getElem?_set_ne (by omega)])
  rw [List.getElem_cons_succ] at hread
  rwa [Nat.add_assoc, Nat.add_comm 1 j]

theorem columns_eq {i : ℕ} {buf : List UInt8} {xs : List β} (carry : UInt8)
    (hrow : Row read i buf xs) (hlen : i + xs.length ≤ buf.length) :
    columns read f xs.length i buf carry =
      some (buf.take i ++ ((sweep f xs carry).1 ++ buf.drop (i + xs.length)),
        (sweep f xs carry).2) := by
  induction xs generalizing i buf carry with
  | nil => simp [columns, sweep]
  | cons x xs ih =>
    rw [List.length_cons] at hlen
    have hhead : read buf i = some x := hrow 0 (Nat.succ_pos _) buf fun _ _ ↦ rfl
    have hlen' : i + 1 + xs.length ≤ (buf.set i (f x carry).1).length := by
      rw [List.length_set]
      omega
    have htake : (buf.set i (f x carry).1).take (i + 1) = buf.take i ++ [(f x carry).1] := by
      rw [List.take_succ_eq_append_getElem (by rw [List.length_set]; omega),
        List.getElem_set_self, List.take_set_of_le (le_refl i)]
    have hdrop : (buf.set i (f x carry).1).drop (i + 1 + xs.length) =
        buf.drop (i + (xs.length + 1)) := by
      rw [List.drop_set_of_lt (by omega), Nat.add_assoc, Nat.add_comm 1]
    have hstore : store buf i (f x carry).1 = some (buf.set i (f x carry).1) :=
      if_pos (by omega)
    rw [List.length_cons, columns, hhead]
    simp only [Option.bind_eq_bind, Option.bind_some, hstore]
    rw [ih (f x carry).2 hrow.tail hlen', htake, hdrop]
    simp [sweep]

end Columns

def Place.bytes (other buf : List UInt8) : Place → List UInt8
  | .dest => buf
  | .other => other

theorem row_read (other buf : List UInt8) (p : Place) {i n : ℕ}
    (h : i + n ≤ (p.bytes other buf).length) :
    Row (p.read other) i buf (((p.bytes other buf).drop i).take n) := by
  intro j hj buf' hsame
  rw [List.length_take, List.length_drop] at hj
  rw [List.getElem_take, List.getElem_drop]
  cases p with
  | dest => exact (hsame (i + j) le_rfl).trans (List.getElem?_eq_getElem _)
  | other => exact List.getElem?_eq_getElem _

/-- The bytes of both operands at a place. -/
def Place.both (other : List UInt8) (n1 n2 : Place) (buf : List UInt8) (i : ℕ) :
    Option (UInt8 × UInt8) := do
  let t1 ← n1.read other buf i
  let t2 ← n2.read other buf i
  return (t1, t2)

theorem row_both {other buf xs ys : List UInt8} {n1 n2 : Place} {i : ℕ}
    (h1 : Row (n1.read other) i buf xs) (h2 : Row (n2.read other) i buf ys) :
    Row (Place.both other n1 n2) i buf (xs.zip ys) := by
  intro j hj buf' hsame
  rw [List.length_zip] at hj
  rw [Place.both, h1 j (by omega) buf' hsame, h2 j (by omega) buf' hsame, List.getElem_zip]
  rfl

section Passes

variable (both : UInt8 × UInt8 → UInt8 → UInt8 × UInt8) (longer : UInt8 → UInt8 → UInt8 × UInt8)

/-- The loop over the `l` bytes that both numbers have, and the one over the `diff` bytes that the
first has beyond them. -/
def passes (other : List UInt8) (n1 n2 : Place) (l diff : ℕ) (buf : List UInt8) :
    Option (List UInt8 × UInt8) := do
  let (buf, carry) ← columns (Place.both other n1 n2) both l 0 buf 0
  columns (n1.read other) longer diff l buf carry

/-- What the two loops make of the bytes of two numbers. -/
def sweeps (xs ys : List UInt8) (l diff : ℕ) : List UInt8 × UInt8 :=
  let low := sweep both ((xs.take l).zip (ys.take l)) 0
  let high := sweep longer ((xs.drop l).take diff) low.2
  (low.1 ++ high.1, high.2)

variable {both longer}

theorem length_sweeps {xs ys : List UInt8} {l diff : ℕ} (hx : l + diff ≤ xs.length)
    (hy : l ≤ ys.length) : (sweeps both longer xs ys l diff).1.length = l + diff := by
  simp only [sweeps, List.length_append, length_sweep, List.length_zip, List.length_take,
    List.length_drop]
  omega

theorem passes_eq {other buf : List UInt8} {n1 n2 : Place} {l diff : ℕ}
    (h1 : l + diff ≤ (n1.bytes other buf).length) (h2 : l ≤ (n2.bytes other buf).length)
    (hbuf : l + diff ≤ buf.length) :
    passes both longer other n1 n2 l diff buf =
      some ((sweeps both longer (n1.bytes other buf) (n2.bytes other buf) l diff).1 ++
          buf.drop (l + diff),
        (sweeps both longer (n1.bytes other buf) (n2.bytes other buf) l diff).2) := by
  let pairs := ((n1.bytes other buf).take l).zip ((n2.bytes other buf).take l)
  let out := (sweep both pairs 0).1
  let buf' := out ++ buf.drop l
  have hpairs : pairs.length = l := by
    rw [List.length_zip, List.length_take, List.length_take]
    omega
  have hout : out.length = l := (length_sweep both pairs 0).trans hpairs
  have hlow : columns (Place.both other n1 n2) both l 0 buf 0 =
      some (buf', (sweep both pairs 0).2) := by
    have hboth : Row (Place.both other n1 n2) 0 buf pairs :=
      row_both (row_read other buf n1 (by omega)) (row_read other buf n2 (by omega))
    have hloop := columns_eq (f := both) 0 hboth (by omega)
    rwa [hpairs, List.take_zero, List.nil_append, Nat.zero_add] at hloop
  -- the first loop changes nothing that the second reads
  have hkept : (n1.bytes other buf').drop l = (n1.bytes other buf).drop l := by
    cases n1 with
    | dest => exact List.drop_left' hout
    | other => rfl
  have hrow : ((n1.bytes other buf).drop l).take diff = ((n1.bytes other buf').drop l).take diff :=
    congrArg (List.take diff) hkept.symm
  have hlen : (((n1.bytes other buf').drop l).take diff).length = diff := by
    rw [hkept, List.length_take, List.length_drop]
    omega
  have hbuf' : l + diff ≤ buf'.length := by
    rw [List.length_append, hout, List.length_drop]
    omega
  have hlen' : l + diff ≤ (n1.bytes other buf').length := by
    cases n1 with
    | dest => exact hbuf'
    | other => exact h1
  have hhigh := columns_eq (f := longer) (sweep both pairs 0).2 (row_read other buf' n1 hlen')
    (by omega)
  have hrest : buf'.drop (l + diff) = buf.drop (l + diff) := by
    rw [← List.drop_drop, List.drop_left' hout, List.drop_drop]
  rw [hlen, hrest, List.take_left' hout, ← hrow] at hhigh
  rw [passes, hlow]
  simp only [Option.bind_eq_bind, Option.bind_some]
  rw [hhigh, sweeps, List.append_assoc]

end Passes

section Counters

variable (dest : Number) (other : List UInt8)

/-- How far the first loop goes, as it counts in a byte. -/
def common : ℕ := min dest.size other.length % 256

/-- How far both loops go. -/
def reached : ℕ :=
  common dest other + (max dest.size other.length - min dest.size other.length) % 256

/-- A byte can count the bytes that both numbers have and those that only one has. -/
def Countable : Prop :=
  min dest.size other.length < 256 ∧ max dest.size other.length - min dest.size other.length < 256

instance decidableCountable : Decidable (Countable dest other) :=
  inferInstanceAs (Decidable (_ ∧ _))

theorem reached_le_max : reached dest other ≤ max dest.size other.length := by
  simp only [reached, common]
  omega

variable {dest other}

theorem Countable.common_eq (h : Countable dest other) :
    common dest other = min dest.size other.length := Nat.mod_eq_of_lt h.1

theorem Countable.reached_eq (h : Countable dest other) :
    reached dest other = max dest.size other.length := by
  rw [reached, h.common_eq, Nat.mod_eq_of_lt h.2]
  omega

theorem reached_lt_of_not_countable (h : ¬ Countable dest other) :
    reached dest other < max dest.size other.length := by
  simp only [Countable] at h
  simp only [reached, common]
  omega

end Counters

end Libobject.BigNumber
