import Libobject.Lib.RoundCipher
import Mathlib.Data.Fin.VecNotation
import Mathlib.Data.Fintype.EquivFin
import Mathlib.Tactic.IntervalCases

/-!
# The steps of an AES round

A column of the state is a word of four bytes, the first of them lowest. The bytes are substituted
while the rows are shifted, and a column is mixed by a matrix over `GF(2^8)`, all of whose four
products are made at once on the word.
-/

namespace Libobject.Crypto.Aes

abbrev Word := BitVec 32

abbrev State := Fin 4 → Word

def aes_sbox : List (BitVec 8) := [
  0x63, 0x7c, 0x77, 0x7b, 0xf2, 0x6b, 0x6f, 0xc5, 0x30, 0x01, 0x67, 0x2b, 0xfe, 0xd7, 0xab, 0x76,
  0xca, 0x82, 0xc9, 0x7d, 0xfa, 0x59, 0x47, 0xf0, 0xad, 0xd4, 0xa2, 0xaf, 0x9c, 0xa4, 0x72, 0xc0,
  0xb7, 0xfd, 0x93, 0x26, 0x36, 0x3f, 0xf7, 0xcc, 0x34, 0xa5, 0xe5, 0xf1, 0x71, 0xd8, 0x31, 0x15,
  0x04, 0xc7, 0x23, 0xc3, 0x18, 0x96, 0x05, 0x9a, 0x07, 0x12, 0x80, 0xe2, 0xeb, 0x27, 0xb2, 0x75,
  0x09, 0x83, 0x2c, 0x1a, 0x1b, 0x6e, 0x5a, 0xa0, 0x52, 0x3b, 0xd6, 0xb3, 0x29, 0xe3, 0x2f, 0x84,
  0x53, 0xd1, 0x00, 0xed, 0x20, 0xfc, 0xb1, 0x5b, 0x6a, 0xcb, 0xbe, 0x39, 0x4a, 0x4c, 0x58, 0xcf,
  0xd0, 0xef, 0xaa, 0xfb, 0x43, 0x4d, 0x33, 0x85, 0x45, 0xf9, 0x02, 0x7f, 0x50, 0x3c, 0x9f, 0xa8,
  0x51, 0xa3, 0x40, 0x8f, 0x92, 0x9d, 0x38, 0xf5, 0xbc, 0xb6, 0xda, 0x21, 0x10, 0xff, 0xf3, 0xd2,
  0xcd, 0x0c, 0x13, 0xec, 0x5f, 0x97, 0x44, 0x17, 0xc4, 0xa7, 0x7e, 0x3d, 0x64, 0x5d, 0x19, 0x73,
  0x60, 0x81, 0x4f, 0xdc, 0x22, 0x2a, 0x90, 0x88, 0x46, 0xee, 0xb8, 0x14, 0xde, 0x5e, 0x0b, 0xdb,
  0xe0, 0x32, 0x3a, 0x0a, 0x49, 0x06, 0x24, 0x5c, 0xc2, 0xd3, 0xac, 0x62, 0x91, 0x95, 0xe4, 0x79,
  0xe7, 0xc8, 0x37, 0x6d, 0x8d, 0xd5, 0x4e, 0xa9, 0x6c, 0x56, 0xf4, 0xea, 0x65, 0x7a, 0xae, 0x08,
  0xba, 0x78, 0x25, 0x2e, 0x1c, 0xa6, 0xb4, 0xc6, 0xe8, 0xdd, 0x74, 0x1f, 0x4b, 0xbd, 0x8b, 0x8a,
  0x70, 0x3e, 0xb5, 0x66, 0x48, 0x03, 0xf6, 0x0e, 0x61, 0x35, 0x57, 0xb9, 0x86, 0xc1, 0x1d, 0x9e,
  0xe1, 0xf8, 0x98, 0x11, 0x69, 0xd9, 0x8e, 0x94, 0x9b, 0x1e, 0x87, 0xe9, 0xce, 0x55, 0x28, 0xdf,
  0x8c, 0xa1, 0x89, 0x0d, 0xbf, 0xe6, 0x42, 0x68, 0x41, 0x99, 0x2d, 0x0f, 0xb0, 0x54, 0xbb, 0x16]

def aes_inv_sbox : List (BitVec 8) := [
  0x52, 0x09, 0x6a, 0xd5, 0x30, 0x36, 0xa5, 0x38, 0xbf, 0x40, 0xa3, 0x9e, 0x81, 0xf3, 0xd7, 0xfb,
  0x7c, 0xe3, 0x39, 0x82, 0x9b, 0x2f, 0xff, 0x87, 0x34, 0x8e, 0x43, 0x44, 0xc4, 0xde, 0xe9, 0xcb,
  0x54, 0x7b, 0x94, 0x32, 0xa6, 0xc2, 0x23, 0x3d, 0xee, 0x4c, 0x95, 0x0b, 0x42, 0xfa, 0xc3, 0x4e,
  0x08, 0x2e, 0xa1, 0x66, 0x28, 0xd9, 0x24, 0xb2, 0x76, 0x5b, 0xa2, 0x49, 0x6d, 0x8b, 0xd1, 0x25,
  0x72, 0xf8, 0xf6, 0x64, 0x86, 0x68, 0x98, 0x16, 0xd4, 0xa4, 0x5c, 0xcc, 0x5d, 0x65, 0xb6, 0x92,
  0x6c, 0x70, 0x48, 0x50, 0xfd, 0xed, 0xb9, 0xda, 0x5e, 0x15, 0x46, 0x57, 0xa7, 0x8d, 0x9d, 0x84,
  0x90, 0xd8, 0xab, 0x00, 0x8c, 0xbc, 0xd3, 0x0a, 0xf7, 0xe4, 0x58, 0x05, 0xb8, 0xb3, 0x45, 0x06,
  0xd0, 0x2c, 0x1e, 0x8f, 0xca, 0x3f, 0x0f, 0x02, 0xc1, 0xaf, 0xbd, 0x03, 0x01, 0x13, 0x8a, 0x6b,
  0x3a, 0x91, 0x11, 0x41, 0x4f, 0x67, 0xdc, 0xea, 0x97, 0xf2, 0xcf, 0xce, 0xf0, 0xb4, 0xe6, 0x73,
  0x96, 0xac, 0x74, 0x22, 0xe7, 0xad, 0x35, 0x85, 0xe2, 0xf9, 0x37, 0xe8, 0x1c, 0x75, 0xdf, 0x6e,
  0x47, 0xf1, 0x1a, 0x71, 0x1d, 0x29, 0xc5, 0x89, 0x6f, 0xb7, 0x62, 0x0e, 0xaa, 0x18, 0xbe, 0x1b,
  0xfc, 0x56, 0x3e, 0x4b, 0xc6, 0xd2, 0x79, 0x20, 0x9a, 0xdb, 0xc0, 0xfe, 0x78, 0xcd, 0x5a, 0xf4,
  0x1f, 0xdd, 0xa8, 0x33, 0x88, 0x07, 0xc7, 0x31, 0xb1, 0x12, 0x10, 0x59, 0x27, 0x80, 0xec, 0x5f,
  0x60, 0x51, 0x7f, 0xa9, 0x19, 0xb5, 0x4a, 0x0d, 0x2d, 0xe5, 0x7a, 0x9f, 0x93, 0xc9, 0x9c, 0xef,
  0xa0, 0xe0, 0x3b, 0x4d, 0xae, 0x2a, 0xf5, 0xb0, 0xc8, 0xeb, 0xbb, 0x3c, 0x83, 0x53, 0x99, 0x61,
  0x17, 0x2b, 0x04, 0x7e, 0xba, 0x77, 0xd6, 0x26, 0xe1, 0x69, 0x14, 0x63, 0x55, 0x21, 0x0c, 0x7d]

/-- The entry of a table for the lowest byte of `w`. -/
def lookup (table : List (BitVec 8)) (w : Word) : Word :=
  (table.getD (w &&& 0xff#32).toNat 0).setWidth 32

def mul_by_x (w : Word) : Word :=
  let x := w &&& 0x7f7f7f7f#32
  let y := w &&& 0x80808080#32
  (x <<< 1) ^^^ (y >>> 7) * 0x1b#32

def mul_by_x2 (w : Word) : Word :=
  let x := w &&& 0x3f3f3f3f#32
  let y := w &&& 0x80808080#32
  let z := w &&& 0x40404040#32
  (x <<< 2) ^^^ (y >>> 7) * 0x36#32 ^^^ (z >>> 6) * 0x1b#32

def ror32 (word : Word) (shift : ℕ) : Word := word >>> shift ||| word <<< (32 - shift)

def mix_columns (x : Word) : Word :=
  let y := mul_by_x x ^^^ ror32 x 16
  y ^^^ ror32 (x ^^^ y) 8

def inv_mix_columns (x : Word) : Word :=
  let y := mul_by_x2 x
  mix_columns (x ^^^ y ^^^ ror32 y 16)

def subshift (st : State) (pos : Fin 4) : Word :=
  lookup aes_sbox (st pos) ^^^ lookup aes_sbox (st (pos + 1) >>> 8) <<< 8 ^^^
    lookup aes_sbox (st (pos + 2) >>> 16) <<< 16 ^^^ lookup aes_sbox (st (pos + 3) >>> 24) <<< 24

def inv_subshift (st : State) (pos : Fin 4) : Word :=
  lookup aes_inv_sbox (st pos) ^^^ lookup aes_inv_sbox (st (pos + 3) >>> 8) <<< 8 ^^^
    lookup aes_inv_sbox (st (pos + 2) >>> 16) <<< 16 ^^^
      lookup aes_inv_sbox (st (pos + 1) >>> 24) <<< 24

def subw (w : Word) : Word :=
  lookup aes_sbox w ^^^ lookup aes_sbox (w >>> 8) <<< 8 ^^^ lookup aes_sbox (w >>> 16) <<< 16 ^^^
    lookup aes_sbox (w >>> 24) <<< 24

section Linear

/-- Additive over `GF(2)`. -/
def Linear (f : Word → Word) : Prop := ∀ x y, f (x ^^^ y) = f x ^^^ f y

variable {f g : Word → Word}

theorem Linear.xor (hf : Linear f) (hg : Linear g) : Linear fun x ↦ f x ^^^ g x := by
  intro x y
  simp only [hf x y, hg x y]
  ac_rfl

theorem Linear.comp (hf : Linear f) (hg : Linear g) : Linear fun x ↦ f (g x) := by
  intro x y
  simp only [hg x y, hf (g x) (g y)]

theorem linear_id : Linear id := fun _ _ ↦ rfl

theorem linear_and (m : Word) : Linear (· &&& m) := by
  intro x y
  refine BitVec.eq_of_getLsbD_eq fun i _ ↦ ?_
  simp only [BitVec.getLsbD_and, BitVec.getLsbD_xor]
  cases x.getLsbD i <;> cases y.getLsbD i <;> simp

theorem linear_shiftLeft (n : ℕ) : Linear (· <<< n) := fun x y ↦ BitVec.shiftLeft_xor_distrib x y n

theorem linear_shiftRight (n : ℕ) : Linear (· >>> n) :=
  fun x y ↦ BitVec.ushiftRight_xor_distrib x y n

theorem linear_ror32 {n : ℕ} (hn : n ≤ 32) : Linear (ror32 · n) := by
  intro x y
  refine BitVec.eq_of_getLsbD_eq fun i hi ↦ ?_
  simp only [ror32, BitVec.getLsbD_or, BitVec.getLsbD_xor, BitVec.getLsbD_ushiftRight,
    BitVec.getLsbD_shiftLeft]
  -- a bit comes from the right or from the left
  by_cases hlow : i < 32 - n
  · simp [hlow]
  · rw [BitVec.getLsbD_of_ge x (n + i) (by omega), BitVec.getLsbD_of_ge y (n + i) (by omega)]
    simp [hlow, hi]

/-- One bit in each byte. -/
def lane (a b c d : Bool) : Word :=
  (bif a then 0x1#32 else 0) ||| (bif b then 0x100#32 else 0) ||| (bif c then 0x10000#32 else 0) |||
    (bif d then 0x1000000#32 else 0)

theorem getLsbD_bif (a : Bool) (k : Word) (i : ℕ) :
    (bif a then k else 0).getLsbD i = (a && k.getLsbD i) := by
  cases a with
  | false => simp
  | true => simp

theorem and_lane (w : Word) :
    w &&& 0x01010101#32 = lane (w.getLsbD 0) (w.getLsbD 8) (w.getLsbD 16) (w.getLsbD 24) := by
  refine BitVec.eq_of_getLsbD_eq fun i hi ↦ ?_
  simp only [lane, BitVec.getLsbD_or, BitVec.getLsbD_and, getLsbD_bif]
  interval_cases i <;> simp

theorem lane_mul : ∀ a b c d a' b' c' d' : Bool,
    (lane a b c d ^^^ lane a' b' c' d') * 0x1b#32 =
        lane a b c d * 0x1b#32 ^^^ lane a' b' c' d' * 0x1b#32 ∧
    (lane a b c d ^^^ lane a' b' c' d') * 0x36#32 =
        lane a b c d * 0x36#32 ^^^ lane a' b' c' d' * 0x36#32 := by
  decide

theorem linear_lane_mul_1b : Linear fun w ↦ (w &&& 0x01010101#32) * 0x1b#32 := by
  intro x y
  simp only [linear_and _ x y, and_lane x, and_lane y]
  exact (lane_mul _ _ _ _ _ _ _ _).1

theorem linear_lane_mul_36 : Linear fun w ↦ (w &&& 0x01010101#32) * 0x36#32 := by
  intro x y
  simp only [linear_and _ x y, and_lane x, and_lane y]
  exact (lane_mul _ _ _ _ _ _ _ _).2

theorem linear_mul_by_x : Linear mul_by_x := by
  have hlane (w : Word) : mul_by_x w = ((w &&& 0x7f7f7f7f#32) <<< 1) ^^^
      (((w >>> 7) &&& 0x01010101#32) * 0x1b#32) := by
    have hshift : (w &&& 0x80808080#32) >>> 7 = (w >>> 7) &&& 0x01010101#32 :=
      BitVec.ushiftRight_and_distrib w 0x80808080#32 7
    rw [mul_by_x, hshift]
  have hlin := ((linear_shiftLeft 1).comp (linear_and 0x7f7f7f7f#32)).xor
    (linear_lane_mul_1b.comp (linear_shiftRight 7))
  intro x y
  rw [hlane, hlane, hlane]
  exact hlin x y

theorem linear_mul_by_x2 : Linear mul_by_x2 := by
  have hlane (w : Word) : mul_by_x2 w = ((w &&& 0x3f3f3f3f#32) <<< 2) ^^^
      (((w >>> 7) &&& 0x01010101#32) * 0x36#32) ^^^ (((w >>> 6) &&& 0x01010101#32) * 0x1b#32) := by
    have hshift : (w &&& 0x80808080#32) >>> 7 = (w >>> 7) &&& 0x01010101#32 :=
      BitVec.ushiftRight_and_distrib w 0x80808080#32 7
    have hshift' : (w &&& 0x40404040#32) >>> 6 = (w >>> 6) &&& 0x01010101#32 :=
      BitVec.ushiftRight_and_distrib w 0x40404040#32 6
    rw [mul_by_x2, hshift, hshift']
  have hlin := (((linear_shiftLeft 2).comp (linear_and 0x3f3f3f3f#32)).xor
    (linear_lane_mul_36.comp (linear_shiftRight 7))).xor
      (linear_lane_mul_1b.comp (linear_shiftRight 6))
  intro x y
  rw [hlane, hlane, hlane]
  exact hlin x y

theorem linear_mix_columns : Linear mix_columns := by
  have hy := linear_mul_by_x.xor (linear_ror32 (show 16 ≤ 32 by decide))
  exact hy.xor ((linear_ror32 (show 8 ≤ 32 by decide)).comp (linear_id.xor hy))

theorem linear_inv_mix_columns : Linear inv_mix_columns :=
  linear_mix_columns.comp ((linear_id.xor linear_mul_by_x2).xor
    ((linear_ror32 (show 16 ≤ 32 by decide)).comp linear_mul_by_x2))

/-- The lowest `n` bits of a word, one bit added after the other. -/
def bitSum (x : Word) : ℕ → Word
  | 0 => 0
  | n + 1 => bitSum x n ^^^ (bif x.getLsbD n then BitVec.twoPow 32 n else 0)

theorem getLsbD_bitSum (x : Word) (n i : ℕ) (hn : n ≤ 32) :
    (bitSum x n).getLsbD i = (decide (i < n) && x.getLsbD i) := by
  induction n with
  | zero => simp [bitSum]
  | succ n ih =>
    rw [bitSum, BitVec.getLsbD_xor, ih (Nat.le_of_succ_le hn), getLsbD_bif, BitVec.getLsbD_twoPow]
    by_cases hi : n = i
    · subst hi
      simp [Nat.lt_of_succ_le hn]
    · have hlt : decide (i < n + 1) = decide (i < n) := decide_eq_decide.mpr (by omega)
      rw [hlt]
      simp [hi]

theorem Linear.eq_self (hf : Linear f)
    (hbits : ∀ i < 32, f (BitVec.twoPow 32 i) = BitVec.twoPow 32 i)
    (x : Word) : f x = x := by
  have hzero : f 0 = 0 := by
    have h := hf 0 0
    rwa [BitVec.xor_self, BitVec.xor_self] at h
  have hsum (n : ℕ) (hn : n ≤ 32) : f (bitSum x n) = bitSum x n := by
    induction n with
    | zero => exact hzero
    | succ n ih =>
      rw [bitSum, hf, ih (Nat.le_of_succ_le hn)]
      cases x.getLsbD n with
      | false => rw [cond_false, hzero]
      | true => rw [cond_true, hbits n hn]
  have hx : bitSum x 32 = x := by
    refine BitVec.eq_of_getLsbD_eq fun i hi ↦ ?_
    rw [getLsbD_bitSum x 32 i le_rfl, decide_eq_true hi, Bool.true_and]
  rw [← hx]
  exact hsum 32 le_rfl

theorem inv_mix_columns_mix_columns (x : Word) : inv_mix_columns (mix_columns x) = x :=
  (linear_inv_mix_columns.comp linear_mix_columns).eq_self (by decide) x

theorem mix_columns_inv_mix_columns (x : Word) : mix_columns (inv_mix_columns x) = x :=
  (linear_mix_columns.comp linear_inv_mix_columns).eq_self (by decide) x

end Linear

section Bytes

/-- Byte `i` of a word. -/
def byte (w : Word) (i : Fin 4) : BitVec 8 := w.extractLsb' (8 * i) 8

theorem ext_byte {v w : Word} (h : ∀ i, byte v i = byte w i) : v = w := by
  refine BitVec.eq_of_getLsbD_eq fun i hi ↦ ?_
  have hbit := congrArg (BitVec.getLsbD · (i % 8)) (h ⟨i / 8, by omega⟩)
  simp only [byte, BitVec.getLsbD_extractLsb', Nat.div_add_mod] at hbit
  simpa [Nat.mod_lt] using hbit

theorem byte_join (a b c d : BitVec 8) (i : Fin 4) :
    byte (a.setWidth 32 ^^^ b.setWidth 32 <<< 8 ^^^ c.setWidth 32 <<< 16 ^^^
      d.setWidth 32 <<< 24) i = ![a, b, c, d] i := by
  refine BitVec.eq_of_getLsbD_eq fun j hj ↦ ?_
  simp only [byte, BitVec.getLsbD_extractLsb', BitVec.getLsbD_xor, BitVec.getLsbD_shiftLeft,
    BitVec.getLsbD_setWidth, hj, decide_true, Bool.true_and]
  -- the bytes above and below do not reach into byte `i`
  have hzero (k : ℕ) (hk : 8 ≤ k) : a.getLsbD k = false := BitVec.getLsbD_of_ge a k hk
  match i with
  | 0 => simp [show j < 32 by omega, show j < 16 by omega, show j < 24 by omega, hj]
  | 1 => simp [show 8 + j < 32 by omega, show 8 + j < 16 by omega, show 8 + j < 24 by omega,
      show j < 32 by omega]
  | 2 => simp [show 16 + j < 32 by omega, show 16 + j < 24 by omega, hzero (16 + j) (by omega),
      show 8 ≤ 16 + j - 8 by omega, show j < 32 by omega]
  | 3 => simp [show 24 + j < 32 by omega, hzero (24 + j) (by omega),
      show 8 ≤ 24 + j - 8 by omega, show 8 ≤ 24 + j - 16 by omega, show j < 32 by omega]

/-- The entry of a table for a byte. -/
def entry (table : List (BitVec 8)) (b : BitVec 8) : BitVec 8 := table.getD b.toNat 0

theorem lookup_shiftRight (table : List (BitVec 8)) (w : Word) (i : Fin 4) :
    lookup table (w >>> (8 * (i : ℕ))) = (entry table (byte w i)).setWidth 32 := by
  have hindex : (w >>> (8 * (i : ℕ)) &&& 0xff#32).toNat = (byte w i).toNat := by
    rw [BitVec.toNat_and, byte, BitVec.extractLsb'_toNat, BitVec.toNat_ushiftRight]
    exact Nat.and_two_pow_sub_one_eq_mod (w.toNat >>> (8 * (i : ℕ))) 8
  rw [lookup, entry, hindex]

theorem byte_lookup (table : List (BitVec 8)) (w : Fin 4 → Word) (i : Fin 4) :
    byte (lookup table (w 0) ^^^ lookup table (w 1 >>> 8) <<< 8 ^^^
      lookup table (w 2 >>> 16) <<< 16 ^^^ lookup table (w 3 >>> 24) <<< 24) i =
        entry table (byte (w i) i) := by
  have h0 : lookup table (w 0) = _ := lookup_shiftRight table (w 0) 0
  have h1 : lookup table (w 1 >>> 8) = _ := lookup_shiftRight table (w 1) 1
  have h2 : lookup table (w 2 >>> 16) = _ := lookup_shiftRight table (w 2) 2
  have h3 : lookup table (w 3 >>> 24) = _ := lookup_shiftRight table (w 3) 3
  rw [h0, h1, h2, h3, byte_join]
  match i with
  | 0 => rfl
  | 1 => rfl
  | 2 => rfl
  | 3 => rfl

theorem byte_subshift (st : State) (pos i : Fin 4) :
    byte (subshift st pos) i = entry aes_sbox (byte (st (pos + i)) i) := by
  refine (byte_lookup aes_sbox ![st pos, st (pos + 1), st (pos + 2), st (pos + 3)] i).trans ?_
  match i with
  | 0 =>
    have hpos : pos + 0 = pos := Fin.add_zero pos
    rw [hpos]
    rfl
  | 1 => rfl
  | 2 => rfl
  | 3 => rfl

theorem byte_inv_subshift (st : State) (pos i : Fin 4) :
    byte (inv_subshift st pos) i = entry aes_inv_sbox (byte (st (pos - i)) i) := by
  refine (byte_lookup aes_inv_sbox ![st pos, st (pos + 3), st (pos + 2), st (pos + 1)] i).trans ?_
  match i with
  | 0 =>
    have hpos : pos - 0 = pos := (show ∀ p : Fin 4, p - 0 = p by decide) pos
    rw [hpos]
    rfl
  | 1 =>
    have hpos : pos - 1 = pos + 3 := (show ∀ p : Fin 4, p - 1 = p + 3 by decide) pos
    rw [hpos]
    rfl
  | 2 =>
    have hpos : pos - 2 = pos + 2 := (show ∀ p : Fin 4, p - 2 = p + 2 by decide) pos
    rw [hpos]
    rfl
  | 3 =>
    have hpos : pos - 3 = pos + 1 := (show ∀ p : Fin 4, p - 3 = p + 1 by decide) pos
    rw [hpos]
    rfl

theorem shift_back : ∀ pos i : Fin 4, pos - i + i = pos ∧ pos + i - i = pos := by decide

/-- A table as one number, in which an entry is found at once. -/
def packed : List (BitVec 8) → ℕ
  | [] => 0
  | b :: table => b.toNat + 256 * packed table

theorem packed_getD (table : List (BitVec 8)) (i : ℕ) :
    packed table / 256 ^ i % 256 = (table.getD i 0).toNat := by
  induction table generalizing i with
  | nil => simp [packed]
  | cons b table ih =>
    have hb : b.toNat < 256 := b.isLt
    cases i with
    | zero =>
      rw [packed, pow_zero, Nat.div_one, Nat.add_mul_mod_self_left, Nat.mod_eq_of_lt hb]
      rfl
    | succ i =>
      rw [packed, pow_succ', ← Nat.div_div_eq_div_mul, Nat.add_mul_div_left _ _ (by decide),
        Nat.div_eq_of_lt hb, Nat.zero_add, ih]
      rfl

theorem entry_sbox (i : Fin 256) :
    entry aes_inv_sbox (entry aes_sbox (BitVec.ofFin i)) = BitVec.ofFin i := by
  have htables : ∀ i < 256,
      packed aes_inv_sbox / 256 ^ (packed aes_sbox / 256 ^ i % 256) % 256 = i := by
    decide +kernel
  have hentry := htables i i.isLt
  rw [packed_getD, packed_getD] at hentry
  exact BitVec.eq_of_toNat_eq hentry

theorem entry_inverse (i : Fin 256) :
    entry aes_inv_sbox (entry aes_sbox (BitVec.ofFin i)) = BitVec.ofFin i ∧
      entry aes_sbox (entry aes_inv_sbox (BitVec.ofFin i)) = BitVec.ofFin i := by
  refine ⟨entry_sbox i, ?_⟩
  -- the table is one-to-one, so that every byte is an entry of it
  have hleft : @Function.LeftInverse (Fin 256) (Fin 256)
      (fun i ↦ (entry aes_inv_sbox (.ofFin i)).toFin) (fun i ↦ (entry aes_sbox (.ofFin i)).toFin) :=
    fun i ↦ congrArg BitVec.toFin (entry_sbox i)
  have hright := hleft.rightInverse_of_surjective (Finite.surjective_of_injective hleft.injective)
  exact congrArg BitVec.ofFin (hright i)

theorem inv_subshift_subshift (st : State) : inv_subshift (subshift st) = st := by
  refine funext fun pos ↦ ext_byte fun i ↦ ?_
  rw [byte_inv_subshift, byte_subshift, (shift_back pos i).1]
  exact (entry_inverse (byte (st pos) i).toFin).1

theorem subshift_inv_subshift (st : State) : subshift (inv_subshift st) = st := by
  refine funext fun pos ↦ ext_byte fun i ↦ ?_
  rw [byte_subshift, byte_inv_subshift, (shift_back pos i).2]
  exact (entry_inverse (byte (st pos) i).toFin).2

end Bytes

/-- The rounds on the four columns. -/
def network : RoundCipher State where
  add s k := fun p ↦ s p ^^^ k p
  sub := subshift
  invSub := inv_subshift
  mix s := fun p ↦ mix_columns (s p)
  invMix s := fun p ↦ inv_mix_columns (s p)
  add_add s k := by
    funext p
    rw [BitVec.xor_assoc, BitVec.xor_self, BitVec.xor_zero]
  invMix_add s k := funext fun p ↦ linear_inv_mix_columns (s p) (k p)
  invSub_sub := inv_subshift_subshift
  sub_invSub := subshift_inv_subshift
  invMix_mix s := funext fun p ↦ inv_mix_columns_mix_columns (s p)
  mix_invMix s := funext fun p ↦ mix_columns_inv_mix_columns (s p)

end Libobject.Crypto.Aes
