import Libobject.Lib.Decimal
import Mathlib.Data.Nat.Digits.Lemmas

/-!
# Pieces of a text and hexadecimal numbers

A text is cut at separators, and its pieces are read as numbers: decimal ones as `atoi` does, and
hexadecimal ones in words of 64 bits.
-/

namespace Libobject.StringUtils

open Scan

/-! ## Pieces -/

variable {sep : UInt8 → Bool}

/-- The pieces between separators, with the piece so far. There are no empty pieces. -/
def cutFrom (sep : UInt8 → Bool) (piece : Text) : Text → List Text
  | [] => if piece = [] then [] else [piece]
  | c :: s =>
    if sep c then
      if piece = [] then cutFrom sep [] s else piece :: cutFrom sep [] s
    else cutFrom sep (piece ++ [c]) s

def cut (sep : UInt8 → Bool) (s : Text) : List Text := cutFrom sep [] s

theorem cutFrom_append {s : Text} (hs : ∀ c ∈ s, sep c = false) (piece t : Text) :
    cutFrom sep piece (s ++ t) = cutFrom sep (piece ++ s) t := by
  induction s generalizing piece with
  | nil => rw [List.nil_append, List.append_nil]
  | cons c s ih =>
    rw [List.forall_mem_cons] at hs
    rw [List.cons_append, cutFrom, if_neg (Bool.eq_false_iff.mp hs.1), ih hs.2,
      List.append_assoc, List.singleton_append]

theorem cutFrom_sep {piece : Text} (hne : piece ≠ []) {c : UInt8} (hc : sep c = true)
    (s : Text) : cutFrom sep piece (c :: s) = piece :: cut sep s := by
  rw [cutFrom, if_pos hc, if_neg hne, cut]

theorem cut_append {s : Text} (hne : s ≠ []) (hs : ∀ c ∈ s, sep c = false) {c : UInt8}
    (hc : sep c = true) (t : Text) : cut sep (s ++ c :: t) = s :: cut sep t := by
  rw [cut, cutFrom_append hs, List.nil_append, cutFrom_sep hne hc]

theorem mem_cutFrom {piece s p : Text} (hpiece : ∀ c ∈ piece, sep c = false)
    (hp : p ∈ cutFrom sep piece s) : ∀ c ∈ p, sep c = false := by
  induction s generalizing piece with
  | nil =>
    rw [cutFrom] at hp
    split at hp
    · cases hp
    · exact List.mem_singleton.mp hp ▸ hpiece
  | cons c s ih =>
    have hnil : ∀ c ∈ ([] : Text), sep c = false := fun _ h ↦ absurd h List.not_mem_nil
    rw [cutFrom] at hp
    split at hp
    · split at hp
      · exact ih hnil hp
      · rcases List.mem_cons.mp hp with rfl | hp
        · exact hpiece
        · exact ih hnil hp
    · next hc =>
      refine ih (fun d hd ↦ ?_) hp
      rcases List.mem_append.mp hd with hd | hd
      · exact hpiece d hd
      · exact List.mem_singleton.mp hd ▸ Bool.eq_false_iff.mpr hc

/-! ## Numbers -/

def isHex (c : UInt8) : Bool :=
  isDigit c || (97 ≤ c && c ≤ 102) || (65 ≤ c && c ≤ 70)

def hexDigit (c : UInt8) : ℕ :=
  if 97 ≤ c then c.toNat - 87 else if 65 ≤ c then c.toNat - 55 else c.toNat - 48

def hexValue (digits : Text) : ℕ := digits.foldl (fun n c ↦ 16 * n + hexDigit c) 0

/-- The digits from the last one on, up to an `x`, in words of 64 bits. -/
def hex_digits : Text → ℕ → BitVec 64 → BitVec 64
  | [], _, t => t
  | c :: s, count, t =>
    let d : ℤ :=
      if 97 ≤ c ∧ c ≤ 102 then c.toNat - 97 + 10
      else if 65 ≤ c ∧ c ≤ 70 then c.toNat - 65 + 10
      else c.toNat - 48
    if c = 120 ∨ c = 88 then t
    else hex_digits s (count + 1) (t + 16 ^ count * BitVec.ofInt 64 d)

def str_hex_to_integer (str : Text) : BitVec 64 := hex_digits str.reverse 0 0

theorem isHex_of_isDigit {c : UInt8} (h : isDigit c = true) : isHex c = true := by
  rw [isHex, h]
  rfl

theorem mem_showInt {z : ℤ} {c : UInt8} (h : c ∈ showInt z) : isDigit c = true ∨ c = 45 := by
  rw [showInt] at h
  split at h
  · exact (List.mem_cons.mp h).symm.imp_left (isDigit_showNat _ c)
  · exact .inl (isDigit_showNat _ c h)

theorem isHex_cases {c : UInt8} (h : isHex c = true) :
    ¬ (c = 120 ∨ c = 88) ∧ (if 97 ≤ c ∧ c ≤ 102 then (c.toNat : ℤ) - 97 + 10
      else if 65 ≤ c ∧ c ≤ 70 then (c.toNat : ℤ) - 65 + 10
      else c.toNat - 48) = hexDigit c := by
  constructor
  · rintro (rfl | rfl) <;> cases h
  · rw [isHex, isDigit] at h
    simp only [Bool.or_eq_true, Bool.and_eq_true, decide_eq_true_eq, UInt8.le_iff_toNat_le] at h
    rw [hexDigit]
    simp only [UInt8.le_iff_toNat_le]
    have h48 : (48 : UInt8).toNat = 48 := rfl
    have h57 : (57 : UInt8).toNat = 57 := rfl
    have h65 : (65 : UInt8).toNat = 65 := rfl
    have h70 : (70 : UInt8).toNat = 70 := rfl
    have h97 : (97 : UInt8).toNat = 97 := rfl
    have h102 : (102 : UInt8).toNat = 102 := rfl
    rw [h48, h57, h65, h70, h97, h102] at h
    rw [h97, h102, h65, h70]
    split_ifs <;> omega

theorem hex_digits_reverse (ds : Text) (hds : ∀ c ∈ ds, isHex c = true) (rest : Text) (count : ℕ)
    (t : BitVec 64) :
    hex_digits (ds.reverse ++ 120 :: rest) count t =
      t + 16 ^ count * BitVec.ofNat 64 (hexValue ds) := by
  induction ds using List.reverseRecOn generalizing count t with
  | nil => exact (BitVec.add_zero t).symm.trans (congrArg _ (BitVec.mul_zero).symm)
  | append_singleton ds c ih =>
    obtain ⟨hx, hd⟩ := isHex_cases (hds c (List.mem_append_right _ (List.mem_singleton_self c)))
    have hvalue : hexValue (ds ++ [c]) = 16 * hexValue ds + hexDigit c := by
      rw [hexValue, List.foldl_append]
      rfl
    rw [List.reverse_append, List.reverse_singleton, List.singleton_append, List.cons_append,
      hex_digits, hd, if_neg hx, ih fun d hd ↦ hds d (List.mem_append_left _ hd), hvalue,
      BitVec.ofNat_add, BitVec.ofNat_mul, BitVec.pow_succ, BitVec.mul_add, BitVec.mul_assoc,
      BitVec.add_assoc, BitVec.add_comm (16 ^ count * BitVec.ofInt 64 _)]
    rfl

theorem str_hex_to_integer_append (s : Text) {ds : Text} (hds : ∀ c ∈ ds, isHex c = true) :
    str_hex_to_integer (s ++ 120 :: ds) = BitVec.ofNat 64 (hexValue ds) := by
  rw [str_hex_to_integer, List.reverse_append, List.reverse_cons, List.append_assoc,
    List.singleton_append, hex_digits_reverse ds hds]
  exact (BitVec.zero_add _).trans (BitVec.one_mul _)

theorem str_hex_to_integer_eq (ds : Text) (hds : ∀ c ∈ ds, isHex c = true) :
    str_hex_to_integer (48 :: 120 :: ds) = BitVec.ofNat 64 (hexValue ds) :=
  str_hex_to_integer_append [48] hds

theorem atoi_showInt {z : ℤ} (h : -2 ^ 63 ≤ z) :
    atoi (showInt z) = (BitVec.ofInt 32 (min z (2 ^ 63 - 1))).toInt := by
  have htake (n : ℕ) : (showNat n).takeWhile isDigit = showNat n :=
    List.takeWhile_eq_self_iff.mpr fun c hc ↦ isDigit_showNat n c hc
  rw [showInt]
  split
  · next hneg =>
    have hskip : scanSign (skipSpace (45 :: showNat z.natAbs)) = (true, showNat z.natAbs) := rfl
    rw [atoi, hskip]
    simp only [htake, decimal_showNat, if_true]
    congr 2
    omega
  · next hnonneg =>
    have hskip := @scanSign_digits _ [] (showNat_ne_nil z.natAbs) (isDigit_showNat z.natAbs)
    rw [List.append_nil] at hskip
    rw [atoi, hskip]
    simp only [htake, decimal_showNat, Bool.false_eq_true, if_false]
    congr 2
    omega


theorem atoi_showInt_int {z : ℤ} (hlo : -2 ^ 31 ≤ z) (hhi : z < 2 ^ 31) : atoi (showInt z) = z := by
  rw [atoi_showInt (by omega), BitVec.toInt_ofInt, min_eq_left (by omega)]
  exact Int.bmod_eq_of_le (by omega) (by omega)

/-- The letter of a hexadecimal digit. -/
def hexLetter (d : ℕ) : UInt8 := if d < 10 then UInt8.ofNat (48 + d) else UInt8.ofNat (87 + d)

def showHex (n : ℕ) : Text := (Nat.digits 16 n).reverse.map hexLetter

theorem hexLetter_spec {d : ℕ} (hd : d < 16) :
    isHex (hexLetter d) = true ∧ hexDigit (hexLetter d) = d := by
  interval_cases d <;> decide

theorem isHex_showHex (n : ℕ) : ∀ c ∈ showHex n, isHex c = true := by
  intro c hc
  obtain ⟨d, hd, rfl⟩ := List.mem_map.mp hc
  exact (hexLetter_spec (Nat.digits_lt_base (by decide) (List.mem_reverse.mp hd))).1

theorem hexValue_showHex (n : ℕ) : hexValue (showHex n) = n := by
  have hdigits : ∀ d ∈ Nat.digits 16 n, hexDigit (hexLetter d) = d :=
    fun d hd ↦ (hexLetter_spec (Nat.digits_lt_base (by decide) hd)).2
  conv_rhs => rw [← Nat.ofDigits_digits 16 n]
  rw [hexValue, showHex, List.map_reverse, List.foldl_reverse]
  generalize Nat.digits 16 n = ds at hdigits
  induction ds with
  | nil => rfl
  | cons d ds ih =>
    rw [List.forall_mem_cons] at hdigits
    rw [List.map_cons, List.foldr_cons, ih hdigits.2, hdigits.1, Nat.ofDigits_cons, add_comm]

theorem length_showHex_le {n k : ℕ} (h : n < 16 ^ k) : (showHex n).length ≤ k := by
  rw [showHex, List.length_map, List.length_reverse]
  exact (Nat.digits_length_le_iff (by decide) n).mpr h

end Libobject.StringUtils
