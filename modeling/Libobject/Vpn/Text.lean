import Libobject.Lib.Decimal
import Libobject.Vpn.Net

/-!
# Addresses in control frames

An address is written with its prefix length behind a slash, and a network in the same form. What is
written is read back, and is short enough for the buffers it is written to and scanned into.
-/

namespace Libobject.Vpn

open Scan

/-! ## Bytes of an address -/

theorem getElem_byte_fin : ∀ i : Fin 32, (0xFF : BitVec 32)[(i : ℕ)] = decide ((i : ℕ) < 8) := by
  decide

theorem getElem_byte {i : ℕ} (hi : i < 32) : (0xFF : BitVec 32)[i] = decide (i < 8) :=
  getElem_byte_fin ⟨i, hi⟩

theorem or_bytes (ip : BitVec 32) :
    ((ip >>> 24) &&& 0xFF) <<< 24 ||| ((ip >>> 16) &&& 0xFF) <<< 16 |||
      ((ip >>> 8) &&& 0xFF) <<< 8 ||| (ip &&& 0xFF) = ip := by
  ext i hi
  simp only [BitVec.getElem_or, BitVec.getElem_shiftLeft, BitVec.getElem_and,
    BitVec.getElem_ushiftRight, getElem_byte]
  -- the bit comes from the one byte that it lies in
  rcases lt_or_ge i 8 with h8 | h8
  · simp [h8]
    grind
  rcases lt_or_ge i 16 with h16 | h16
  · simp [h8, h16]
    grind
  rcases lt_or_ge i 24 with h24 | h24
  · simp [h8, h16, h24]
    grind
  · simp [h8, h16, h24]
    grind

theorem byte_le (x : BitVec 32) : (x &&& 0xFF).toNat ≤ 255 := by
  rw [BitVec.toNat_and]
  exact Nat.and_le_right

theorem quadWord_bytes (ip : BitVec 32) :
    quadWord ((ip >>> 24) &&& 0xFF, (ip >>> 16) &&& 0xFF, (ip >>> 8) &&& 0xFF, ip &&& 0xFF) =
      some ip := by
  rw [quadWord, if_pos ⟨byte_le _, byte_le _, byte_le _, byte_le _⟩, or_bytes]

/-! ## Scanning -/

theorem scanUnsigned_byte (x : BitVec 32) {rest : Text} (hrest : Stops rest) :
    scanUnsigned (showNat (x &&& 0xFF).toNat ++ rest) = some (x &&& 0xFF, rest) := by
  rw [scanUnsigned_showNat (x &&& 0xFF).isLt hrest, BitVec.ofNat_toNat, BitVec.setWidth_eq]

theorem scanQuad_showQuad (ip : BitVec 32) (len : ℕ) :
    scanQuad (showQuad ip len) = some (((ip >>> 24) &&& 0xFF, (ip >>> 16) &&& 0xFF,
      (ip >>> 8) &&& 0xFF, ip &&& 0xFF), 47 :: showNat len) := by
  have hdot (rest : Text) : Stops (46 :: rest) := stops_cons rfl rest
  have hslash (rest : Text) : Stops (47 :: rest) := stops_cons rfl rest
  rw [scanQuad, showQuad]
  simp only [List.append_assoc, List.cons_append, scanUnsigned_byte _ (hdot _),
    scanUnsigned_byte _ (hslash _), scanByte, Option.bind_eq_bind, Option.bind_some, if_pos]
  rfl

theorem ipv4Parse_showQuad (ip : BitVec 32) (len : ℕ) : ipv4Parse (showQuad ip len) = some ip := by
  rw [ipv4Parse, scanQuad_showQuad]
  exact (if_pos rfl).trans (quadWord_bytes ip)

theorem showQuad_ne_nil (ip : BitVec 32) (len : ℕ) : showQuad ip len ≠ [] := by
  intro h
  have hparse := ipv4Parse_showQuad ip len
  rw [h] at hparse
  cases hparse

theorem length_byte (x : BitVec 32) : (showNat (x &&& 0xFF).toNat).length ≤ 3 :=
  length_showNat_le (by decide) (Nat.lt_of_le_of_lt (byte_le x) (by decide))

theorem length_showQuad (ip : BitVec 32) {len : ℕ} (h : len ≤ 32) :
    (showQuad ip len).length ≤ 18 := by
  have h₁ := length_byte (ip >>> 24)
  have h₂ := length_byte (ip >>> 16)
  have h₃ := length_byte (ip >>> 8)
  have h₄ := length_byte ip
  have hlen : (showNat len).length ≤ 2 := length_showNat_le (by decide) (by omega)
  simp only [showQuad, List.length_append, List.length_cons]
  omega

theorem mem_showQuad {ip : BitVec 32} {len : ℕ} {c : UInt8} (h : c ∈ showQuad ip len) :
    isSpace c = false ∧ c ≠ 0 := by
  have hdigit (n : ℕ) (hc : c ∈ showNat n) : isSpace c = false ∧ c ≠ 0 := by
    have hdig := isDigit_showNat n c hc
    refine ⟨(isDigit_eq_true hdig).1, ?_⟩
    rintro rfl
    cases hdig
  simp only [showQuad, List.mem_append, List.mem_cons] at h
  rcases h with (((h | rfl | h) | rfl | h) | rfl | h) | rfl | h
  all_goals first | exact hdigit _ h | decide

theorem netParse_netStr (n : Net) : netParse (netStr n) = some n := by
  have hlen := length_showQuad n.net n.le_32
  have hshort : ¬ (netStr n = [] ∨ cidrMax ≤ (netStr n).length) := by
    rintro (h | h)
    · exact showQuad_ne_nil _ _ h
    · have h64 : 64 ≤ (showQuad n.net n.prefixLen).length := h
      omega
  have hscan : scanUnsigned (showNat n.prefixLen) = some (BitVec.ofNat 32 n.prefixLen, []) := by
    have hscan := scanUnsigned_showNat (n := n.prefixLen) (by have := n.le_32; omega) stops_nil
    rwa [List.append_nil] at hscan
  have hprefix : (BitVec.ofNat 32 n.prefixLen).toNat = n.prefixLen := by
    rw [BitVec.toNat_ofNat]
    exact Nat.mod_eq_of_lt (by have := n.le_32; omega)
  have hnet : netOf n.net n.prefixLen = some n := by
    rw [netOf, dif_pos ⟨⟨n.one_le, n.le_32⟩, by rw [n.masked]; exact n.ne_zero⟩]
    simp only [n.masked]
  rw [netParse, if_neg hshort, netStr, scanQuad_showQuad]
  simp only [scanByte, Option.bind_eq_bind, Option.bind_some, if_pos, hscan, quadWord_bytes,
    hprefix]
  exact hnet

theorem snprintf_of_lt {size : ℕ} {s : Text} (h : s.length < size) : snprintf size s = s :=
  List.take_of_length_le (Nat.le_sub_one_of_lt h)

theorem scanWord_append {width : ℕ} {word rest : Text} (hne : word ≠ [])
    (hlen : word.length ≤ width) (hword : ∀ c ∈ word, isSpace c = false)
    (hrest : ∀ c ∈ rest.head?, isSpace c = true) :
    scanWord width (32 :: (word ++ rest)) = some (word, rest) := by
  obtain ⟨c, word', rfl⟩ := List.exists_cons_of_ne_nil hne
  have hskip : skipSpace (32 :: (c :: word' ++ rest)) = c :: word' ++ rest := by
    have hc := hword c List.mem_cons_self
    rw [skipSpace, List.dropWhile_cons_of_pos (by decide), List.cons_append,
      List.dropWhile_cons_of_neg (by rw [hc]; exact Bool.false_ne_true)]
  have hstop : (rest.take (width - (c :: word').length)).takeWhile (fun c ↦ !isSpace c) = [] := by
    cases rest with
    | nil => rw [List.take_nil, List.takeWhile_nil]
    | cons d rest =>
      have hd : isSpace d = true := hrest d rfl
      cases width - (c :: word').length with
      | zero => rfl
      | succ n => rw [List.take_succ_cons, List.takeWhile_cons_of_neg (by rw [hd]; decide)]
  have hall : (c :: word').takeWhile (fun c ↦ !isSpace c) = c :: word' := by
    refine List.takeWhile_eq_self_iff.mpr fun d hd ↦ ?_
    rw [hword d hd]
    rfl
  have hrun : ((c :: word' ++ rest).take width).takeWhile (fun c ↦ !isSpace c) = c :: word' := by
    rw [List.take_append, List.take_of_length_le hlen]
    rw [List.takeWhile_append, hall, if_pos rfl, hstop, List.append_nil]
  rw [scanWord, hskip, hrun, if_neg hne, List.drop_left]

end Libobject.Vpn
