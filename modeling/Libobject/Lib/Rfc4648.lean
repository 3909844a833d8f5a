import Libobject.Lib.Scan
import Mathlib.Data.Nat.Basic

/-!
# Base 64

Three bytes are four digits of six bits, the first bits first. Two bytes are three digits and one
byte is two, with missing bits as zeros, and such a group is padded to four characters.
-/

namespace Libobject.Rfc4648

def alphabet : Text :=
  Scan.ascii "ABCDEFGHIJKLMNOPQRSTUVWXYZabcdefghijklmnopqrstuvwxyz0123456789+/"

/-- The character of a digit. -/
def symbol (d : ℕ) : UInt8 := alphabet.getD d 0

/-- The character that pads the last group. -/
def padding : UInt8 := 61

/-- The digits of three bytes. -/
def digits (a b c : UInt8) : List ℕ :=
  [a.toNat / 4, a.toNat % 4 * 16 + b.toNat / 16, b.toNat % 16 * 4 + c.toNat / 64, c.toNat % 64]

def encode : List UInt8 → Text
  | [] => []
  | [a] => ((digits a 0 0).take 2).map symbol ++ [padding, padding]
  | [a, b] => ((digits a b 0).take 3).map symbol ++ [padding]
  | a :: b :: c :: xs => (digits a b c).map symbol ++ encode xs

/-- The number of characters that pad the last group. -/
def pads (n : ℕ) : ℕ := (3 - n % 3) % 3

section Encode

theorem digits_lt (a b c : UInt8) : ∀ d ∈ digits a b c, d < 64 := by
  have ha := a.toNat_lt
  have hb := b.toNat_lt
  have hc := c.toNat_lt
  intro d hd
  simp only [digits, List.mem_cons, List.not_mem_nil, or_false] at hd
  omega

theorem alphabet_eq : alphabet = [65, 66, 67, 68, 69, 70, 71, 72, 73, 74, 75, 76, 77, 78, 79, 80,
    81, 82, 83, 84, 85, 86, 87, 88, 89, 90, 97, 98, 99, 100, 101, 102,
    103, 104, 105, 106, 107, 108, 109, 110, 111, 112, 113, 114, 115, 116, 117, 118,
    119, 120, 121, 122, 48, 49, 50, 51, 52, 53, 54, 55, 56, 57, 43, 47] := by
  decide

theorem length_alphabet : alphabet.length = 64 := by rw [alphabet_eq]; rfl

theorem symbol_mem {d : ℕ} (h : d < 64) : symbol d ∈ alphabet := by
  have hlen := length_alphabet
  have hlt : d < alphabet.length := hlen ▸ h
  rw [symbol, List.getD_eq_getElem?_getD, List.getElem?_eq_getElem hlt, Option.getD_some]
  exact List.getElem_mem hlt

theorem padding_notMem_alphabet : padding ∉ alphabet := by
  rw [alphabet_eq]
  decide

theorem zero_notMem_alphabet : 0 ∉ alphabet := by
  rw [alphabet_eq]
  decide

theorem encode_append (x y : List UInt8) (h : x.length % 3 = 0) :
    encode (x ++ y) = encode x ++ encode y := by
  fun_induction encode x with
  | case1 => rfl
  | case2 a => cases h
  | case3 a b => cases h
  | case4 a b c xs ih =>
    have hxs : xs.length % 3 = 0 := by
      simp only [List.length_cons] at h
      omega
    rw [List.cons_append, List.cons_append, List.cons_append, encode, ih hxs, List.append_assoc]

theorem length_encode (x : List UInt8) : (encode x).length = (x.length + 2) / 3 * 4 := by
  fun_induction encode x with
  | case1 => rfl
  | case2 a => simp [digits]
  | case3 a b => simp [digits]
  | case4 a b c xs ih =>
    rw [List.length_append, ih, List.length_map]
    simp only [digits, List.length_cons, List.length_nil]
    omega

theorem length_encode_last {x : List UInt8} (hne : x ≠ []) (hle : x.length ≤ 3) :
    (encode x).length = 4 := by
  have hpos := List.length_pos_of_ne_nil hne
  rw [length_encode]
  omega

theorem symbols_subset (a b c : UInt8) (n : ℕ) {s : UInt8}
    (hs : s ∈ ((digits a b c).take n).map symbol) : s ∈ alphabet := by
  obtain ⟨d, hd, rfl⟩ := List.mem_map.1 hs
  exact symbol_mem (digits_lt a b c d (List.mem_of_mem_take hd))

theorem encode_eq_append (x : List UInt8) :
    ∃ body, encode x = body ++ List.replicate (pads x.length) padding ∧
      ∀ s ∈ body, s ∈ alphabet := by
  fun_induction encode x with
  | case1 => exact ⟨[], rfl, by simp⟩
  | case2 a => exact ⟨_, rfl, fun s hs ↦ symbols_subset a 0 0 2 hs⟩
  | case3 a b => exact ⟨_, rfl, fun s hs ↦ symbols_subset a b 0 3 hs⟩
  | case4 a b c xs ih =>
    obtain ⟨body, heq, hbody⟩ := ih
    have hpads : pads (a :: b :: c :: xs).length = pads xs.length := by
      simp only [pads, List.length_cons]
      omega
    refine ⟨(digits a b c).map symbol ++ body, ?_, fun s hs ↦ ?_⟩
    · rw [heq, hpads, List.append_assoc]
    · rcases List.mem_append.1 hs with hs | hs
      · exact symbols_subset a b c 4 hs
      · exact hbody s hs

theorem zero_notMem_encode (x : List UInt8) : 0 ∉ encode x := by
  obtain ⟨body, heq, hbody⟩ := encode_eq_append x
  intro h
  rw [heq, List.mem_append, List.mem_replicate] at h
  rcases h with h | ⟨-, h⟩
  · exact zero_notMem_alphabet (hbody 0 h)
  · cases h

end Encode

end Libobject.Rfc4648
