import Mathlib.Data.List.Basic
import Mathlib.Algebra.Order.Group.Nat
import Mathlib.Tactic.SplitIfs

/-!
# Memory used as a ring

A window of `n` places that begins at `r` and goes on at the start of the memory when it reaches
the end. Indices may stand at the end of the memory, which is the same place as its start.
-/

namespace Libobject.Ring

variable {α : Type*}

/-- The `n` elements from `r` on, around the end of the memory. -/
def window (mem : List α) (r n : ℕ) : List α := (mem.drop r ++ mem.take r).take n

/-- The place `k` behind `r`. -/
def wrap (size i : ℕ) : ℕ := if i < size then i else i - size

def poke (mem : List α) (offset : ℕ) (src : List α) : List α :=
  mem.take offset ++ src ++ mem.drop (offset + src.length)

/-- Store `src` from `w` on, in one piece or in two. -/
def store (mem : List α) (w : ℕ) (src : List α) : List α :=
  if w + src.length ≤ mem.length then poke mem w src
  else
    poke (poke mem w (src.take (mem.length - w))) 0 (src.drop (mem.length - w))

variable {mem src : List α} {r w n : ℕ}

theorem getElem?_window (hr : r ≤ mem.length) (hn : n ≤ mem.length) (k : ℕ) :
    (window mem r n)[k]? = if k < n then mem[wrap mem.length (r + k)]? else none := by
  have hdrop : (mem.drop r).length = mem.length - r := List.length_drop
  rw [window, List.getElem?_take, wrap]
  by_cases hk : k < n
  · rw [if_pos hk, if_pos hk, List.getElem?_append, hdrop]
    by_cases hlt : r + k < mem.length
    · rw [if_pos (by omega), if_pos hlt, List.getElem?_drop]
    · rw [if_neg (by omega), if_neg hlt, List.getElem?_take_of_lt (by omega)]
      congr 1
      omega
  · rw [if_neg hk, if_neg hk]

@[simp] theorem length_window (hr : r ≤ mem.length) (hn : n ≤ mem.length) :
    (window mem r n).length = n := by
  simp only [window, List.length_take, List.length_append, List.length_drop]
  omega

theorem take_window {k : ℕ} (h : k ≤ n) : (window mem r n).take k = window mem r k := by
  rw [window, List.take_take, Nat.min_eq_left h, window]

theorem window_one (h : r + n ≤ mem.length) : window mem r n = (mem.drop r).take n := by
  rw [window, List.take_append_of_le_length]
  rw [List.length_drop]
  omega

theorem window_two (h : mem.length < r + n) (hr : r ≤ mem.length) (hn : n ≤ mem.length) :
    window mem r n = mem.drop r ++ mem.take (n - (mem.length - r)) := by
  rw [window, List.take_append, List.length_drop, List.take_take, Nat.min_eq_left (by omega),
    List.take_of_length_le (by rw [List.length_drop]; omega)]

theorem window_drop {k r' : ℕ} (hr : r ≤ mem.length) (hn : n ≤ mem.length) (hk : k ≤ n)
    (hr' : r' ≤ mem.length) (heq : r' = r + k ∨ r' + mem.length = r + k) :
    window mem r' (n - k) = (window mem r n).drop k := by
  refine List.ext_getElem? fun i ↦ ?_
  rw [getElem?_window hr' (by omega), List.getElem?_drop, getElem?_window hr hn]
  by_cases hi : i < n - k
  · have hwrap : wrap mem.length (r' + i) = wrap mem.length (r + (k + i)) := by
      rw [wrap, wrap]
      split_ifs <;> omega
    rw [if_pos hi, if_pos (show k + i < n by omega), hwrap]
  · rw [if_neg hi, if_neg (show ¬k + i < n by omega)]

theorem getElem?_poke (h : w + src.length ≤ mem.length) (j : ℕ) :
    (poke mem w src)[j]? = if j < w then mem[j]?
      else if j < w + src.length then src[j - w]? else mem[j]? := by
  have htake : (mem.take w).length = w := List.length_take_of_le (by omega)
  rw [poke, List.append_assoc, List.getElem?_append, htake]
  split
  · next hlt => rw [List.getElem?_take_of_lt hlt]
  · rw [List.getElem?_append]
    split
    · rw [if_pos (by omega)]
    · rw [if_neg (by omega), List.getElem?_drop]
      congr 1
      omega

@[simp] theorem length_poke (h : w + src.length ≤ mem.length) :
    (poke mem w src).length = mem.length := by
  simp only [poke, List.length_append, List.length_take, List.length_drop]
  omega

theorem length_store (hw : w ≤ mem.length) (hsrc : src.length ≤ mem.length) :
    (store mem w src).length = mem.length := by
  rw [store]
  split
  · next hone => exact length_poke hone
  · next htwo =>
      have hfirst : w + (src.take (mem.length - w)).length ≤ mem.length := by
        rw [List.length_take]
        omega
      rw [length_poke, length_poke hfirst]
      rw [length_poke hfirst, List.length_drop]
      omega

theorem getElem?_store (hw : w ≤ mem.length) (hsrc : src.length ≤ mem.length) (j : ℕ) :
    (store mem w src)[j]? =
      if w ≤ j ∧ j < w + src.length ∧ j < mem.length then src[j - w]?
      else if j + mem.length < w + src.length then src[j + mem.length - w]?
      else mem[j]? := by
  rw [store]
  split
  · next hone =>
      rw [getElem?_poke hone]
      split_ifs <;> first | rfl | omega
  · next htwo =>
      have htake : (src.take (mem.length - w)).length = mem.length - w :=
        List.length_take_of_le (by omega)
      have hdrop : (src.drop (mem.length - w)).length = src.length - (mem.length - w) :=
        List.length_drop
      have hfirst : w + (src.take (mem.length - w)).length ≤ mem.length := by omega
      rw [getElem?_poke (by rw [length_poke hfirst]; omega), getElem?_poke hfirst, htake, hdrop]
      have hlast : ∀ j, j < mem.length - w → (src.take (mem.length - w))[j]? = src[j]? :=
        fun j hj ↦ List.getElem?_take_of_lt hj
      split_ifs <;> first
        | rfl
        | omega
        | (rw [List.getElem?_drop]; congr 1; omega)
        | (rw [hlast _ (by omega)])

theorem window_store (hr : r ≤ mem.length) (hw : w ≤ mem.length)
    (hfit : n + src.length ≤ mem.length) (heq : w = r + n ∨ w + mem.length = r + n) :
    window (store mem w src) r (n + src.length) = window mem r n ++ src := by
  have hsrc : src.length ≤ mem.length := by omega
  have hlen := length_store hw hsrc
  refine List.ext_getElem? fun k ↦ ?_
  rw [getElem?_window (by omega) (by omega), List.getElem?_append, length_window hr (by omega),
    getElem?_window hr (by omega), hlen]
  by_cases hk : k < n
  · rw [if_pos (by omega), if_pos hk, if_pos hk, getElem?_store hw (by omega), wrap]
    split_ifs <;> first | rfl | omega
  · rw [if_neg hk]
    by_cases hk' : k < n + src.length
    · rw [if_pos hk', getElem?_store hw (by omega), wrap]
      split_ifs <;> first | omega | (congr 1; omega)
    · rw [if_neg hk', List.getElem?_eq_none (by omega)]

end Libobject.Ring
