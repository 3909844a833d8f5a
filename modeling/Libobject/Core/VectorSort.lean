import Libobject.Core.Vector
import Libobject.Lib.StableSort

/-!
# Sorting a vector

Neighbours are compared and exchanged in two nested loops over the slots below the end. The
comparison says whether its first argument comes after its second; it is given the slots as they
are.
-/

namespace Libobject

namespace PtrVector

variable {V : Type}

/-- One turn of the inner loop. -/
def bubbleTurn (cmp : Option V → Option V → ℤ) (array : List (Option V)) (j : ℕ) :
    Option (List (Option V)) :=
  match array[j]?, array[j + 1]? with
  | some t, some next =>
    if cmp t next ≠ 0 then some ((array.set j next).set (j + 1) t) else some array
  | _, _ => none

/-- The inner loop from `j` on, with `n` turns to go. -/
def bubblePass (cmp : Option V → Option V → ℤ) :
    ℕ → ℕ → List (Option V) → Option (List (Option V))
  | 0, _, array => some array
  | n + 1, j, array => (bubbleTurn cmp array j).bind (bubblePass cmp n (j + 1))

/-- The outer loop from `i` on, with `n` turns to go. -/
def bubblePasses (cmp : Option V → Option V → ℤ) (len : ℕ) :
    ℕ → ℕ → List (Option V) → Option (List (Option V))
  | 0, _, array => some array
  | n + 1, i, array => (bubblePass cmp (len - 1 - i) 0 array).bind (bubblePasses cmp len n (i + 1))

/-- The index behind the last element is kept in a C integer. -/
def bubble_sort (v : PtrVector V) (cmp : Option V → Option V → ℤ) : Option (PtrVector V) :=
  let len := (BitVec.ofNat 32 v.end_pos).toInt
  (bubblePasses cmp len.toNat (len - 1).toNat 0 v.slots).map fun slots ↦ { v with slots }

def VECTOR_SORT_TYPE_BUBBLE : BitVec 32 := 0

def sort (v : PtrVector V) (type : BitVec 32) (cmp : Option V → Option V → ℤ) :
    Option (PtrVector V × ℤ) :=
  if 1 ≤ type.toNat then some (v, -1)
  else (v.bubble_sort cmp).map fun v ↦ (v, 1)

open StableSort (Keeps Sorts carry)

section Loops

variable {cmp : Option V → Option V → ℤ} {le : Option V → Option V → Prop}

/-- The comparison as a decision. -/
def after (cmp : Option V → Option V → ℤ) (a b : Option V) : Bool := cmp a b ≠ 0

theorem bubbleTurn_eq (cmp : Option V → Option V → ℤ) (front : List (Option V)) (x y : Option V)
    (rest : List (Option V)) :
    bubbleTurn cmp (front ++ x :: y :: rest) front.length =
      some (if after cmp x y then front ++ y :: x :: rest else front ++ x :: y :: rest) := by
  have hx : (front ++ x :: y :: rest)[front.length]? = some x := by simp
  have hy : (front ++ x :: y :: rest)[front.length + 1]? = some y := by simp
  rw [bubbleTurn, hx, hy]
  by_cases h : cmp x y = 0
  · simp [after, h]
  · simp [after, h]

theorem bubblePass_eq (cmp : Option V → Option V → ℤ) (xs front back : List (Option V))
    (x : Option V) :
    bubblePass cmp xs.length front.length (front ++ x :: xs ++ back) =
      some (front ++ carry (after cmp) x xs ++ back) := by
  induction xs generalizing front x with
  | nil => rfl
  | cons y ys ih =>
    have hturn := bubbleTurn_eq cmp front x y (ys ++ back)
    have hlist (a b : Option V) : front ++ a :: b :: (ys ++ back) =
        (front ++ [a]) ++ b :: ys ++ back := by simp
    have hlen (a : Option V) : front.length + 1 = (front ++ [a]).length := by simp
    rw [List.length_cons, bubblePass, List.append_assoc, List.cons_append, List.cons_append, hturn,
      Option.bind_some, carry]
    split_ifs
    · rw [hlist, hlen y, ih]
      simp
    · rw [hlist, hlen x, ih]
      simp

variable [Std.Total le] [IsTrans (Option V) le]

theorem bubblePasses_sorts (hcmp : ∀ a b, cmp a b ≠ 0 ↔ ¬le a b) {len n i : ℕ}
    {front back tail : List (Option V)} (hlen : len = front.length + i) (hn : n = len - 1 - i)
    (hback : back.length = i) (hordered : back.Pairwise le)
    (hlast : ∀ a ∈ front, ∀ b ∈ back, le a b) :
    ∃ out, bubblePasses cmp len n i (front ++ back ++ tail) = some (out ++ tail) ∧
      Sorts le (front ++ back) out := by
  have hafter (a b : Option V) : after cmp a b = true ↔ ¬le a b := by
    rw [← hcmp, after, decide_eq_true_eq]
  induction n generalizing i front back with
  | zero =>
    refine ⟨front ++ back, rfl, Keeps.refl _, ?_⟩
    rw [List.pairwise_append]
    refine ⟨?_, hordered, hlast⟩
    match front, hlen with
    | [], _ => exact List.Pairwise.nil
    | [x], _ => exact List.pairwise_singleton le x
    | x :: y :: rest, hlen =>
      rw [List.length_cons, List.length_cons] at hlen
      omega
  | succ n ih =>
    match front, hlen with
    | [], hlen =>
      rw [List.length_nil] at hlen
      omega
    | x :: xs, hlen =>
      rw [List.length_cons] at hlen
      obtain ⟨front', m, hcarry, hm⟩ := StableSort.carry_last hafter x xs
      have hkeeps := StableSort.keeps_carry hafter x xs
      have hlength := StableSort.length_carry (after cmp) x xs
      rw [hcarry] at hkeeps hlength
      rw [List.length_append, List.length_singleton] at hlength
      have hmem {a : Option V} (ha : a ∈ front' ++ [m]) : a ∈ x :: xs := hkeeps.perm.mem_iff.1 ha
      have hpass := bubblePass_eq cmp xs [] (back ++ tail) x
      rw [List.nil_append, List.nil_append, List.length_nil, hcarry, ← List.append_assoc] at hpass
      have hturns : len - 1 - i = xs.length := by omega
      obtain ⟨out, hout, hsorts⟩ := @ih (i + 1) front' (m :: back)
        (by omega) (by omega) (by rw [List.length_cons, hback])
        (List.pairwise_cons.2 ⟨fun b hb ↦ hlast m (hmem (by simp)) b hb, hordered⟩)
        (by
          intro a ha b hb
          rcases List.mem_cons.1 hb with rfl | hb
          · exact hm a (hmem (by simp [ha]))
          · exact hlast a (hmem (by simp [ha])) b hb)
      refine ⟨out, ?_, ?_⟩
      · rw [bubblePasses, hturns, hpass, Option.bind_some, ← hout]
        simp
      · refine ⟨Keeps.trans (hkeeps.append (Keeps.refl back)) ?_, hsorts.ordered⟩
        rw [List.append_assoc, List.singleton_append]
        exact hsorts.toKeeps

/-- A sort leaves the vector with its elements in order, those that are tied as they were before. -/
theorem sort_sorts {v : PtrVector V} {es : List (Option V)} (hv : v.Holds es)
    (hcmp : ∀ a b, cmp a b ≠ 0 ↔ ¬le a b) :
    ∃ v' out, v.sort VECTOR_SORT_TYPE_BUBBLE cmp = some (v', 1) ∧ v'.Holds out ∧
      Sorts le es out := by
  obtain ⟨out, hout, hsorts⟩ := @bubblePasses_sorts _ _ _ _ _ hcmp es.length (es.length - 1) 0 es []
    (List.replicate (v.capacity - es.length) none) rfl rfl rfl List.Pairwise.nil (by simp)
  rw [List.append_nil, ← hv.slots_eq] at hout
  rw [List.append_nil] at hsorts
  have hsame : out.length = es.length := hsorts.perm.length_eq
  refine ⟨{ v with slots := out ++ List.replicate (v.capacity - es.length) none }, out, ?_, ?_,
    hsorts⟩
  · have hturns : ((es.length : ℤ) - 1).toNat = es.length - 1 := by omega
    rw [sort, if_neg (by decide), bubble_sort, hv.toInt_end, hturns, Int.toNat_natCast]
    rw [hout]
    rfl
  · refine ⟨by rw [hsame], hv.end_eq.trans hsame.symm, hsame ▸ hv.le_capacity, ?_, hv.capacity_pos,
      hv.fits⟩
    exact hv.count_eq.trans (hsorts.perm.countP_eq _).symm

end Loops

/-- An order by the tens only. -/
def tensLe (a b : Option ℕ) : Prop := a.getD 0 / 10 ≤ b.getD 0 / 10

def tensCmp (a b : Option ℕ) : ℤ := if b.getD 0 / 10 < a.getD 0 / 10 then 1 else 0

instance total_tensLe : Std.Total tensLe := ⟨fun _ _ ↦ Nat.le_total ..⟩

instance trans_tensLe : IsTrans (Option ℕ) tensLe := ⟨fun _ _ _ ↦ Nat.le_trans⟩

def numbers : PtrVector ℕ := ⟨[some 25, some 13, some 21, some 11, none], 5, 4, 4⟩

theorem sort_sorts_numbers :
    ∃ v' out, numbers.sort VECTOR_SORT_TYPE_BUBBLE tensCmp = some (v', 1) ∧ v'.Holds out ∧
      Sorts tensLe [some 25, some 13, some 21, some 11] out := by
  have hcmp (a b : Option ℕ) : tensCmp a b ≠ 0 ↔ ¬tensLe a b := by
    rw [tensCmp, tensLe, not_le]
    split_ifs with h
    · exact ⟨fun _ ↦ h, fun _ ↦ Int.one_ne_zero⟩
    · exact ⟨fun h' ↦ (h' rfl).elim, fun h' ↦ (h h').elim⟩
  exact sort_sorts ⟨rfl, rfl, by decide, rfl, by decide, by decide⟩ hcmp

example : (numbers.sort VECTOR_SORT_TYPE_BUBBLE tensCmp).map (fun r ↦ r.1.slots) =
    some [some 13, some 11, some 25, some 21, none] := by decide

end PtrVector

end Libobject
