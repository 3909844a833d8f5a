import Mathlib.Data.List.Basic
import Mathlib.Tactic.Common

/-!
# Hashing block by block

A message is taken in blocks of one size, each of them by a step from one state to the next. What
does not fill a block is left over, and the message may come in any pieces.
-/

namespace Libobject.BlockHash

variable {σ α : Type*} (step : σ → List α → σ) (n : ℕ)

/-- The state behind the blocks of a message, and what is left over. -/
def intake (s : σ) (m : List α) : σ × List α :=
  if 0 < n ∧ n ≤ m.length then intake (step s (m.take n)) (m.drop n) else (s, m)
termination_by m.length
decreasing_by simp only [List.length_drop]; omega

variable {n}

theorem intake_of_lt (s : σ) {m : List α} (h : m.length < n) : intake step n s m = (s, m) := by
  rw [intake, if_neg (by omega)]

theorem intake_block (hn : 0 < n) (s : σ) {b : List α} (hb : b.length = n) (m : List α) :
    intake step n s (b ++ m) = intake step n (step s b) m := by
  rw [intake, if_pos ⟨hn, by rw [List.length_append]; omega⟩, List.take_left' hb,
    List.drop_left' hb]

theorem intake_one (hn : 0 < n) (s : σ) {b : List α} (hb : b.length = n) :
    intake step n s b = (step s b, []) := by
  have h := intake_block step hn s hb []
  rwa [List.append_nil, intake_of_lt step (step s b) (m := []) hn] at h

theorem intake_append (s : σ) (x y : List α) :
    intake step n s (x ++ y) =
      intake step n (intake step n s x).1 ((intake step n s x).2 ++ y) := by
  induction hlen : x.length using Nat.strongRecOn generalizing s x with
  | ind len ih =>
    by_cases h : 0 < n ∧ n ≤ x.length
    · have hx : intake step n s x = intake step n (step s (x.take n)) (x.drop n) := by
        rw [intake, if_pos h]
      have hxy : intake step n s (x ++ y) = intake step n (step s (x.take n)) (x.drop n ++ y) := by
        rw [intake, if_pos ⟨h.1, by rw [List.length_append]; omega⟩,
          List.take_append_of_le_length h.2, List.drop_append_of_le_length h.2]
      rw [hx, hxy]
      refine ih (x.drop n).length ?_ _ _ rfl
      rw [List.length_drop]
      omega
    · have hx : intake step n s x = (s, x) := by rw [intake, if_neg h]
      rw [hx]

theorem length_intake (hn : 0 < n) (s : σ) (m : List α) :
    (intake step n s m).2.length = m.length % n := by
  induction hlen : m.length using Nat.strongRecOn generalizing s m with
  | ind len ih =>
    rw [intake]
    split
    · next h =>
        have hlt : (m.drop n).length < len := by
          rw [List.length_drop]
          omega
        rw [ih _ hlt _ _ rfl, List.length_drop, hlen, ← Nat.mod_eq_sub_mod (by omega)]
    · next h =>
        dsimp only
        rw [hlen, Nat.mod_eq_of_lt (by omega)]

theorem intake_whole (hn : 0 < n) (s : σ) {m : List α} (h : n ∣ m.length) :
    (intake step n s m).2 = [] := by
  apply List.length_eq_zero_iff.mp
  rw [length_intake step hn, Nat.mod_eq_zero_of_dvd h]

end Libobject.BlockHash
