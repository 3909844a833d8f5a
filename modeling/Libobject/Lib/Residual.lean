import Mathlib.Data.List.Count

/-!
# Residuals of a bag of words

A bag of words, as a list in which the order is of no interest, seen from one letter on: the words
that start with the letter, without it. What is counted in the bag behind a letter is counted in
the residual.
-/

namespace Libobject

variable {α : Type*} [DecidableEq α]

/-- The words of the bag that start with the letter, without it. -/
def residual (c : α) (ws : List (List α)) : List (List α) :=
  ws.filterMap fun
    | [] => none
    | d :: w => if d = c then some w else none

namespace Residual

variable {c d : α} {w p : List α} {ws : List (List α)}

@[simp] theorem residual_cons_nil : residual c ([] :: ws) = residual c ws := rfl

@[simp] theorem residual_cons_self : residual c ((c :: w) :: ws) = w :: residual c ws := by
  simp [residual]

theorem residual_cons_of_ne (h : d ≠ c) : residual c ((d :: w) :: ws) = residual c ws := by
  simp [residual, h]

theorem count_cons (c : α) (w : List α) (ws : List (List α)) :
    ws.count (c :: w) = (residual c ws).count w := by
  induction ws with
  | nil => rfl
  | cons v ws ih =>
    cases v with
    | nil =>
      rw [residual_cons_nil, ← ih]
      exact List.count_cons_of_ne (List.cons_ne_nil c w).symm
    | cons d v =>
      by_cases h : d = c
      · subst h
        rw [residual_cons_self, List.count_cons, List.count_cons, ih]
        simp
      · rw [residual_cons_of_ne h, ← ih]
        apply List.count_cons_of_ne
        intro heq
        exact h (List.cons.inj heq).1

theorem countP_prefix_cons (c : α) (p : List α) (ws : List (List α)) :
    ws.countP (fun w ↦ (c :: p) <+: w) = (residual c ws).countP (fun w ↦ p <+: w) := by
  induction ws with
  | nil => rfl
  | cons v ws ih =>
    cases v with
    | nil =>
      rw [residual_cons_nil, ← ih]
      exact List.countP_cons_of_neg (by simp)
    | cons d v =>
      by_cases h : d = c
      · subst h
        rw [residual_cons_self, List.countP_cons, List.countP_cons, ih]
        simp [List.cons_prefix_cons]
      · rw [residual_cons_of_ne h, ← ih]
        apply List.countP_cons_of_neg
        simp [List.cons_prefix_cons, Ne.symm h]

theorem mem_residual : w ∈ residual c ws ↔ c :: w ∈ ws := by
  rw [← List.count_pos_iff, ← List.count_pos_iff, count_cons]

theorem residual_erase_of_ne (h : d ≠ c) :
    residual c (ws.erase (d :: w)) = residual c ws := by
  induction ws with
  | nil => rfl
  | cons v ws ih =>
    rw [List.erase_cons]
    split_ifs with hv
    · rw [eq_of_beq hv, residual_cons_of_ne h]
    · cases v with
      | nil => rw [residual_cons_nil, residual_cons_nil, ih]
      | cons e v =>
        by_cases he : e = c
        · subst he
          rw [residual_cons_self, residual_cons_self, ih]
        · rw [residual_cons_of_ne he, residual_cons_of_ne he, ih]

theorem residual_erase_nil : residual c (ws.erase []) = residual c ws := by
  induction ws with
  | nil => rfl
  | cons v ws ih =>
    cases v with
    | nil => simp
    | cons e v =>
      rw [List.erase_cons, if_neg (by simp)]
      by_cases he : e = c
      · subst he
        rw [residual_cons_self, residual_cons_self, ih]
      · rw [residual_cons_of_ne he, residual_cons_of_ne he, ih]

theorem residual_erase_self :
    residual c (ws.erase (c :: w)) = (residual c ws).erase w := by
  induction ws with
  | nil => rfl
  | cons v ws ih =>
    cases v with
    | nil =>
      rw [List.erase_cons, if_neg (by simp), residual_cons_nil, residual_cons_nil, ih]
    | cons e v =>
      by_cases he : e = c
      · subst he
        by_cases hv : v = w
        · subst hv
          simp
        · rw [List.erase_cons, if_neg (by simpa using hv), residual_cons_self,
            residual_cons_self, ih, List.erase_cons, if_neg (by simpa using hv)]
      · rw [List.erase_cons, if_neg (by simp [he]), residual_cons_of_ne he,
          residual_cons_of_ne he, ih]

end Residual

end Libobject
