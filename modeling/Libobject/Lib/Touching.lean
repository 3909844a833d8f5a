import Mathlib.Data.List.Basic

/-!
# Blanks that touch a mark

Of a list with blanks and marks, the blanks are left out that have nothing but blanks between
themselves and a mark, on either side.
-/

namespace Libobject.Touching

variable {α : Type*} (blank mark : α → Bool)

/-- Behind its blanks the list begins with a mark. -/
def leads (s : List α) : Bool := (s.dropWhile blank).head?.any mark

/-- What is kept of a list. `front` is what stands before it, the nearest first. -/
def keepFrom (front : List α) : List α → List α
  | [] => []
  | c :: s =>
    if blank c && (leads blank mark front || leads blank mark s) then keepFrom (c :: front) s
    else c :: keepFrom (c :: front) s

def keep (s : List α) : List α := keepFrom blank mark [] s

variable {blank mark}

theorem leads_blank {c : α} (h : blank c = true) (s : List α) :
    leads blank mark (c :: s) = leads blank mark s := by
  simp [leads, h]

theorem leads_other {c : α} (h : blank c = false) (s : List α) :
    leads blank mark (c :: s) = mark c := by
  simp [leads, h]

theorem leads_cons {front front' : List α} (h : leads blank mark front = leads blank mark front')
    (c : α) : leads blank mark (c :: front) = leads blank mark (c :: front') := by
  by_cases hc : blank c = true
  · rw [leads_blank hc, leads_blank hc, h]
  · rw [Bool.not_eq_true] at hc
    rw [leads_other hc, leads_other hc]

theorem keepFrom_step (front : List α) (c : α) (s : List α) :
    keepFrom blank mark front (c :: s) =
      if blank c && (leads blank mark front || leads blank mark s) then
        keepFrom blank mark (c :: front) s
      else c :: keepFrom blank mark (c :: front) s := rfl

theorem keepFrom_sublist (front s : List α) : (keepFrom blank mark front s).Sublist s := by
  induction s generalizing front with
  | nil => exact List.Sublist.refl []
  | cons c s ih =>
    rw [keepFrom_step]
    split
    · exact (ih _).cons c
    · exact (ih _).cons_cons c

theorem not_blank_head {s : List α} {c : α} (h : c ∈ (s.dropWhile blank).head?) :
    blank c = false := by
  have hnot := List.head?_dropWhile_not blank s
  rwa [Option.mem_def.mp h] at hnot

theorem keepFrom_cons {front : List α} {c : α} (h : blank c = true → leads blank mark front = false)
    (s : List α) :
    keepFrom blank mark front (c :: s) =
      if blank c && leads blank mark s then keepFrom blank mark (c :: front) s
      else c :: keepFrom blank mark (c :: front) s := by
  rw [keepFrom_step]
  by_cases hc : blank c = true
  · rw [h hc, Bool.false_or]
  · rw [Bool.not_eq_true] at hc
    simp [hc]

theorem keepFrom_dropWhile {front : List α} (h : leads blank mark front = true) (s : List α) :
    ∃ front', keepFrom blank mark front s = keepFrom blank mark front' (s.dropWhile blank) ∧
      leads blank mark front' = true := by
  induction s generalizing front with
  | nil => exact ⟨front, rfl, h⟩
  | cons c s ih =>
    by_cases hc : blank c = true
    · have hfront : leads blank mark (c :: front) = true := (leads_blank hc front).trans h
      rw [keepFrom_step, if_pos (by simp [hc, h]), List.dropWhile_cons_of_pos hc]
      exact ih hfront
    · refine ⟨front, ?_, h⟩
      rw [List.dropWhile_cons_of_neg hc]

theorem leads_keepFrom (front s : List α) :
    leads blank mark (keepFrom blank mark front s) = leads blank mark s := by
  induction s generalizing front with
  | nil => rfl
  | cons c s ih =>
    by_cases hc : blank c = true
    · rw [leads_blank hc, keepFrom_step]
      split
      · exact ih _
      · rw [leads_blank hc, ih]
    · rw [Bool.not_eq_true] at hc
      have hkept : keepFrom blank mark front (c :: s) =
          c :: keepFrom blank mark (c :: front) s := by
        simp [keepFrom_step, hc]
      rw [hkept, leads_other hc, leads_other hc]

theorem keepFrom_keepFrom {front front' : List α}
    (h : leads blank mark front' = leads blank mark front) (s : List α) :
    keepFrom blank mark front' (keepFrom blank mark front s) = keepFrom blank mark front s := by
  induction s generalizing front front' with
  | nil => rfl
  | cons c s ih =>
    by_cases hc : (blank c && (leads blank mark front || leads blank mark s)) = true
    · have hblank : blank c = true := (Bool.and_eq_true_iff.mp hc).1
      rw [keepFrom_step, if_pos hc]
      apply ih
      rw [h, leads_blank hblank]
    · have hkept : keepFrom blank mark front (c :: s) =
          c :: keepFrom blank mark (c :: front) s := by rw [keepFrom_step, if_neg hc]
      rw [hkept, keepFrom_step, h, leads_keepFrom, if_neg hc]
      rw [ih (leads_cons h c)]

theorem keep_keep (s : List α) : keep blank mark (keep blank mark s) = keep blank mark s :=
  keepFrom_keepFrom rfl s

end Libobject.Touching
