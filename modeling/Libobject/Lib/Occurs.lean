import Mathlib.Data.List.Basic

/-!
# Where a list stands in another

The places at which one list occurs in another, the first of them and the last.
-/

namespace Libobject

variable {α : Type*} {needle hay : List α} {i : ℕ}

/-- `needle` stands in `hay` behind its first `i` elements. -/
def OccursAt (needle hay : List α) (i : ℕ) : Prop :=
  i + needle.length ≤ hay.length ∧ (hay.drop i).take needle.length = needle

instance [DecidableEq α] : Decidable (OccursAt needle hay i) :=
  inferInstanceAs (Decidable (_ ∧ _))

theorem none_or_first (p : α → Prop) (xs : List α) :
    (∀ x ∈ xs, ¬ p x) ∨
      ∃ before x behind, xs = before ++ x :: behind ∧ (∀ y ∈ before, ¬ p y) ∧ p x := by
  induction xs with
  | nil => exact .inl fun _ h ↦ absurd h List.not_mem_nil
  | cons x xs ih =>
    by_cases hx : p x
    · exact .inr ⟨[], x, xs, rfl, fun _ h ↦ absurd h List.not_mem_nil, hx⟩
    rcases ih with h | ⟨before, y, behind, rfl, hbefore, hy⟩
    · exact .inl (List.forall_mem_cons.mpr ⟨hx, h⟩)
    · exact .inr ⟨x :: before, y, behind, rfl, List.forall_mem_cons.mpr ⟨hx, hbefore⟩, hy⟩

/-- A place, or `none` if there is none, that is in front of all others. -/
def IsFirst (needle hay : List α) : Option ℕ → Prop
  | some i => OccursAt needle hay i ∧ ∀ j, OccursAt needle hay j → i ≤ j
  | none => ∀ i, ¬OccursAt needle hay i

/-- A place, or `none` if there is none, that is behind all others. -/
def IsLast (needle hay : List α) : Option ℕ → Prop
  | some i => OccursAt needle hay i ∧ ∀ j, OccursAt needle hay j → j ≤ i
  | none => ∀ i, ¬OccursAt needle hay i

theorem OccursAt.le (h : OccursAt needle hay i) : i + needle.length ≤ hay.length := h.1

theorem occursAt_iff_split :
    OccursAt needle hay i ↔ ∃ pre post, hay = pre ++ (needle ++ post) ∧ pre.length = i := by
  constructor
  · rintro ⟨hle, htake⟩
    refine ⟨hay.take i, (hay.drop i).drop needle.length, ?_, List.length_take_of_le (by omega)⟩
    have hrest := List.take_append_drop needle.length (hay.drop i)
    rw [htake] at hrest
    rw [hrest, List.take_append_drop]
  · rintro ⟨pre, post, rfl, rfl⟩
    refine ⟨by simp only [List.length_append]; omega, ?_⟩
    rw [List.drop_left, List.take_left]

theorem occursAt_nil : OccursAt [] hay i ↔ i ≤ hay.length := by simp [OccursAt]

theorem not_occursAt_of_length_lt (h : hay.length < needle.length) : ¬OccursAt needle hay i :=
  fun hocc ↦ by
    have hle := hocc.le
    omega

theorem OccursAt.append (h : OccursAt needle hay i) (post : List α) :
    OccursAt needle (hay ++ post) i := by
  obtain ⟨pre, mid, rfl, hpre⟩ := occursAt_iff_split.mp h
  exact occursAt_iff_split.mpr ⟨pre, mid ++ post, by simp only [List.append_assoc], hpre⟩

theorem OccursAt.of_append {post : List α} (h : OccursAt needle (hay ++ post) i)
    (hle : i + needle.length ≤ hay.length) : OccursAt needle hay i := by
  refine ⟨hle, ?_⟩
  have htake := h.2
  rw [List.drop_append_of_le_length (by omega), List.take_append_of_le_length] at htake
  · exact htake
  · rw [List.length_drop]
    omega

theorem occursAt_append_length {pre : List α} :
    OccursAt needle (pre ++ hay) (pre.length + i) ↔ OccursAt needle hay i := by
  rw [OccursAt, OccursAt, List.length_append, ← List.drop_drop, List.drop_left, Nat.add_assoc,
    Nat.add_le_add_iff_left]

theorem IsFirst.append (h : IsFirst needle hay (some i)) (post : List α) :
    IsFirst needle (hay ++ post) (some i) := by
  refine ⟨h.1.append post, fun j hj ↦ ?_⟩
  have hle := h.1.le
  by_cases hin : j + needle.length ≤ hay.length
  · exact h.2 j (hj.of_append hin)
  · omega

theorem IsFirst.of_append {pre : List α} (h : IsFirst needle (pre ++ hay) (some (pre.length + i))) :
    IsFirst needle hay (some i) :=
  ⟨occursAt_append_length.mp h.1, fun j hj ↦
    Nat.le_of_add_le_add_left (h.2 (pre.length + j) (occursAt_append_length.mpr hj))⟩

theorem IsFirst.eq {r r' : Option ℕ} (h : IsFirst needle hay r) (h' : IsFirst needle hay r') :
    r = r' := by
  cases r with
  | none =>
    cases r' with
    | none => rfl
    | some j => exact absurd h'.1 (h j)
  | some i =>
    cases r' with
    | none => exact absurd h.1 (h' i)
    | some j => exact congrArg some (Nat.le_antisymm (h.2 j h'.1) (h'.2 i h.1))

theorem isFirst_find? [DecidableEq α] (hle : needle.length ≤ hay.length) :
    IsFirst needle hay ((List.range (hay.length - needle.length + 1)).find? fun i ↦
      (hay.drop i).take needle.length = needle) := by
  cases hres : (List.range (hay.length - needle.length + 1)).find? fun i ↦
      decide ((hay.drop i).take needle.length = needle) with
  | none =>
    rw [List.find?_eq_none] at hres
    intro i hi
    have hlt := hi.le
    exact hres i (List.mem_range.mpr (by omega)) (decide_eq_true hi.2)
  | some i =>
    rw [List.find?_range_eq_some] at hres
    obtain ⟨hocc, hlt, hbefore⟩ := hres
    have hi := List.mem_range.mp hlt
    refine ⟨⟨by omega, of_decide_eq_true hocc⟩, fun j hj ↦ ?_⟩
    by_contra hji
    have hnot := hbefore j (by omega)
    rw [decide_eq_true hj.2] at hnot
    cases hnot

end Libobject
