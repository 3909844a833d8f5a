import Mathlib.Data.List.Perm.Basic
import Mathlib.Order.Defs.Unbundled

/-!
# Stable sorting

A list is sorted stably if it comes out in order and those elements that are tied keep the order
that they had. Exchanging two neighbours that are strictly out of order keeps the order of the ties.
-/

namespace Libobject

namespace StableSort

variable {α : Type*} (le : α → α → Prop)

open Classical in
/-- The elements of `xs` that are tied with `a`, in their order. -/
noncomputable def ties (xs : List α) (a : α) : List α := xs.filter fun b ↦ le a b ∧ le b a

/-- The same elements, and the same order of the tied ones. -/
structure Keeps (xs ys : List α) : Prop where
  perm : ys.Perm xs
  ties_eq : ∀ a, ties le ys a = ties le xs a

structure Sorts (xs ys : List α) : Prop extends Keeps le xs ys where
  ordered : ys.Pairwise le

variable {le}

theorem Keeps.refl (xs : List α) : Keeps le xs xs := ⟨List.Perm.refl xs, fun _ ↦ rfl⟩

theorem Keeps.trans {xs ys zs : List α} (h : Keeps le xs ys) (h' : Keeps le ys zs) :
    Keeps le xs zs :=
  ⟨h'.perm.trans h.perm, fun a ↦ (h'.ties_eq a).trans (h.ties_eq a)⟩

theorem ties_append (xs ys : List α) (a : α) :
    ties le (xs ++ ys) a = ties le xs a ++ ties le ys a :=
  List.filter_append ..

theorem Keeps.append {xs ys xs' ys' : List α} (h : Keeps le xs xs') (h' : Keeps le ys ys') :
    Keeps le (xs ++ ys) (xs' ++ ys') := by
  refine ⟨h.perm.append h'.perm, fun a ↦ ?_⟩
  rw [ties_append, ties_append, h.ties_eq, h'.ties_eq]

theorem Keeps.cons {xs ys : List α} (x : α) (h : Keeps le xs ys) : Keeps le (x :: xs) (x :: ys) :=
  (Keeps.refl [x]).append h

theorem Keeps.swap [Std.Total le] [IsTrans α le] {x y : α} (h : ¬le x y) (zs : List α) :
    Keeps le (x :: y :: zs) (y :: x :: zs) := by
  refine ⟨List.Perm.swap x y zs, fun a ↦ ?_⟩
  have hnot : ¬((le a x ∧ le x a) ∧ le a y ∧ le y a) := by
    rintro ⟨⟨-, hxa⟩, hay, -⟩
    exact h (IsTrans.trans _ _ _ hxa hay)
  by_cases hx : le a x ∧ le x a
  · have hy : ¬(le a y ∧ le y a) := fun hy ↦ hnot ⟨hx, hy⟩
    simp [ties, hx, hy]
  · simp [ties, List.filter_cons, hx]

section Carry

variable (after : α → α → Bool)

/-- One pass over `xs` with `x` in hand: it is put down in front of the first element that it does
not come after, and that one is taken up. -/
def carry (x : α) : List α → List α
  | [] => [x]
  | y :: ys => if after x y then y :: carry x ys else x :: carry y ys

theorem carry_cons (x y : α) (ys : List α) :
    carry after x (y :: ys) =
      if after x y then y :: carry after x ys else x :: carry after y ys := rfl

theorem length_carry (x : α) (xs : List α) : (carry after x xs).length = xs.length + 1 := by
  induction xs generalizing x with
  | nil => rfl
  | cons y ys ih =>
    rw [carry_cons]
    split_ifs
    · exact congrArg (· + 1) (ih x)
    · exact congrArg (· + 1) (ih y)

variable {after} [Std.Total le] [IsTrans α le]

theorem keeps_carry (hafter : ∀ a b, after a b = true ↔ ¬le a b) (x : α) (xs : List α) :
    Keeps le (x :: xs) (carry after x xs) := by
  induction xs generalizing x with
  | nil => exact Keeps.refl [x]
  | cons y ys ih =>
    rw [carry_cons]
    split_ifs with h
    · exact (Keeps.swap ((hafter x y).1 h) ys).trans ((ih x).cons y)
    · exact (ih y).cons x

theorem carry_last (hafter : ∀ a b, after a b = true ↔ ¬le a b) (x : α) (xs : List α) :
    ∃ front m, carry after x xs = front ++ [m] ∧ ∀ z ∈ x :: xs, le z m := by
  induction xs generalizing x with
  | nil =>
    refine ⟨[], x, rfl, fun z hz ↦ ?_⟩
    rw [List.mem_singleton.1 hz]
    exact (Std.Total.total x x).elim id id
  | cons y ys ih =>
    rw [carry_cons]
    split_ifs with h
    · obtain ⟨front, m, heq, hm⟩ := ih x
      refine ⟨y :: front, m, by rw [heq, List.cons_append], ?_⟩
      have hyx : le y x := (Std.Total.total x y).resolve_left ((hafter x y).1 h)
      rw [List.forall_mem_cons] at hm
      rw [List.forall_mem_cons, List.forall_mem_cons]
      exact ⟨hm.1, IsTrans.trans _ _ _ hyx hm.1, hm.2⟩
    · obtain ⟨front, m, heq, hm⟩ := ih y
      refine ⟨x :: front, m, by rw [heq, List.cons_append], ?_⟩
      have hxy : le x y := not_not.1 fun hn ↦ h ((hafter x y).2 hn)
      rw [List.forall_mem_cons] at hm ⊢
      exact ⟨IsTrans.trans _ _ _ hxy hm.1, List.forall_mem_cons.2 hm⟩

end Carry

end StableSort

end Libobject
