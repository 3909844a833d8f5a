import Mathlib.Data.List.Basic
import Mathlib.Order.Basic

/-!
# Search trees that keep equal elements

A search compares with the element it looks for: `f a` says on which side of `a` that lies. The
elements are in order for `f` when those before it come first, those equal to it next and those
behind it last. An element is inserted before all elements that are equal to it. Each node carries
a tag for the balancing scheme, which plays no part in the order.
-/

namespace Libobject

inductive Tree (ι α : Type*)
  | leaf
  | node (tag : ι) (l : Tree ι α) (a : α) (r : Tree ι α)
  deriving DecidableEq

namespace Tree

variable {ι α : Type*}

def inorder : Tree ι α → List α
  | leaf => []
  | node _ l a r => l.inorder ++ a :: r.inorder

@[simp] theorem inorder_leaf : (leaf : Tree ι α).inorder = [] := rfl

@[simp] theorem inorder_node (tag : ι) (l : Tree ι α) (a : α) (r : Tree ι α) :
    (node tag l a r).inorder = l.inorder ++ a :: r.inorder := rfl

/-- The position of the first equal element on the way down. -/
def find (f : α → Ordering) : Tree ι α → Option ℕ
  | leaf => none
  | node _ l a r =>
    match f a with
    | .lt => l.find f
    | .gt => (r.find f).map (· + (l.inorder.length + 1))
    | .eq => some l.inorder.length

/-- Hang `x` below a leaf, going left where it is equal. -/
def insertLeft (f : α → Ordering) (new : ι) (x : α) : Tree ι α → Tree ι α
  | leaf => node new leaf x leaf
  | node tag l a r =>
    match f a with
    | .gt => node tag l a (r.insertLeft f new x)
    | _ => node tag (l.insertLeft f new x) a r

/-- The list has the elements on the three sides of `f` one after the other. -/
def InOrder (f : α → Ordering) (xs : List α) : Prop :=
  xs.Pairwise (fun a b ↦ (f a = .lt → f b = .lt) ∧ (f b = .gt → f a = .gt))

theorem inOrder_node {f : α → Ordering} {tag : ι} {l r : Tree ι α} {a : α}
    (h : InOrder f (node tag l a r).inorder) :
    InOrder f l.inorder ∧ InOrder f r.inorder ∧ (∀ b ∈ l.inorder, f a = .gt → f b = .gt) ∧
      ∀ b ∈ r.inorder, f a = .lt → f b = .lt := by
  rw [InOrder, inorder_node, List.pairwise_append, List.pairwise_cons] at h
  obtain ⟨hl, ⟨har, hr⟩, hlr⟩ := h
  exact ⟨hl, hr, fun b hb ↦ (hlr b hb a (by simp)).2, fun b hb ↦ (har b hb).1⟩

theorem find_some {f : α → Ordering} {t : Tree ι α} {i : ℕ} (h : t.find f = some i) :
    ∃ a, t.inorder[i]? = some a ∧ f a = .eq := by
  induction t generalizing i with
  | leaf => simp [find] at h
  | node tag l a r ihl ihr =>
    rw [find] at h
    cases hf : f a with
    | lt =>
      rw [hf] at h
      obtain ⟨b, hb, hfb⟩ := ihl h
      obtain ⟨hi, -⟩ := List.getElem?_eq_some_iff.mp hb
      exact ⟨b, by rw [inorder_node, List.getElem?_append_left hi, hb], hfb⟩
    | gt =>
      rw [hf] at h
      obtain ⟨j, hj, rfl⟩ := Option.map_eq_some_iff.mp h
      obtain ⟨b, hb, hfb⟩ := ihr hj
      refine ⟨b, ?_, hfb⟩
      rw [inorder_node, List.getElem?_append_right (by omega)]
      have hsub : j + (l.inorder.length + 1) - l.inorder.length = j + 1 := by omega
      rw [hsub, List.getElem?_cons_succ, hb]
    | eq =>
      rw [hf] at h
      cases h
      exact ⟨a, by simp, hf⟩

theorem find_none {f : α → Ordering} {t : Tree ι α} (ht : InOrder f t.inorder)
    (h : t.find f = none) : ∀ a ∈ t.inorder, f a ≠ .eq := by
  induction t with
  | leaf => simp
  | node tag l a r ihl ihr =>
    obtain ⟨hl, hr, hla, har⟩ := inOrder_node ht
    rw [find] at h
    intro b hb
    rw [inorder_node, List.mem_append, List.mem_cons] at hb
    cases hf : f a with
    | lt =>
      rw [hf] at h
      rcases hb with hb | rfl | hb
      · exact ihl hl h b hb
      · simp [hf]
      · simp [har b hb hf]
    | gt =>
      rw [hf] at h
      rcases hb with hb | rfl | hb
      · simp [hla b hb hf]
      · simp [hf]
      · exact ihr hr (Option.map_eq_none_iff.mp h) b hb
    | eq =>
      rw [hf] at h
      cases h

theorem perm_insertLeft (f : α → Ordering) (new : ι) (x : α) (t : Tree ι α) :
    (t.insertLeft f new x).inorder.Perm (x :: t.inorder) := by
  induction t with
  | leaf => exact List.Perm.refl [x]
  | node tag l a r ihl ihr =>
    have hleft : (node tag (l.insertLeft f new x) a r).inorder.Perm
        (x :: (node tag l a r).inorder) := ihl.append_right (a :: r.inorder)
    have hright : (node tag l a (r.insertLeft f new x)).inorder.Perm
        (x :: (node tag l a r).inorder) :=
      ((ihr.cons a).trans (List.Perm.swap x a _)).append_left l.inorder |>.trans List.perm_middle
    rw [insertLeft]
    split
    · exact hright
    · exact hleft

theorem inorder_insertLeft {f : α → Ordering} {t : Tree ι α} (new : ι) (x : α)
    (ht : InOrder f t.inorder) :
    ∃ xs ys, t.inorder = xs ++ ys ∧ (t.insertLeft f new x).inorder = xs ++ x :: ys ∧
      (∀ a ∈ xs, f a = .gt) ∧ ∀ a ∈ ys, f a ≠ .gt := by
  induction t with
  | leaf => exact ⟨[], [], by simp [insertLeft]⟩
  | node tag l a r ihl ihr =>
    obtain ⟨hl, hr, hla, har⟩ := inOrder_node ht
    by_cases hf : f a = .gt
    · obtain ⟨xs, ys, hxy, hins, hxs, hys⟩ := ihr hr
      refine ⟨l.inorder ++ a :: xs, ys, by simp [hxy], by simp [insertLeft, hf, hins], ?_, hys⟩
      intro b hb
      rw [List.mem_append, List.mem_cons] at hb
      rcases hb with hb | rfl | hb
      · exact hla b hb hf
      · exact hf
      · exact hxs b hb
    · obtain ⟨xs, ys, hxy, hins, hxs, hys⟩ := ihl hl
      have hdown : (node tag l a r).insertLeft f new x = node tag (l.insertLeft f new x) a r := by
        rw [insertLeft]
        split
        · next hgt => exact (hf hgt).elim
        · rfl
      refine ⟨xs, ys ++ a :: r.inorder, by simp [hxy], by simp [hdown, hins], hxs, ?_⟩
      intro b hb hgt
      rw [List.mem_append, List.mem_cons] at hb
      rcases hb with hb | rfl | hb
      · exact hys b hb hgt
      · exact hf hgt
      · rw [InOrder, inorder_node, List.pairwise_append, List.pairwise_cons] at ht
        exact hf ((ht.2.1.1 b hb).2 hgt)

/-- All equal elements, each in front of those below it. -/
def findAll (f : α → Ordering) : Tree ι α → List α
  | leaf => []
  | node _ l a r =>
    match f a with
    | .lt => l.findAll f
    | .gt => r.findAll f
    | .eq => a :: (l.findAll f ++ r.findAll f)

theorem perm_findAll {f : α → Ordering} {t : Tree ι α} (ht : InOrder f t.inorder) :
    List.Perm (t.findAll f) (t.inorder.filter fun a ↦ f a = .eq) := by
  induction t with
  | leaf => exact List.Perm.refl []
  | node tag l a r ihl ihr =>
    obtain ⟨hl, hr, hla, har⟩ := inOrder_node ht
    have hside (xs : List α) (o : Ordering) (ho : o ≠ .eq) (h : ∀ b ∈ xs, f b = o) :
        xs.filter (fun b ↦ f b = .eq) = [] := by
      refine List.filter_eq_nil_iff.mpr fun b hb ↦ ?_
      rw [h b hb]
      simpa using ho
    rw [inorder_node, List.filter_append, List.filter_cons, findAll]
    cases hf : f a with
    | lt =>
      rw [hside r.inorder .lt (by decide) fun b hb ↦ har b hb hf]
      simpa using ihl hl
    | gt =>
      rw [hside l.inorder .gt (by decide) fun b hb ↦ hla b hb hf]
      simpa using ihr hr
    | eq =>
      simp only [decide_true, if_true]
      exact (((ihl hl).append (ihr hr)).cons a).trans List.perm_middle.symm

end Tree

end Libobject
