import Libobject.Lib.SearchTree

/-!
# Cursors in a binary tree

A cursor is a node with the path up to the root. The next element in order is the first one of the
right subtree or, where that is empty, the parent of the nearest ancestor-or-self that is a left
child. A node is known by a mark, which no two elements of the tree share.
-/

namespace Libobject.Tree

variable {ι α : Type*}

/-- One step of the path: the node is the left or the right child of its parent. -/
inductive Frame (ι α : Type*)
  | left (tag : ι) (a : α) (r : Tree ι α)
  | right (tag : ι) (l : Tree ι α) (a : α)

def before : List (Frame ι α) → List α
  | [] => []
  | .left _ _ _ :: up => before up
  | .right _ l a :: up => before up ++ (l.inorder ++ [a])

def after : List (Frame ι α) → List α
  | [] => []
  | .left _ a r :: up => a :: (r.inorder ++ after up)
  | .right _ _ _ :: up => after up

def first : Tree ι α → Option α
  | leaf => none
  | node _ leaf a _ => some a
  | node _ (node tag l b r) _ _ => first (node tag l b r)

def climb : List (Frame ι α) → Option α
  | [] => none
  | .left _ a _ :: _ => some a
  | .right _ _ _ :: up => climb up

def succ (r : Tree ι α) (up : List (Frame ι α)) : Option α :=
  match r with
  | leaf => climb up
  | node tag l a r => first (node tag l a r)

/-- The node whose element has the mark: its subtrees, its element and its path. -/
def locate (mark : α → Bool) :
    Tree ι α → List (Frame ι α) → Option (Tree ι α × α × Tree ι α × List (Frame ι α))
  | leaf, _ => none
  | node tag l a r, up =>
    if mark a then some (l, a, r, up)
    else (locate mark l (.left tag a r :: up)).or (locate mark r (.right tag l a :: up))

theorem locate_node (mark : α → Bool) (tag : ι) (l : Tree ι α) (a : α) (r : Tree ι α)
    (up : List (Frame ι α)) :
    (node tag l a r).locate mark up =
      if mark a then some (l, a, r, up)
      else (l.locate mark (.left tag a r :: up)).or
        (r.locate mark (.right tag l a :: up)) := rfl

theorem first_eq (t : Tree ι α) : t.first = t.inorder.head? := by
  induction t with
  | leaf => rfl
  | node tag l a r ihl _ =>
    cases l with
    | leaf => rfl
    | node tag' l' b r' =>
      rw [first, ihl]
      simp

theorem climb_eq (up : List (Frame ι α)) : climb up = (after up).head? := by
  induction up with
  | nil => rfl
  | cons s up ih =>
    cases s with
    | left tag a r => rfl
    | right tag l a => exact ih

theorem succ_eq (r : Tree ι α) (up : List (Frame ι α)) :
    succ r up = (r.inorder ++ after up).head? := by
  cases r with
  | leaf => exact climb_eq up
  | node tag l a r =>
    rw [succ, first_eq]
    simp

theorem locate_some {mark : α → Bool} {t l r : Tree ι α} {a : α} {up path : List (Frame ι α)}
    (h : t.locate mark up = some (l, a, r, path)) :
    mark a = true ∧ before up ++ t.inorder ++ after up =
      before path ++ l.inorder ++ a :: (r.inorder ++ after path) := by
  induction t generalizing up with
  | leaf => cases h
  | node tag l' b r' ihl ihr =>
    rw [locate_node] at h
    split at h
    · next hb =>
        cases h
        exact ⟨hb, by simp⟩
    · rcases Option.or_eq_some_iff.mp h with h | ⟨-, h⟩
      · obtain ⟨ha, heq⟩ := ihl h
        refine ⟨ha, ?_⟩
        rw [← heq]
        simp [before, after]
      · obtain ⟨ha, heq⟩ := ihr h
        refine ⟨ha, ?_⟩
        rw [← heq]
        simp [before, after]

theorem locate_none {mark : α → Bool} {t : Tree ι α} {up : List (Frame ι α)}
    (h : t.locate mark up = none) : ∀ a ∈ t.inorder, mark a = false := by
  induction t generalizing up with
  | leaf => simp
  | node tag l b r ihl ihr =>
    rw [locate_node] at h
    split at h
    · cases h
    · next hb =>
        rw [Option.or_eq_none_iff] at h
        intro a ha
        rw [inorder_node, List.mem_append, List.mem_cons] at ha
        rcases ha with ha | rfl | ha
        · exact ihl h.1 a ha
        · simpa using hb
        · exact ihr h.2 a ha

variable {κ : Type*}

theorem split_unique {mark : α → κ} {xs ys zs ws : List α} {a b : α}
    (hnodup : ((xs ++ a :: ys).map mark).Nodup) (h : xs ++ a :: ys = zs ++ b :: ws)
    (hab : mark b = mark a) : a = b ∧ ys = ws := by
  induction xs generalizing zs with
  | nil =>
    cases zs with
    | nil =>
      cases h
      exact ⟨rfl, rfl⟩
    | cons c zs =>
      rw [List.nil_append, List.cons_append, List.cons.injEq] at h
      obtain ⟨rfl, rfl⟩ := h
      simp [hab] at hnodup
  | cons x xs ih =>
    cases zs with
    | nil =>
      rw [List.cons_append, List.nil_append, List.cons.injEq] at h
      obtain ⟨rfl, rfl⟩ := h
      simp [hab] at hnodup
    | cons c zs =>
      rw [List.cons_append, List.cons_append, List.cons.injEq] at h
      exact ih (List.nodup_cons.mp hnodup).2 h.2

variable [DecidableEq κ]

/-- The element with the mark `p`; `none` where the tree has none. -/
def at? (mark : α → κ) (t : Tree ι α) (p : κ) : Option α :=
  (t.locate (fun a ↦ mark a = p) []).map fun c ↦ c.2.1

/-- The element after the one with the mark `p`; `none` where the tree has none with it. -/
def next? (mark : α → κ) (t : Tree ι α) (p : κ) : Option (Option α) :=
  (t.locate (fun a ↦ mark a = p) []).map fun c ↦ succ c.2.2.1 c.2.2.2

theorem locate_of_split {mark : α → κ} {t : Tree ι α} {xs ys : List α} {a : α}
    (hnodup : (t.inorder.map mark).Nodup) (ht : t.inorder = xs ++ a :: ys) :
    ∃ l r path, t.locate (fun b ↦ mark b = mark a) [] = some (l, a, r, path) ∧
      r.inorder ++ after path = ys := by
  cases hloc : t.locate (fun b ↦ mark b = mark a) [] with
  | none =>
    have := locate_none hloc a (by simp [ht])
    simp at this
  | some c =>
    obtain ⟨l, b, r, path⟩ := c
    obtain ⟨hb, heq⟩ := locate_some hloc
    have hmark : mark b = mark a := by simpa using hb
    have hsplit : xs ++ a :: ys =
        (before path ++ l.inorder) ++ b :: (r.inorder ++ after path) := by
      rw [← ht, ← heq]
      simp [before, after]
    rw [ht] at hnodup
    obtain ⟨rfl, rfl⟩ := split_unique hnodup hsplit hmark
    exact ⟨l, r, path, rfl, rfl⟩

theorem at?_of_split {mark : α → κ} {t : Tree ι α} {xs ys : List α} {a : α}
    (hnodup : (t.inorder.map mark).Nodup) (ht : t.inorder = xs ++ a :: ys) :
    t.at? mark (mark a) = some a := by
  obtain ⟨l, r, path, hloc, -⟩ := locate_of_split hnodup ht
  rw [at?, hloc, Option.map_some]

theorem next?_of_split {mark : α → κ} {t : Tree ι α} {xs ys : List α} {a : α}
    (hnodup : (t.inorder.map mark).Nodup) (ht : t.inorder = xs ++ a :: ys) :
    t.next? mark (mark a) = some ys.head? := by
  obtain ⟨l, r, path, hloc, hrest⟩ := locate_of_split hnodup ht
  rw [next?, hloc, Option.map_some, succ_eq, hrest]

theorem mem_of_next? {mark : α → κ} {t : Tree ι α} {p : κ} {later : Option α}
    (h : t.next? mark p = some later) : ∃ a ∈ t.inorder, mark a = p := by
  obtain ⟨⟨l, a, r, path⟩, hloc, -⟩ := Option.map_eq_some_iff.mp h
  obtain ⟨ha, heq⟩ := locate_some hloc
  refine ⟨a, ?_, of_decide_eq_true ha⟩
  have hself : t.inorder = before path ++ l.inorder ++ a :: (r.inorder ++ after path) := by
    simpa [before, after] using heq
  simp [hself]

/-- The elements from the one with the mark on, `none` where the end does not come in time. -/
def walk (mark : α → κ) (t : Tree ι α) : ℕ → Option κ → Option (List α)
  | _, none => some []
  | 0, some _ => none
  | n + 1, some p =>
    match t.at? mark p, t.next? mark p with
    | some a, some later => (walk mark t n (later.map mark)).map (a :: ·)
    | _, _ => none

theorem walk_of_split {mark : α → κ} {t : Tree ι α} (xs : List α) {ys : List α} {n : ℕ}
    (hnodup : (t.inorder.map mark).Nodup) (ht : t.inorder = xs ++ ys) (hn : ys.length ≤ n) :
    t.walk mark n (ys.head?.map mark) = some ys := by
  induction ys generalizing xs n with
  | nil => cases n <;> rfl
  | cons a ys ih =>
    obtain ⟨m, rfl⟩ : ∃ m, n = m + 1 := ⟨n - 1, by simp at hn; omega⟩
    have hrest : t.walk mark m (ys.head?.map mark) = some ys := by
      apply ih (xs ++ [a])
      · simpa using ht
      · simpa using hn
    rw [List.head?_cons, Option.map_some, walk, at?_of_split hnodup ht,
      next?_of_split hnodup ht]
    simp only [hrest, Option.map_some]

theorem walk_first {mark : α → κ} {t : Tree ι α} {n : ℕ} (hnodup : (t.inorder.map mark).Nodup)
    (hn : t.inorder.length ≤ n) : t.walk mark n (t.first.map mark) = some t.inorder := by
  rw [first_eq]
  exact walk_of_split [] hnodup rfl hn

end Libobject.Tree
