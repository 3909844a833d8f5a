import Libobject.Lib.SearchTree
import Mathlib.Data.List.Perm.Basic
import Mathlib.Logic.Function.Iterate

/-!
# The map over a red-black tree

The map compares keys with the function it was given and keeps entries of one key. How the tree
is rebalanced after an insertion or an erasure is a parameter: the colours decide the shape of the
tree, never the order of its entries.
-/

namespace Libobject

open Std

inductive Color
  | red
  | black
  deriving DecidableEq

/-- `rb_insert_color` and `rb_erase`; the latter is told the position of the node. -/
structure Rebalance (α : Type*) where
  insertColor : Tree Color α → Tree Color α
  erase : Tree Color α → ℕ → Tree Color α
  inorder_insertColor : ∀ t, (insertColor t).inorder = t.inorder
  inorder_erase : ∀ t i, (erase t i).inorder = t.inorder.eraseIdx i

namespace Tree

variable {α : Type*}

def blackRoot : Tree Color α → Tree Color α
  | leaf => leaf
  | node _ l a r => node .black l a r

def join : Tree Color α → Tree Color α → Tree Color α
  | leaf, r => r
  | node tag l a r', r => node tag l a (r'.join r)

def eraseAt : Tree Color α → ℕ → Tree Color α
  | leaf, _ => leaf
  | node tag l a r, i =>
    if i < l.inorder.length then node tag (l.eraseAt i) a r
    else if i = l.inorder.length then l.join r
    else node tag l a (r.eraseAt (i - (l.inorder.length + 1)))

@[simp] theorem inorder_blackRoot (t : Tree Color α) : t.blackRoot.inorder = t.inorder := by
  cases t <;> rfl

theorem inorder_join (l r : Tree Color α) : (l.join r).inorder = l.inorder ++ r.inorder := by
  induction l with
  | leaf => rfl
  | node tag l a r' ihl ihr => simp [join, ihr]

theorem inorder_eraseAt (t : Tree Color α) (i : ℕ) :
    (t.eraseAt i).inorder = t.inorder.eraseIdx i := by
  induction t generalizing i with
  | leaf => rfl
  | node tag l a r ihl ihr =>
    rw [eraseAt]
    split
    · next hlt => rw [inorder_node, inorder_node, ihl, List.eraseIdx_append_of_lt_length hlt]
    · next hge =>
        rw [inorder_node, List.eraseIdx_append_of_length_le (by omega)]
        split
        · next heq => rw [inorder_join, heq, Nat.sub_self, List.eraseIdx_cons_zero]
        · next hne =>
            obtain ⟨j, rfl⟩ := Nat.exists_eq_add_of_lt (Nat.lt_of_le_of_ne (by omega) (Ne.symm hne))
            have hsub : l.inorder.length + j + 1 - l.inorder.length = j + 1 := by omega
            have hsub' : l.inorder.length + j + 1 - (l.inorder.length + 1) = j := by omega
            rw [inorder_node, ihr, hsub, hsub', List.eraseIdx_cons_succ]

end Tree

/-- No rotations, and a black root: what the functions do to a small tree that is in balance. -/
def Rebalance.small (α : Type*) : Rebalance α where
  insertColor := Tree.blackRoot
  erase t i := (t.eraseAt i).blackRoot
  inorder_insertColor := Tree.inorder_blackRoot
  inorder_erase t i := (Tree.inorder_blackRoot _).trans (Tree.inorder_eraseAt t i)

def Sorted {K V : Type*} (cmp : K → K → Ordering) (es : List (K × V)) : Prop :=
  es.Pairwise (fun a b ↦ (cmp a.1 b.1).isLE)

structure RbTreeMap {K : Type*} (cmp : K → K → Ordering) (V : Type*) where
  root : Tree Color (K × V)
  count : ℕ
  count_eq : count = root.inorder.length
  sorted : Sorted cmp root.inorder

variable {K V : Type*} {cmp : K → K → Ordering}

theorem inOrder_of_sorted [TransCmp cmp] (k : K) {es : List (K × V)} (h : Sorted cmp es) :
    Tree.InOrder (fun e ↦ cmp k e.1) es := by
  refine h.imp ?_
  intro a b hab
  refine ⟨fun ha ↦ TransCmp.lt_of_lt_of_isLE ha hab, fun hb ↦ ?_⟩
  exact TransCmp.gt_of_gt_of_isGE hb (OrientedCmp.isGE_of_isLE hab)

theorem sorted_insert [TransCmp cmp] {k : K} {v : V} {xs ys : List (K × V)}
    (h : Sorted cmp (xs ++ ys)) (hxs : ∀ e ∈ xs, cmp k e.1 = .gt)
    (hys : ∀ e ∈ ys, cmp k e.1 ≠ .gt) : Sorted cmp (xs ++ (k, v) :: ys) := by
  rw [Sorted, List.pairwise_append] at h ⊢
  obtain ⟨hx, hy, hxy⟩ := h
  refine ⟨hx, List.pairwise_cons.mpr ⟨fun e he ↦ Ordering.isLE_iff_ne_gt.mpr (hys e he), hy⟩, ?_⟩
  intro a ha b hb
  rcases List.mem_cons.mp hb with rfl | hb
  · have hlt : cmp a.1 k = .lt := OrientedCmp.lt_of_gt (hxs a ha)
    simp [hlt]
  · exact hxy a ha b hb

namespace RbTreeMap

def empty : RbTreeMap cmp V := ⟨.leaf, 0, rfl, List.Pairwise.nil⟩

def entries (m : RbTreeMap cmp V) : List (K × V) := m.root.inorder

@[simp] theorem entries_empty : (empty : RbTreeMap cmp V).entries = [] := rfl

def add [TransCmp cmp] (rb : Rebalance (K × V)) (m : RbTreeMap cmp V) (k : K) (v : V) :
    RbTreeMap cmp V where
  root := rb.insertColor (m.root.insertLeft (fun e ↦ cmp k e.1) .red (k, v))
  count := m.count + 1
  count_eq := by
    obtain ⟨xs, ys, hxy, hins, -⟩ :=
      Tree.inorder_insertLeft Color.red (k, v) (inOrder_of_sorted k m.sorted)
    rw [rb.inorder_insertColor, hins, m.count_eq, hxy]
    simp only [List.length_append, List.length_cons]
    omega
  sorted := by
    obtain ⟨xs, ys, hxy, hins, hxs, hys⟩ :=
      Tree.inorder_insertLeft Color.red (k, v) (inOrder_of_sorted k m.sorted)
    rw [rb.inorder_insertColor, hins]
    exact sorted_insert (hxy ▸ m.sorted) hxs hys

/-- The position of the entry that a search for `k` comes to first. -/
def position (m : RbTreeMap cmp V) (k : K) : Option ℕ := m.root.find (fun e ↦ cmp k e.1)

def search (m : RbTreeMap cmp V) (k : K) : Option V :=
  match m.position k with
  | none => none
  | some i => m.entries[i]?.map Prod.snd

def del (rb : Rebalance (K × V)) (m : RbTreeMap cmp V) (k : K) : RbTreeMap cmp V :=
  match h : m.position k with
  | none => m
  | some i =>
    { root := rb.erase m.root i
      count := m.count - 1
      count_eq := by
        obtain ⟨e, he, -⟩ := Tree.find_some h
        obtain ⟨hi, -⟩ := List.getElem?_eq_some_iff.mp he
        rw [rb.inorder_erase, List.length_eraseIdx_of_lt hi, m.count_eq]
      sorted := by
        rw [rb.inorder_erase]
        exact m.sorted.sublist (List.eraseIdx_sublist _ _) }

theorem entries_add [TransCmp cmp] (rb : Rebalance (K × V)) (m : RbTreeMap cmp V) (k : K) (v : V) :
    List.Perm (m.add rb k v).entries ((k, v) :: m.entries) := by
  rw [entries, entries, add, rb.inorder_insertColor]
  exact Tree.perm_insertLeft ..

theorem search_some {m : RbTreeMap cmp V} {k : K} {v : V} (h : m.search k = some v) :
    ∃ k', cmp k k' = .eq ∧ (k', v) ∈ m.entries := by
  rw [search] at h
  cases hi : m.position k with
  | none => simp [hi] at h
  | some i =>
    obtain ⟨e, he, heq⟩ := Tree.find_some hi
    have hget : m.entries[i]? = some e := he
    rw [hi] at h
    simp only [hget, Option.map_some, Option.some.injEq] at h
    exact ⟨e.1, heq, h ▸ List.mem_of_getElem? hget⟩

theorem search_none [TransCmp cmp] {m : RbTreeMap cmp V} {k : K} (h : m.search k = none) :
    ∀ e ∈ m.entries, cmp k e.1 ≠ .eq := by
  apply Tree.find_none (inOrder_of_sorted k m.sorted)
  cases hi : m.position k with
  | none => exact hi
  | some i =>
    obtain ⟨e, he, -⟩ := Tree.find_some hi
    have hget : m.entries[i]? = some e := he
    rw [search, hi] at h
    simp [hget] at h

theorem entries_del_of_position (rb : Rebalance (K × V)) {m : RbTreeMap cmp V} {k : K} {i : ℕ}
    (h : m.position k = some i) : (m.del rb k).entries = m.entries.eraseIdx i := by
  rw [del]
  split
  · next hnone => rw [h] at hnone; cases hnone
  · next j hj =>
      rw [h] at hj
      cases hj
      exact rb.inorder_erase _ _

theorem entries_del (rb : Rebalance (K × V)) {m : RbTreeMap cmp V} {k : K} {v : V}
    (h : m.search k = some v) :
    ∃ k', cmp k k' = .eq ∧ List.Perm m.entries ((k', v) :: (m.del rb k).entries) := by
  rw [search] at h
  cases hi : m.position k with
  | none => simp [hi] at h
  | some i =>
    obtain ⟨e, he, heq⟩ := Tree.find_some hi
    have hget : m.entries[i]? = some e := he
    rw [hi] at h
    simp only [hget, Option.map_some, Option.some.injEq] at h
    obtain ⟨hlt, hei⟩ := List.getElem?_eq_some_iff.mp hget
    refine ⟨e.1, heq, ?_⟩
    rw [entries_del_of_position rb hi, ← h, ← hei]
    exact (List.getElem_cons_eraseIdx_perm hlt).symm

theorem del_of_search_none (rb : Rebalance (K × V)) {m : RbTreeMap cmp V} {k : K}
    (h : m.search k = none) : m.del rb k = m := by
  rw [del]
  split
  · rfl
  · next i hi =>
      obtain ⟨e, he, -⟩ := Tree.find_some hi
      have hget : m.entries[i]? = some e := he
      rw [search, hi] at h
      simp [hget] at h

/-- The values of all entries of a key. -/
def search_all_same_key (m : RbTreeMap cmp V) (k : K) : List V :=
  (m.root.findAll fun e ↦ cmp k e.1).map Prod.snd

theorem perm_search_all_same_key [TransCmp cmp] (m : RbTreeMap cmp V) (k : K) :
    List.Perm (m.search_all_same_key k)
      ((m.entries.filter fun e ↦ cmp k e.1 = .eq).map Prod.snd) :=
  (Tree.perm_findAll (inOrder_of_sorted k m.sorted)).map Prod.snd

/-- What `n` deletions of a key take away. -/
def taken (rb : Rebalance (K × V)) (m : RbTreeMap cmp V) (k : K) : ℕ → List V
  | 0 => []
  | n + 1 =>
    match m.search k with
    | none => []
    | some v => v :: taken rb (m.del rb k) k n

/-- What `n` deletions of a key leave. -/
def dels (rb : Rebalance (K × V)) (m : RbTreeMap cmp V) (k : K) (n : ℕ) : RbTreeMap cmp V :=
  (fun m ↦ m.del rb k)^[n] m

theorem dels_of_search_none (rb : Rebalance (K × V)) {m : RbTreeMap cmp V} {k : K}
    (h : m.search k = none) (n : ℕ) : m.dels rb k n = m :=
  Function.iterate_fixed (del_of_search_none rb h) n

theorem entries_dels [LawfulEqCmp cmp] (rb : Rebalance (K × V)) (m : RbTreeMap cmp V) (k : K)
    (n : ℕ) : List.Perm m.entries ((m.taken rb k n).map (k, ·) ++ (m.dels rb k n).entries) := by
  induction n generalizing m with
  | zero => exact List.Perm.refl _
  | succ n ih =>
    rw [taken]
    cases hsearch : m.search k with
    | none => rw [dels_of_search_none rb hsearch, List.map_nil, List.nil_append]
    | some v =>
      obtain ⟨k', hk, hdel⟩ := entries_del rb hsearch
      obtain rfl := LawfulEqCmp.eq_of_compare hk
      exact hdel.trans ((ih (m.del rb k)).cons (k, v))

end RbTreeMap

end Libobject
