import Mathlib.Algebra.BigOperators.Group.List.Basic
import Mathlib.Data.Int.Notation

/-!
# Trees with any number of children, visited in preorder

A visit may change the data of the node it is at and a state, and it ends the walk with an answer
that is not zero. A walk over a tree is a run along the nodes in preorder, each with the children
it had before.
-/

namespace Libobject

inductive Rose (α : Type*) where
  | node (data : α) (child : List (Rose α))

namespace Rose

variable {α β σ : Type*}

def data : Rose α → α
  | node a _ => a

def child : Rose α → List (Rose α)
  | node _ cs => cs

@[simp] theorem data_node (a : α) (cs : List (Rose α)) : (node a cs).data = a := rfl

@[simp] theorem child_node (a : α) (cs : List (Rose α)) : (node a cs).child = cs := rfl

theorem eta (t : Rose α) : node t.data t.child = t := by
  cases t
  rfl

mutual

def map (f : α → β) : Rose α → Rose β
  | node a cs => node (f a) (mapAll f cs)

def mapAll (f : α → β) : List (Rose α) → List (Rose β)
  | [] => []
  | t :: ts => map f t :: mapAll f ts

end

mutual

/-- The data of the nodes in preorder. -/
def toList : Rose α → List α
  | node a cs => a :: toListAll cs

def toListAll : List (Rose α) → List α
  | [] => []
  | t :: ts => toList t ++ toListAll ts

end

mutual

/-- The nodes in preorder, with their children. -/
def nodes : Rose α → List (α × List (Rose α))
  | node a cs => (a, cs) :: nodesAll cs

def nodesAll : List (Rose α) → List (α × List (Rose α))
  | [] => []
  | t :: ts => nodes t ++ nodesAll ts

end

section Map

variable (f : α → β)

theorem map_data_mapAll (ts : List (Rose α)) :
    (mapAll f ts).map data = ts.map fun t ↦ f t.data := by
  induction ts with
  | nil => rfl
  | cons t ts ih =>
    obtain ⟨a, cs⟩ := t
    rw [mapAll, List.map_cons, List.map_cons, ih, map, data_node, data_node]

theorem mapAll_eq_nil {ts : List (Rose α)} : mapAll f ts = [] ↔ ts = [] := by
  cases ts with
  | nil => exact iff_of_true rfl rfl
  | cons t ts => exact iff_of_false (List.cons_ne_nil _ _) (List.cons_ne_nil _ _)

mutual

theorem toList_map (t : Rose α) : toList (map f t) = (toList t).map f := by
  obtain ⟨a, cs⟩ := t
  rw [map, toList, toList, List.map_cons, toListAll_mapAll cs]

theorem toListAll_mapAll (ts : List (Rose α)) :
    toListAll (mapAll f ts) = (toListAll ts).map f := by
  cases ts with
  | nil => rfl
  | cons t ts =>
    rw [mapAll, toListAll, toListAll, List.map_append, toList_map t, toListAll_mapAll ts]

end

mutual

theorem nodes_map (t : Rose α) :
    nodes (map f t) = (nodes t).map fun n ↦ (f n.1, mapAll f n.2) := by
  obtain ⟨a, cs⟩ := t
  rw [map, nodes, nodes, List.map_cons, nodesAll_mapAll cs]

theorem nodesAll_mapAll (ts : List (Rose α)) :
    nodesAll (mapAll f ts) = (nodesAll ts).map fun n ↦ (f n.1, mapAll f n.2) := by
  cases ts with
  | nil => rfl
  | cons t ts =>
    rw [mapAll, nodesAll, nodesAll, List.map_append, nodes_map t, nodesAll_mapAll ts]

end

mutual

theorem map_fst_nodes (t : Rose α) : (nodes t).map Prod.fst = toList t := by
  obtain ⟨a, cs⟩ := t
  rw [nodes, toList, List.map_cons, map_fst_nodesAll cs]

theorem map_fst_nodesAll (ts : List (Rose α)) : (nodesAll ts).map Prod.fst = toListAll ts := by
  cases ts with
  | nil => rfl
  | cons t ts =>
    rw [nodesAll, toListAll, List.map_append, map_fst_nodes t, map_fst_nodesAll ts]

end

end Map

section Preorder

variable (visit : Option α → α → List (Rose α) → σ → α × σ × ℤ)

mutual

/-- The walk over a tree whose top hangs under a node with the data `parent`. -/
def preorder (parent : Option α) : Rose α → σ → Rose α × σ × ℤ
  | node a cs, s =>
    let (a, s, r) := visit parent a cs s
    if r ≠ 0 then (node a cs, s, r)
    else
      let (cs, s, r) := preorderAll (some a) cs s
      (node a cs, s, r)

def preorderAll (parent : Option α) : List (Rose α) → σ → List (Rose α) × σ × ℤ
  | [], s => ([], s, 0)
  | t :: ts, s =>
    let (t, s, r) := preorder parent t s
    if r ≠ 0 then (t :: ts, s, r)
    else
      let (ts, s, r) := preorderAll parent ts s
      (t :: ts, s, r)

end

/-- The visits of the nodes one after another, up to the first that ends the walk: the data they
leave, the last state and the last answer. -/
inductive Visits : σ → List (α × List (Rose α)) → List α → σ → ℤ → Prop
  | nil (s : σ) : Visits s [] [] s 0
  | stop {parent : Option α} {a a' : α} {cs : List (Rose α)} {s s' : σ} {r : ℤ}
      (ns : List (α × List (Rose α))) (h : visit parent a cs s = (a', s', r)) (hr : r ≠ 0) :
      Visits s ((a, cs) :: ns) [a'] s' r
  | cons {parent : Option α} {a a' : α} {cs : List (Rose α)} {s s' s'' : σ} {r : ℤ}
      {ns : List (α × List (Rose α))} {as : List α} (h : visit parent a cs s = (a', s', 0))
      (hs : Visits s' ns as s'' r) : Visits s ((a, cs) :: ns) (a' :: as) s'' r

variable {visit} {s s' s'' : σ} {ns ms : List (α × List (Rose α))} {as bs : List α} {r : ℤ}

theorem Visits.append (hn : Visits visit s ns as s' 0) (hm : Visits visit s' ms bs s'' r) :
    Visits visit s (ns ++ ms) (as ++ bs) s'' r := by
  generalize hr : (0 : ℤ) = r' at hn
  induction hn with
  | nil => exact hm
  | stop ns h hne => exact absurd hr.symm hne
  | cons h _ ih => exact .cons h (ih hm hr)

theorem Visits.append_of_ne (hn : Visits visit s ns as s' r) (hr : r ≠ 0)
    (ms : List (α × List (Rose α))) : Visits visit s (ns ++ ms) as s' r := by
  induction hn with
  | nil => exact absurd rfl hr
  | stop ns h hne => exact .stop (ns ++ ms) h hne
  | cons h _ ih => exact .cons h (ih hr)

mutual

theorem preorder_visits (parent : Option α) (t : Rose α) (s : σ) :
    ∃ as, Visits visit s (nodes t) as (preorder visit parent t s).2.1
        (preorder visit parent t s).2.2 ∧
      ((preorder visit parent t s).2.2 = 0 → as = toList (preorder visit parent t s).1) := by
  obtain ⟨a, cs⟩ := t
  obtain ⟨⟨a', s', r⟩, hvisit⟩ : ∃ x, visit parent a cs s = x := ⟨_, rfl⟩
  rw [preorder, hvisit, nodes]
  by_cases hr : r = 0
  · subst hr
    obtain ⟨as, hvisits, has⟩ := preorderAll_visits (some a') cs s'
    refine ⟨a' :: as, .cons hvisit hvisits, fun h ↦ ?_⟩
    exact congrArg (a' :: ·) (has h)
  · simp only [ne_eq, hr, not_false_eq_true, if_true]
    exact ⟨[a'], .stop _ hvisit hr, fun h ↦ h.elim⟩

theorem preorderAll_visits (parent : Option α) (ts : List (Rose α)) (s : σ) :
    ∃ as, Visits visit s (nodesAll ts) as (preorderAll visit parent ts s).2.1
        (preorderAll visit parent ts s).2.2 ∧
      ((preorderAll visit parent ts s).2.2 = 0 →
        as = toListAll (preorderAll visit parent ts s).1) := by
  cases ts with
  | nil => exact ⟨[], .nil s, fun _ ↦ rfl⟩
  | cons t ts =>
    obtain ⟨as, hvisits, has⟩ := preorder_visits parent t s
    obtain ⟨⟨t', s', r⟩, hpre⟩ : ∃ x, preorder visit parent t s = x := ⟨_, rfl⟩
    rw [hpre] at hvisits has
    rw [preorderAll, hpre, nodesAll]
    by_cases hr : r = 0
    · subst hr
      obtain ⟨bs, hrest, hbs⟩ := preorderAll_visits parent ts s'
      refine ⟨as ++ bs, hvisits.append hrest, fun h ↦ ?_⟩
      have hts := hbs h
      rw [has rfl, hts]
      rfl
    · simp only [ne_eq, hr, not_false_eq_true, if_true]
      exact ⟨as, hvisits.append_of_ne hr _, fun h ↦ h.elim⟩

end

mutual

theorem map_preorder {key : α → β} (hkey : ∀ parent a cs s, key (visit parent a cs s).1 = key a)
    (parent : Option α) (t : Rose α) (s : σ) :
    map key (preorder visit parent t s).1 = map key t := by
  obtain ⟨a, cs⟩ := t
  obtain ⟨⟨a', s', r⟩, hvisit⟩ : ∃ x, visit parent a cs s = x := ⟨_, rfl⟩
  have ha := hkey parent a cs s
  rw [hvisit] at ha
  rw [preorder, hvisit]
  by_cases hr : r = 0
  · subst hr
    have hcs := mapAll_preorderAll hkey (some a') cs s'
    simpa only [ne_eq, not_true_eq_false, if_false, map, ha] using congrArg (node (key a)) hcs
  · simp only [ne_eq, hr, not_false_eq_true, if_true, map, ha]

theorem mapAll_preorderAll {key : α → β}
    (hkey : ∀ parent a cs s, key (visit parent a cs s).1 = key a) (parent : Option α)
    (ts : List (Rose α)) (s : σ) :
    mapAll key (preorderAll visit parent ts s).1 = mapAll key ts := by
  cases ts with
  | nil => rfl
  | cons t ts =>
    obtain ⟨⟨t', s', r⟩, hpre⟩ : ∃ x, preorder visit parent t s = x := ⟨_, rfl⟩
    have ht := map_preorder hkey parent t s
    rw [hpre] at ht
    rw [preorderAll, hpre]
    by_cases hr : r = 0
    · subst hr
      have hts := mapAll_preorderAll hkey parent ts s'
      simp only [ne_eq, not_true_eq_false, if_false, mapAll, ht, hts]
    · simp only [ne_eq, hr, not_false_eq_true, if_true, mapAll, ht]

end

end Preorder

end Rose

end Libobject
