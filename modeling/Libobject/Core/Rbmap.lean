import Libobject.Core.RbTreeMap
import Libobject.Lib.TreeCursor
import Libobject.Lib.Refine
import Mathlib.Data.BitVec
import Mathlib.Data.Int.Notation

/-!
# The red-black tree map under its calls

The map keeps the position of its first entry beside the tree. A position is the address of a
node, so the entries of the tree carry the addresses of their nodes; the allocator hands out
addresses that are not in use. Iteration starts at the kept position and follows `rb_next`. The
count does not overflow.
-/

namespace Libobject

open Std

variable {K V : Type*} {cmp : K → K → Ordering}

structure Rbmap (cmp : K → K → Ordering) (V : Type*) where
  tree : RbTreeMap cmp (ℕ × V)
  begin : Option ℕ
  fresh : ℕ

namespace Rbmap

abbrev Node (K V : Type*) := K × (ℕ × V)

def addr (e : Node K V) : ℕ := e.2.1

def entry (e : Node K V) : K × V := (e.1, e.2.2)

def init : Rbmap cmp V := ⟨.empty, none, 0⟩

def nodes (m : Rbmap cmp V) : List (Node K V) := m.tree.entries

def rb_first (m : RbTreeMap cmp (ℕ × V)) : Option ℕ := m.root.first.map addr

def rb_next (m : RbTreeMap cmp (ℕ × V)) (p : ℕ) : Option (Option ℕ) :=
  (m.root.next? addr p).map fun n ↦ n.map addr

/-- `rbtree_map_insert`; `mem` says whether the allocator has memory for the node. -/
def insert [TransCmp cmp] (rb : Rebalance (Node K V)) (m : Rbmap cmp V) (mem : Bool) (k : K)
    (v : V) : Rbmap cmp V × ℤ :=
  if mem then
    let tree := m.tree.add rb k (m.fresh, v)
    (⟨tree, rb_first tree, m.fresh + 1⟩, 1)
  else (m, -1)

/-- `rbtree_map_search`: the node that the search stops at. -/
def search (m : Rbmap cmp V) (k : K) : Option (Node K V) :=
  match m.tree.position k with
  | none => none
  | some i => m.nodes[i]?

/-- `rbtree_map_remove` and `rbtree_map_delete` of the node that a search for `k` stopped at. -/
def removeAt (rb : Rebalance (Node K V)) (m : Rbmap cmp V) (k : K) (n : Node K V) :
    Option (Rbmap cmp V) :=
  if m.begin = some (addr n) then
    (rb_next m.tree (addr n)).map fun later ↦ { m with tree := m.tree.del rb k, begin := later }
  else some { m with tree := m.tree.del rb k }

def del (rb : Rebalance (Node K V)) (m : Rbmap cmp V) (k : K) :
    Option (Rbmap cmp V × Option (Node K V)) :=
  match m.search k with
  | none => some (m, none)
  | some n => (m.removeAt rb k n).map fun m' ↦ (m', some n)

/-- `isText` tells which keys are addresses of C strings: a key that is not found is logged as one.
-/
def remove (isText : K → Bool) (rb : Rebalance (Node K V)) (m : Rbmap cmp V) (k : K) :
    Option (Rbmap cmp V × Option (Node K V)) :=
  if (m.search k).isNone ∧ ¬isText k then none else m.del rb k

/-- `__search_all_same_key`, and `__find_same_key_node` below the first match. -/
def findSameKey {ι : Type*} (cmp : K → K → Ordering) (k : K) : Tree ι (Node K V) → List V
  | .leaf => []
  | .node _ l a r =>
    match cmp k a.1 with
    | .lt => findSameKey cmp k l
    | .gt => findSameKey cmp k r
    | .eq => a.2.2 :: (findSameKey cmp k l ++ findSameKey cmp k r)

/-- `for (cur = begin; !end->equal(end, cur); cur->next(cur))`, at most `n` times around. -/
def forEach (m : Rbmap cmp V) (n : ℕ) : Option (List (K × V)) :=
  (m.tree.root.walk addr n m.begin).map fun es ↦ es.map entry

inductive Call (K V : Type*)
  | add (mem : Bool) (k : K) (v : V)
  | remove (k : K)
  | del (k : K)
  | search (k : K)
  | searchAllSameKey (k : K)
  | forEach
  | begin
  | count
  deriving DecidableEq

/-- What a call tells its caller. The entry that `del` frees is named, though the code keeps it. -/
inductive Answer (K V : Type*)
  | ret (r : ℤ)
  | entry (e : Option (K × V))
  | values (vs : List V)
  | entries (es : List (K × V))
  | count (n : ℤ)
  deriving DecidableEq

/-- Iteration is given one turn for each entry that `count` says there is. -/
def call [TransCmp cmp] (isText : K → Bool) (rb : Rebalance (Node K V)) (m : Rbmap cmp V) :
    Call K V → Option (Rbmap cmp V × Answer K V)
  | .add mem k v => some ((m.insert rb mem k v).1, .ret (m.insert rb mem k v).2)
  | .remove k => (m.remove isText rb k).map fun r ↦ (r.1, .entry (r.2.map entry))
  | .del k => (m.del rb k).map fun r ↦ (r.1, .entry (r.2.map entry))
  | .search k => some (m, .entry ((m.search k).map entry))
  | .searchAllSameKey k => some (m, .values (findSameKey cmp k m.tree.root))
  | .forEach => (m.forEach m.tree.count).map fun es ↦ (m, .entries es)
  | .begin =>
    match m.begin with
    | none => some (m, .entry none)
    | some p => (m.tree.root.at? addr p).map fun n ↦ (m, .entry (some (entry n)))
  | .count => some (m, .count (BitVec.ofNat 32 m.tree.count).toInt)

/-- The map as its callers may think of it: the live entries, in no order. -/
def multimap (cmp : K → K → Ordering) [DecidableEq K] [DecidableEq V] :
    Spec (List (K × V)) (Call K V) (Answer K V) where
  ok live
    | .add mem _ _, .ret r => r = if mem then 1 else -1
    | .remove k, .entry (some e) | .del k, .entry (some e) | .search k, .entry (some e) =>
      cmp k e.1 = .eq ∧ e ∈ live
    | .remove k, .entry none | .del k, .entry none | .search k, .entry none =>
      ∀ e ∈ live, cmp k e.1 ≠ .eq
    | .searchAllSameKey k, .values vs =>
      vs.Perm ((live.filter fun e ↦ cmp k e.1 = .eq).map Prod.snd)
    | .forEach, .entries es => es.Perm live ∧ Sorted cmp es
    | .begin, .entry (some e) => e ∈ live ∧ ∀ x ∈ live, (cmp e.1 x.1).isLE
    | .begin, .entry none => live = []
    | .count, .count n => n = live.length
    | _, _ => False
  next live
    | .add mem k v, _ => if mem then (k, v) :: live else live
    | .remove _, .entry (some e) | .del _, .entry (some e) => live.erase e
    | _, _ => live

/-- A key that is removed is live, or it is a text; entries are counted only while an `int` counts
them. -/
def Proper (isText : K → Bool) (m : Rbmap cmp V) : Call K V → Prop
  | .remove k => isText k = true ∨ ∃ n ∈ m.nodes, cmp k n.1 = .eq
  | .count => m.nodes.length < 2 ^ 31
  | _ => True

structure Repr (m : Rbmap cmp V) (live : List (K × V)) : Prop where
  perm : (m.nodes.map entry).Perm live
  nodup : (m.nodes.map addr).Nodup
  lt_fresh : ∀ n ∈ m.nodes, addr n < m.fresh
  begin_eq : m.begin = (m.nodes.map addr).head?

theorem repr_init : Repr (init : Rbmap cmp V) [] :=
  ⟨List.Perm.nil, List.nodup_nil, by simp [nodes, init], rfl⟩

section Search

theorem search_some {m : Rbmap cmp V} {k : K} {n : Node K V} (h : m.search k = some n) :
    ∃ i, m.tree.position k = some i ∧ m.nodes[i]? = some n ∧ cmp k n.1 = .eq := by
  rw [search] at h
  cases hi : m.tree.position k with
  | none => simp [hi] at h
  | some i =>
    obtain ⟨e, he, heq⟩ := Tree.find_some hi
    have hget : m.nodes[i]? = some e := he
    simp only [hi, hget, Option.some.injEq] at h
    subst h
    exact ⟨i, rfl, hget, heq⟩

theorem search_none [TransCmp cmp] {m : Rbmap cmp V} {k : K} (h : m.search k = none) :
    ∀ n ∈ m.nodes, cmp k n.1 ≠ .eq := by
  apply Tree.find_none (inOrder_of_sorted k m.tree.sorted)
  cases hi : m.tree.position k with
  | none => exact hi
  | some i =>
    obtain ⟨e, he, -⟩ := Tree.find_some hi
    have hget : m.nodes[i]? = some e := he
    simp [search, hi, hget] at h

theorem remove_eq [TransCmp cmp] {isText : K → Bool} {m : Rbmap cmp V} {k : K}
    (h : Proper isText m (.remove k : Call K V)) (rb : Rebalance (Node K V)) :
    m.remove isText rb k = m.del rb k := by
  refine if_neg fun ⟨hnone, hnot⟩ ↦ ?_
  rcases h with htext | ⟨n, hn, heq⟩
  · exact hnot htext
  · exact search_none (Option.isNone_iff_eq_none.1 hnone) n hn heq

theorem Repr.search_some {m : Rbmap cmp V} {live : List (K × V)} (hm : Repr m live) {k : K}
    {n : Node K V} (h : m.search k = some n) : cmp k (entry n).1 = .eq ∧ entry n ∈ live := by
  obtain ⟨i, -, hget, heq⟩ := Rbmap.search_some h
  exact ⟨heq, hm.perm.mem_iff.mp (List.mem_map_of_mem (List.mem_of_getElem? hget))⟩

theorem Repr.search_none [TransCmp cmp] {m : Rbmap cmp V} {live : List (K × V)} (hm : Repr m live)
    {k : K} (h : m.search k = none) : ∀ e ∈ live, cmp k e.1 ≠ .eq := by
  intro e he
  obtain ⟨n, hn, rfl⟩ := List.mem_map.mp (hm.perm.mem_iff.mpr he)
  exact Rbmap.search_none h n hn

theorem findSameKey_perm {ι : Type*} [TransCmp cmp] (k : K) (t : Tree ι (Node K V))
    (ht : Tree.InOrder (fun n ↦ cmp k n.1) t.inorder) :
    (findSameKey cmp k t).Perm
      ((t.inorder.filter fun n ↦ cmp k n.1 = .eq).map fun n ↦ n.2.2) := by
  induction t with
  | leaf => exact List.Perm.nil
  | node tag l a r ihl ihr =>
    obtain ⟨hl, hr, hla, har⟩ := Tree.inOrder_node ht
    rw [Tree.inorder_node, List.filter_append, List.filter_cons, findSameKey]
    cases hcmp : cmp k a.1 with
    | lt =>
      have hright : (r.inorder.filter fun n ↦ cmp k n.1 = .eq) = [] := by
        rw [List.filter_eq_nil_iff]
        intro n hn
        simp [har n hn hcmp]
      simpa [hright] using ihl hl
    | gt =>
      have hleft : (l.inorder.filter fun n ↦ cmp k n.1 = .eq) = [] := by
        rw [List.filter_eq_nil_iff]
        intro n hn
        simp [hla n hn hcmp]
      simpa [hleft] using ihr hr
    | eq =>
      simp only [decide_true, if_true, List.map_append, List.map_cons]
      exact (((ihl hl).append (ihr hr)).cons _).trans List.perm_middle.symm

theorem Repr.findSameKey_perm [TransCmp cmp] {m : Rbmap cmp V} {live : List (K × V)}
    (hm : Repr m live) (k : K) :
    (findSameKey cmp k m.tree.root).Perm
      ((live.filter fun e ↦ cmp k e.1 = .eq).map Prod.snd) := by
  have hlive := (hm.perm.filter fun e ↦ cmp k e.1 = .eq).map Prod.snd
  rw [List.filter_map, List.map_map] at hlive
  exact (Rbmap.findSameKey_perm k _ (inOrder_of_sorted k m.tree.sorted)).trans hlive

end Search

section Iterate

theorem Repr.forEach_eq {m : Rbmap cmp V} {live : List (K × V)} (hm : Repr m live) :
    m.forEach m.tree.count = some (m.nodes.map entry) := by
  have hbegin : m.begin = m.tree.root.first.map addr := by
    rw [hm.begin_eq, List.head?_map, Tree.first_eq]
    rfl
  rw [forEach, hbegin, Tree.walk_first hm.nodup (Nat.le_of_eq m.tree.count_eq.symm),
    Option.map_some]
  rfl

theorem sorted_map_entry (m : Rbmap cmp V) : Sorted cmp (m.nodes.map entry) := by
  rw [Sorted, List.pairwise_map]
  exact m.tree.sorted

theorem Repr.begin_none {m : Rbmap cmp V} {live : List (K × V)} (hm : Repr m live)
    (h : m.begin = none) : live = [] := by
  rw [hm.begin_eq, List.head?_eq_none_iff, List.map_eq_nil_iff] at h
  have hperm := hm.perm
  rw [h] at hperm
  exact hperm.nil_eq.symm

theorem Repr.begin_some [TransCmp cmp] {m : Rbmap cmp V} {live : List (K × V)} (hm : Repr m live)
    {p : ℕ} (h : m.begin = some p) :
    ∃ n, m.tree.root.at? addr p = some n ∧ entry n ∈ live ∧
      ∀ x ∈ live, (cmp (entry n).1 x.1).isLE := by
  have hhead := hm.begin_eq
  rw [h, List.head?_map] at hhead
  obtain ⟨n, hn, rfl⟩ := Option.map_eq_some_iff.mp hhead.symm
  obtain ⟨rest, hsplit⟩ := List.head?_eq_some_iff.mp hn
  have hfirst : m.tree.root.inorder = [] ++ n :: rest := hsplit
  refine ⟨n, Tree.at?_of_split hm.nodup hfirst, ?_, ?_⟩
  · apply hm.perm.mem_iff.mp
    simp [hsplit]
  · intro x hx
    have hsorted := m.sorted_map_entry
    rw [hsplit, List.map_cons, Sorted, List.pairwise_cons] at hsorted
    have hmem := hm.perm.mem_iff.mpr hx
    rw [hsplit, List.map_cons, List.mem_cons] at hmem
    rcases hmem with rfl | hmem
    · exact Ordering.isLE_iff_ne_gt.mpr (by simp [ReflCmp.compare_self])
    · exact hsorted.1 x hmem

end Iterate

section Update

theorem Repr.insert [TransCmp cmp] {m : Rbmap cmp V} {live : List (K × V)} (hm : Repr m live)
    (rb : Rebalance (Node K V)) (k : K) (v : V) :
    Repr (m.insert rb true k v).1 ((k, v) :: live) := by
  have hadd : (m.insert rb true k v).1.nodes.Perm ((k, (m.fresh, v)) :: m.nodes) :=
    RbTreeMap.entries_add rb m.tree k (m.fresh, v)
  refine ⟨(hadd.map entry).trans (hm.perm.cons (k, v)), ?_, ?_, ?_⟩
  · rw [(hadd.map addr).nodup_iff, List.map_cons, List.nodup_cons]
    refine ⟨?_, hm.nodup⟩
    intro hfresh
    obtain ⟨n, hn, heq⟩ := List.mem_map.mp hfresh
    have hlt := hm.lt_fresh n hn
    have hself : addr n = m.fresh := heq
    omega
  · intro n hn
    have hnext : (m.insert rb true k v).1.fresh = m.fresh + 1 := rfl
    rw [hnext]
    rcases List.mem_cons.mp (hadd.mem_iff.mp hn) with rfl | hn
    · exact Nat.lt_succ_self m.fresh
    · exact Nat.lt_succ_of_lt (hm.lt_fresh n hn)
  · rw [List.head?_map]
    exact congrArg (Option.map addr) (Tree.first_eq (m.tree.add rb k (m.fresh, v)).root)

theorem Repr.removeAt_eq {m : Rbmap cmp V} {live : List (K × V)} (hm : Repr m live)
    (rb : Rebalance (Node K V)) {k : K} {n : Node K V} {i : ℕ} (hi : m.tree.position k = some i)
    (hget : m.nodes[i]? = some n) :
    m.removeAt rb k n = some
      { m with tree := m.tree.del rb k, begin := ((m.nodes.eraseIdx i).map addr).head? } := by
  have hinorder : m.nodes = m.tree.root.inorder := rfl
  rw [removeAt, hm.begin_eq]
  cases hnodes : m.nodes with
  | nil => simp [hnodes] at hget
  | cons b rest =>
    cases i with
    | zero =>
      rw [hnodes, List.getElem?_cons_zero, Option.some.injEq] at hget
      subst hget
      have hnext : rb_next m.tree (addr b) = some (rest.map addr).head? := by
        have hfirst : m.tree.root.inorder = [] ++ b :: rest := hinorder ▸ hnodes
        rw [rb_next, Tree.next?_of_split hm.nodup hfirst, Option.map_some, List.head?_map]
      rw [List.map_cons, List.head?_cons, if_pos rfl, hnext, Option.map_some,
        List.eraseIdx_cons_zero]
    | succ j =>
      rw [hnodes, List.getElem?_cons_succ] at hget
      have hne : addr b ≠ addr n := by
        have hnodup := hm.nodup
        rw [hnodes, List.map_cons, List.nodup_cons] at hnodup
        intro heq
        exact hnodup.1 (heq ▸ List.mem_map_of_mem (List.mem_of_getElem? hget))
      rw [List.map_cons, List.head?_cons, if_neg (by simpa using hne), List.eraseIdx_cons_succ,
        List.map_cons, List.head?_cons]

theorem Repr.del [DecidableEq K] [DecidableEq V] {m : Rbmap cmp V} {live : List (K × V)}
    (hm : Repr m live) (rb : Rebalance (Node K V)) {k : K} {n : Node K V}
    (h : m.search k = some n) :
    ∃ m', m.del rb k = some (m', some n) ∧ Repr m' (live.erase (entry n)) := by
  obtain ⟨i, hi, hget, -⟩ := Rbmap.search_some h
  have hnodes : (m.tree.del rb k).entries = m.nodes.eraseIdx i :=
    RbTreeMap.entries_del_of_position rb hi
  have hsub : (m.nodes.eraseIdx i).Sublist m.nodes := List.eraseIdx_sublist _ _
  have hremove : m.del rb k = (m.removeAt rb k n).map fun m' ↦ (m', some n) := by
    rw [Rbmap.del, h]
  rw [hm.removeAt_eq rb hi hget, Option.map_some] at hremove
  refine ⟨_, hremove, ?_, ?_, ?_, ?_⟩
  · obtain ⟨hlt, hei⟩ := List.getElem?_eq_some_iff.mp hget
    have hsplit : m.nodes.Perm (n :: m.nodes.eraseIdx i) :=
      hei ▸ (List.getElem_cons_eraseIdx_perm hlt).symm
    have hlive : (entry n :: (m.nodes.eraseIdx i).map entry).Perm live :=
      (hsplit.map entry).symm.trans hm.perm
    have herase := hlive.erase (entry n)
    rw [List.erase_cons_head] at herase
    rw [nodes, hnodes]
    exact herase
  · rw [nodes, hnodes]
    exact hm.nodup.sublist (hsub.map addr)
  · intro x hx
    rw [nodes, hnodes] at hx
    exact hm.lt_fresh x (hsub.subset hx)
  · exact congrArg (fun ns ↦ (ns.map addr).head?) hnodes.symm

end Update

section Refinement

variable [TransCmp cmp] [DecidableEq K] [DecidableEq V]

theorem Repr.unlink {m : Rbmap cmp V} {live : List (K × V)} (hm : Repr m live)
    (rb : Rebalance (Node K V)) (k : K) :
    ∃ m' e, (m.del rb k).map (fun r ↦ (r.1, (.entry (r.2.map entry) : Answer K V))) =
        some (m', .entry e) ∧ (multimap cmp).ok live (.remove k) (.entry e) ∧
      Repr m' ((multimap cmp).next live (.remove k) (.entry e)) := by
  cases hfound : m.search k with
  | none =>
    refine ⟨m, none, ?_, hm.search_none hfound, hm⟩
    simp [Rbmap.del, hfound]
  | some n =>
    obtain ⟨m', hremove, hm'⟩ := hm.del rb hfound
    refine ⟨m', some (entry n), ?_, hm.search_some hfound, hm'⟩
    rw [hremove]
    rfl

theorem Repr.call {isText : K → Bool} {m : Rbmap cmp V} {live : List (K × V)} (hm : Repr m live)
    (rb : Rebalance (Node K V)) (c : Call K V) (hc : Proper isText m c) :
    ∃ m' o, m.call isText rb c = some (m', o) ∧ (multimap cmp).ok live c o ∧
      Repr m' ((multimap cmp).next live c o) := by
  cases c with
  | add mem k v =>
    cases mem with
    | true => exact ⟨_, _, rfl, rfl, hm.insert rb k v⟩
    | false => exact ⟨_, _, rfl, rfl, hm⟩
  | remove k =>
    obtain ⟨m', e, hcall, hok, hm'⟩ := hm.unlink rb k
    refine ⟨m', _, ?_, hok, hm'⟩
    rw [Rbmap.call, remove_eq hc rb, hcall]
  | del k =>
    obtain ⟨m', e, hcall, hok, hm'⟩ := hm.unlink rb k
    cases e with
    | none => exact ⟨m', _, hcall, hok, hm'⟩
    | some e => exact ⟨m', _, hcall, hok, hm'⟩
  | search k =>
    refine ⟨m, _, rfl, ?_, hm⟩
    cases hfound : m.search k with
    | none => exact hm.search_none hfound
    | some n => exact hm.search_some hfound
  | searchAllSameKey k => exact ⟨m, _, rfl, hm.findSameKey_perm k, hm⟩
  | forEach =>
    refine ⟨m, .entries (m.nodes.map entry), ?_, ⟨hm.perm, m.sorted_map_entry⟩, hm⟩
    rw [Rbmap.call, hm.forEach_eq, Option.map_some]
  | begin =>
    cases hbegin : m.begin with
    | none =>
      refine ⟨m, .entry none, ?_, hm.begin_none hbegin, hm⟩
      rw [Rbmap.call, hbegin]
    | some p =>
      obtain ⟨n, hat, hmin⟩ := hm.begin_some hbegin
      refine ⟨m, .entry (some (entry n)), ?_, hmin, hm⟩
      rw [Rbmap.call, hbegin]
      simp only [hat, Option.map_some]
  | count =>
    refine ⟨m, _, rfl, ?_, hm⟩
    have hlen := hm.perm.length_eq
    rw [List.length_map] at hlen
    have hcount : m.tree.count = m.nodes.length := m.tree.count_eq
    have hsmall : m.nodes.length < 2 ^ 31 := hc
    show (BitVec.ofNat 32 m.tree.count).toInt = live.length
    rw [hcount, hlen, BitVec.toInt_ofNat', Int.bmod_eq_of_le (by omega) (by omega)]

/-- Whatever the calls, the map answers as a multimap ordered by its comparison, as long as no key
is logged that is not a text. -/
theorem refines_multimap (cmp : K → K → Ordering) [TransCmp cmp] (isText : K → Bool)
    (rb : Rebalance (Node K V)) {cs : List (Call K V)}
    (hrun : Refine.Within (call isText rb) (multimap cmp) (Proper isText) (init : Rbmap cmp V) []
      cs) :
    Refine.Refines (call isText rb) (multimap cmp) (init : Rbmap cmp V) [] cs :=
  (Refine.refines_of_simulation (I := Repr) (fun _ _ c hm hc ↦ hm.call rb c hc) repr_init hrun).2

end Refinement

/-- Keys are addresses where no other comparison is set. -/
def default_key_cmp_func (key1 key2 : ℕ) : Ordering :=
  if key1 > key2 then .gt else if key1 < key2 then .lt else .eq

theorem default_key_cmp_func_eq : default_key_cmp_func = compare := by
  funext key1 key2
  rw [default_key_cmp_func]
  rcases Nat.lt_trichotomy key1 key2 with h | h | h
  · rw [if_neg (by omega), if_pos h, Nat.compare_eq_lt.mpr h]
  · rw [if_neg (by omega), if_neg (by omega), Nat.compare_eq_eq.mpr h]
  · rw [if_pos h, Nat.compare_eq_gt.mpr h]

instance : TransCmp default_key_cmp_func := default_key_cmp_func_eq ▸ inferInstance

instance decidableProper [DecidableEq K] (isText : K → Bool) (m : Rbmap cmp V) (c : Call K V) :
    Decidable (Proper isText m c) := by
  unfold Proper
  split <;> infer_instance

theorem refines_multimap_equal_keys :
    Refine.Refines (call (fun _ ↦ false) (.small (Node ℕ ℕ))) (multimap default_key_cmp_func)
      (init : Rbmap default_key_cmp_func ℕ) []
      [.add true 5 50, .add true 3 30, .add true 5 51, .searchAllSameKey 5, .remove 5, .begin,
        .forEach, .remove 3, .del 3, .begin, .count] :=
  refines_multimap default_key_cmp_func (fun _ ↦ false) (.small (Node ℕ ℕ)) (by decide)

/-- The number 3 is no text. -/
theorem not_refines_multimap_absent :
    ¬Refine.Refines (call (fun _ ↦ false) (.small (Node ℕ ℕ))) (multimap default_key_cmp_func)
      (init : Rbmap default_key_cmp_func ℕ) [] [.remove 3] := by
  rintro ⟨⟨m, hm, r, hr, -⟩, -⟩
  cases hm
  cases hr

end Rbmap

end Libobject
