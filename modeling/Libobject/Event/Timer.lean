import Libobject.Core.RbTreeMap
import Libobject.Lib.TreeCursor
import Mathlib.Data.List.Nodup
import Mathlib.Algebra.GroupWithZero.Nat
import Mathlib.Algebra.Ring.Int.Defs
import Mathlib.Logic.Function.Basic

/-!
# The timer

The timer is a red-black tree of the events that are armed. The key of a node is a pointer to the
field `ev_timeout` of its event, which holds an interval before the event is armed and its deadline
from then on; comparisons read the field where it is.
-/

namespace Libobject.Event

open Std

structure Timeval where
  tv_sec : ℤ
  tv_usec : ℤ
  deriving DecidableEq

def Timeval.zero : Timeval := ⟨0, 0⟩

def timeval_cmp (k1 k2 : Timeval) : Ordering :=
  compareLex (compareOn Timeval.tv_sec) (compareOn Timeval.tv_usec) k1 k2

instance : TransCmp timeval_cmp :=
  inferInstanceAs (TransCmp (compareLex (compareOn Timeval.tv_sec) (compareOn Timeval.tv_usec)))

instance : LawfulEqCmp timeval_cmp where
  eq_of_compare := by
    rintro ⟨s, u⟩ ⟨s', u'⟩ h
    obtain ⟨hs, hu⟩ := Ordering.then_eq_eq.mp h
    have hsec : s = s' := LawfulEqCmp.eq_of_compare hs
    have husec : u = u' := LawfulEqCmp.eq_of_compare hu
    rw [hsec, husec]

/-- What a `long` keeps of a number. -/
def toLong (z : ℤ) : ℤ := z.bmod (2 ^ 64)

def InLong (z : ℤ) : Prop := -2 ^ 63 ≤ z ∧ z < 2 ^ 63

instance (z : ℤ) : Decidable (InLong z) := inferInstanceAs (Decidable (_ ∧ _))

theorem toLong_eq {z : ℤ} (h : InLong z) : toLong z = z := by
  obtain ⟨hlo, hhi⟩ := h
  simp only [toLong, Int.bmod_def]
  omega

def timeval_add (k1 k2 : Timeval) : Timeval :=
  let tv_sec := toLong (k1.tv_sec + k2.tv_sec)
  let tv_usec := toLong (k1.tv_usec + k2.tv_usec)
  if 1000000 ≤ tv_usec then ⟨toLong (tv_sec + 1), tv_usec - 1000000⟩ else ⟨tv_sec, tv_usec⟩

def timeval_sub (k1 k2 : Timeval) : Timeval :=
  let tv_sec := toLong (k1.tv_sec - k2.tv_sec)
  let tv_usec := toLong (k1.tv_usec - k2.tv_usec)
  if tv_usec < 0 then ⟨toLong (tv_sec - 1), tv_usec + 1000000⟩ else ⟨tv_sec, tv_usec⟩

/-- The sum, and the difference, that are meant. -/
def Timeval.plus (k1 k2 : Timeval) : Timeval :=
  if 1000000 ≤ k1.tv_usec + k2.tv_usec then
    ⟨k1.tv_sec + k2.tv_sec + 1, k1.tv_usec + k2.tv_usec - 1000000⟩
  else ⟨k1.tv_sec + k2.tv_sec, k1.tv_usec + k2.tv_usec⟩

def Timeval.minus (k1 k2 : Timeval) : Timeval :=
  if k1.tv_usec - k2.tv_usec < 0 then
    ⟨k1.tv_sec - k2.tv_sec - 1, k1.tv_usec - k2.tv_usec + 1000000⟩
  else ⟨k1.tv_sec - k2.tv_sec, k1.tv_usec - k2.tv_usec⟩

/-- The sum can be held. -/
def Timeval.Adds (k1 k2 : Timeval) : Prop :=
  InLong (k1.tv_sec + k2.tv_sec) ∧ InLong (k1.tv_usec + k2.tv_usec) ∧ InLong (k1.plus k2).tv_sec

instance (k1 k2 : Timeval) : Decidable (k1.Adds k2) := inferInstanceAs (Decidable (_ ∧ _))

def Timeval.Subtracts (k1 k2 : Timeval) : Prop :=
  InLong (k1.tv_sec - k2.tv_sec) ∧ InLong (k1.tv_usec - k2.tv_usec) ∧ InLong (k1.minus k2).tv_sec

instance (k1 k2 : Timeval) : Decidable (k1.Subtracts k2) := inferInstanceAs (Decidable (_ ∧ _))

theorem timeval_add_eq {k1 k2 : Timeval} (h : k1.Adds k2) : timeval_add k1 k2 = k1.plus k2 := by
  obtain ⟨hsec, husec, hplus⟩ := h
  rw [timeval_add, toLong_eq hsec, toLong_eq husec]
  rw [Timeval.plus] at hplus ⊢
  split at hplus
  · next hcarry => rw [if_pos hcarry, if_pos hcarry, toLong_eq hplus]
  · next hcarry => rw [if_neg hcarry, if_neg hcarry]

theorem timeval_sub_eq {k1 k2 : Timeval} (h : k1.Subtracts k2) :
    timeval_sub k1 k2 = k1.minus k2 := by
  obtain ⟨hsec, husec, hminus⟩ := h
  rw [timeval_sub, toLong_eq hsec, toLong_eq husec]
  rw [Timeval.minus] at hminus ⊢
  split at hminus
  · next hborrow => rw [if_pos hborrow, if_pos hborrow, toLong_eq hminus]
  · next hborrow => rw [if_neg hborrow, if_neg hborrow]

/-- A reading of the clock. -/
structure Clock where
  sec : ℕ
  usec : ℕ
  usec_lt : usec < 1000000
  deriving DecidableEq

def Clock.timeval (c : Clock) : Timeval := ⟨c.sec, c.usec⟩

theorem timeval_cmp_gt {k1 k2 : Timeval} : timeval_cmp k1 k2 = .gt ↔
    k2.tv_sec < k1.tv_sec ∨ k1.tv_sec = k2.tv_sec ∧ k2.tv_usec < k1.tv_usec := by
  rw [timeval_cmp, compareLex, Ordering.then_eq_gt, compareOn, compareOn, Int.compare_eq_gt,
    Int.compare_eq_eq, Int.compare_eq_gt]

theorem plus_pos {tv : Timeval} (h : timeval_cmp tv .zero = .gt) (now : Clock) :
    timeval_cmp (tv.plus now.timeval) .zero = .gt := by
  rw [timeval_cmp_gt] at h ⊢
  simp only [Timeval.zero, Clock.timeval] at h ⊢
  rw [Timeval.plus]
  by_cases hcarry : 1000000 ≤ tv.tv_usec + (now.usec : ℤ)
  · rw [if_pos hcarry]
    dsimp only
    omega
  · rw [if_neg hcarry]
    dsimp only
    omega

/-- `struct event`, of which the timer and the base use these fields. -/
structure EventT where
  ev_fd : ℕ
  ev_persist : Bool
  ev_timeout : Timeval
  ev_tv : Timeval
  deriving DecidableEq

/-- The memory of the events, by their addresses. -/
abbrev Memory := ℕ → EventT

/-- A node of the tree with its address; its value is the address of an event. -/
structure TimerNode where
  addr : ℕ
  value : ℕ
  deriving DecidableEq

structure RbtreeTimer where
  tree : Tree Color TimerNode
  begin : Option ℕ
  fresh : ℕ

def Memory.setTimeout (mem : Memory) (e : ℕ) (tv : Timeval) : Memory :=
  Function.update mem e { mem e with ev_timeout := tv }

/-- The key of a node is where its event keeps its deadline. -/
def Memory.key (mem : Memory) (n : TimerNode) : Timeval := (mem n.value).ev_timeout

namespace RbtreeTimer

variable (rb : Rebalance TimerNode)

def init : RbtreeTimer := ⟨.leaf, none, 0⟩

def nodes (t : RbtreeTimer) : List TimerNode := t.tree.inorder

/-- `rbtree_map_insert`. -/
def insert (mem : Memory) (t : RbtreeTimer) (e : ℕ) : RbtreeTimer :=
  let tree := rb.insertColor
    (t.tree.insertLeft (fun n ↦ timeval_cmp (mem e).ev_timeout (mem.key n)) .red ⟨t.fresh, e⟩)
  ⟨tree, tree.first.map TimerNode.addr, t.fresh + 1⟩

/-- `rbtree_map_search`: the place in the tree where the search stops. -/
def search (mem : Memory) (t : RbtreeTimer) (key : Timeval) : Option ℕ :=
  t.tree.find fun n ↦ timeval_cmp key (mem.key n)

/-- `rbtree_map_delete`. -/
def delete (t : RbtreeTimer) (i : ℕ) : Option RbtreeTimer :=
  match t.nodes[i]? with
  | none => none
  | some n =>
    if t.begin = some n.addr then
      (t.tree.next? TimerNode.addr n.addr).map fun later ↦
        { t with tree := rb.erase t.tree i, begin := later.map TimerNode.addr }
    else some { t with tree := rb.erase t.tree i }

def add (now : Clock) (mem : Memory) (t : RbtreeTimer) (e : ℕ) : Memory × RbtreeTimer :=
  if timeval_cmp (mem e).ev_timeout .zero = .gt then
    let mem := mem.setTimeout e (timeval_add (mem e).ev_timeout now.timeval)
    (mem, t.insert rb mem e)
  else (mem, t)

/-- The position is not set if the search finds nothing. -/
def del (mem : Memory) (t : RbtreeTimer) (e : ℕ) : Option RbtreeTimer :=
  if timeval_cmp (mem e).ev_timeout .zero = .gt then
    (t.search mem (mem e).ev_timeout).bind (t.delete rb)
  else some t

def remove (mem : Memory) (t : RbtreeTimer) (e : ℕ) : Option RbtreeTimer := t.del rb mem e

/-- How long the loop may wait. -/
def timeout_next (now : Clock) (mem : Memory) (t : RbtreeTimer) : Option (Option Timeval) :=
  match t.begin with
  | none => some none
  | some p => (t.tree.at? TimerNode.addr p).map fun n ↦
      some (if timeval_cmp (mem.key n) now.timeval = .gt then timeval_sub (mem.key n) now.timeval
        else .zero)

def first (t : RbtreeTimer) : Option (Option ℕ) :=
  match t.begin with
  | none => some none
  | some p => (t.tree.at? TimerNode.addr p).map fun n ↦ some n.value

/-! ## What the timer keeps -/

/-- No two nodes are at one address, and the kept position is that of the first. -/
structure Linked (t : RbtreeTimer) : Prop where
  addrs : (t.nodes.map TimerNode.addr).Nodup
  lt_fresh : ∀ n ∈ t.nodes, n.addr < t.fresh
  begin_eq : t.begin = (t.nodes.map TimerNode.addr).head?

/-- The nodes are in the order of their deadlines, and no two of them are of one event. -/
structure Good (mem : Memory) (t : RbtreeTimer) : Prop extends Linked t where
  sorted : t.nodes.Pairwise fun m n ↦ (timeval_cmp (mem.key m) (mem.key n)).isLE
  values : (t.nodes.map TimerNode.value).Nodup

def Armed (t : RbtreeTimer) (e : ℕ) : Prop := ∃ n ∈ t.nodes, n.value = e

instance (t : RbtreeTimer) (e : ℕ) : Decidable (t.Armed e) :=
  inferInstanceAs (Decidable (∃ n ∈ t.nodes, n.value = e))

variable {rb} {mem mem' : Memory} {t : RbtreeTimer} {e : ℕ}

theorem linked_init : Linked init := ⟨List.nodup_nil, by simp [nodes, init], rfl⟩

theorem good_init (mem : Memory) : Good mem init :=
  ⟨linked_init, List.Pairwise.nil, List.nodup_nil⟩

namespace Linked

theorem insert (rb : Rebalance TimerNode) (h : Linked t) (mem : Memory) (e : ℕ) :
    Linked (t.insert rb mem e) ∧
      List.Perm (t.insert rb mem e).nodes (⟨t.fresh, e⟩ :: t.nodes) := by
  have hperm : List.Perm (t.insert rb mem e).nodes (⟨t.fresh, e⟩ :: t.nodes) := by
    rw [nodes, RbtreeTimer.insert, rb.inorder_insertColor]
    exact Tree.perm_insertLeft ..
  refine ⟨⟨?_, ?_, ?_⟩, hperm⟩
  · rw [(hperm.map TimerNode.addr).nodup_iff, List.map_cons, List.nodup_cons]
    refine ⟨fun hmem ↦ ?_, h.addrs⟩
    obtain ⟨n, hn, heq⟩ := List.mem_map.mp hmem
    exact absurd heq (Nat.ne_of_lt (h.lt_fresh n hn))
  · intro n hn
    rcases List.mem_cons.mp (hperm.mem_iff.mp hn) with rfl | hn
    · exact Nat.lt_succ_self t.fresh
    · exact Nat.lt_succ_of_lt (h.lt_fresh n hn)
  · rw [List.head?_map]
    exact congrArg (Option.map TimerNode.addr) (Tree.first_eq (t.insert rb mem e).tree)

theorem delete_eq (h : Linked t) {i : ℕ} {n : TimerNode} (hget : t.nodes[i]? = some n) :
    t.delete rb i = some
      ⟨rb.erase t.tree i, ((t.nodes.eraseIdx i).map TimerNode.addr).head?, t.fresh⟩ := by
  rw [delete, hget, h.begin_eq]
  cases hnodes : t.nodes with
  | nil => simp [hnodes] at hget
  | cons b rest =>
    cases i with
    | zero =>
      rw [hnodes, List.getElem?_cons_zero, Option.some.injEq] at hget
      subst hget
      have hfirst : t.tree.inorder = [] ++ b :: rest := hnodes
      have hnext := Tree.next?_of_split h.addrs hfirst
      simp only [List.map_cons, List.head?_cons, if_true, hnext, Option.map_some,
        List.eraseIdx_cons_zero, List.head?_map]
    | succ j =>
      rw [hnodes, List.getElem?_cons_succ] at hget
      have hne : b.addr ≠ n.addr := by
        have hnodup := h.addrs
        rw [hnodes, List.map_cons, List.nodup_cons] at hnodup
        intro heq
        exact hnodup.1 (heq ▸ List.mem_map_of_mem (List.mem_of_getElem? hget))
      simp only [List.map_cons, List.head?_cons, Option.some.injEq, hne, if_false,
        List.eraseIdx_cons_succ]

theorem delete (rb : Rebalance TimerNode) (h : Linked t) {i : ℕ} {n : TimerNode}
    (hget : t.nodes[i]? = some n) :
    ∃ t', t.delete rb i = some t' ∧ Linked t' ∧ t'.nodes = t.nodes.eraseIdx i := by
  have hnodes : (⟨rb.erase t.tree i, ((t.nodes.eraseIdx i).map TimerNode.addr).head?, t.fresh⟩ :
      RbtreeTimer).nodes = t.nodes.eraseIdx i := rb.inorder_erase t.tree i
  have hsub : (t.nodes.eraseIdx i).Sublist t.nodes := List.eraseIdx_sublist _ _
  refine ⟨_, h.delete_eq hget, ⟨?_, ?_, ?_⟩, hnodes⟩
  · rw [hnodes]
    exact h.addrs.sublist (hsub.map _)
  · intro k hk
    rw [hnodes] at hk
    exact h.lt_fresh k (hsub.subset hk)
  · rw [hnodes]

end Linked

/-- What a comparison of keys sees of the nodes. -/
def keyed (mem : Memory) (ns : List TimerNode) : List (Timeval × TimerNode) :=
  ns.map fun n ↦ (mem.key n, n)

theorem sorted_keyed {ns : List TimerNode} : Sorted timeval_cmp (keyed mem ns) ↔
    ns.Pairwise fun m n ↦ (timeval_cmp (mem.key m) (mem.key n)).isLE := by
  rw [Sorted, keyed, List.pairwise_map]

namespace Good

theorem congr (h : Good mem t) (hmem : ∀ n ∈ t.nodes, mem'.key n = mem.key n) : Good mem' t where
  toLinked := h.toLinked
  sorted := h.sorted.imp_of_mem fun {a b} ha hb hab ↦ by rwa [hmem a ha, hmem b hb]
  values := h.values

theorem inOrder (h : Good mem t) (k : Timeval) :
    Tree.InOrder (fun n ↦ timeval_cmp k (mem.key n)) t.nodes := by
  have hsorted := inOrder_of_sorted k (sorted_keyed.mpr h.sorted)
  rwa [Tree.InOrder, keyed, List.pairwise_map] at hsorted

theorem value_inj (h : Good mem t) {m n : TimerNode} (hm : m ∈ t.nodes) (hn : n ∈ t.nodes)
    (heq : m.value = n.value) : m = n :=
  List.inj_on_of_nodup_map h.values hm hn heq

theorem insert (rb : Rebalance TimerNode) (h : Good mem t) (he : ¬ t.Armed e) :
    Good mem (t.insert rb mem e) ∧
      List.Perm (t.insert rb mem e).nodes (⟨t.fresh, e⟩ :: t.nodes) := by
  obtain ⟨xs, ys, hxy, hins, hxs, hys⟩ :=
    Tree.inorder_insertLeft Color.red ⟨t.fresh, e⟩ (h.inOrder (mem e).ev_timeout)
  have hnodes : (t.insert rb mem e).nodes = xs ++ ⟨t.fresh, e⟩ :: ys := by
    rw [nodes, RbtreeTimer.insert, rb.inorder_insertColor, hins]
  have hold : t.nodes = xs ++ ys := hxy
  obtain ⟨hlinked, hperm⟩ := h.toLinked.insert rb mem e
  refine ⟨⟨hlinked, ?_, ?_⟩, hperm⟩
  · rw [hnodes, ← sorted_keyed, keyed, List.map_append, List.map_cons]
    have hsorted := sorted_keyed.mpr h.sorted
    rw [hold, keyed, List.map_append] at hsorted
    refine sorted_insert hsorted ?_ ?_
    · intro x hx
      obtain ⟨n, hn, rfl⟩ := List.mem_map.mp hx
      exact hxs n hn
    · intro y hy
      obtain ⟨n, hn, rfl⟩ := List.mem_map.mp hy
      exact hys n hn
  · rw [(hperm.map TimerNode.value).nodup_iff, List.map_cons, List.nodup_cons]
    exact ⟨fun hmem ↦ he (List.mem_map.mp hmem), h.values⟩

theorem delete (rb : Rebalance TimerNode) (h : Good mem t) (he : t.Armed e)
    (halone : ∀ n ∈ t.nodes, mem.key n = (mem e).ev_timeout → n.value = e) :
    ∃ t', (t.search mem (mem e).ev_timeout).bind (t.delete rb) = some t' ∧ Good mem t' ∧
      ∀ n, n ∈ t'.nodes ↔ n ∈ t.nodes ∧ n.value ≠ e := by
  obtain ⟨n, hn, rfl⟩ := he
  cases hs : t.search mem (mem n.value).ev_timeout with
  | none => exact absurd ReflCmp.compare_self (Tree.find_none (h.inOrder _) hs n hn)
  | some i =>
    obtain ⟨m, hget, heq⟩ := Tree.find_some hs
    have hget' : t.nodes[i]? = some m := hget
    have hkey : (mem n.value).ev_timeout = mem.key m := LawfulEqCmp.eq_of_compare heq
    have hm : m ∈ t.nodes := List.mem_of_getElem? hget'
    obtain rfl : m = n := h.value_inj hm hn (halone m hm hkey.symm)
    obtain ⟨t', hdelete, hlinked, hnodes⟩ := h.toLinked.delete rb hget'
    have hsub : (t.nodes.eraseIdx i).Sublist t.nodes := List.eraseIdx_sublist _ _
    refine ⟨t', hdelete, ⟨hlinked, ?_, ?_⟩, ?_⟩
    · rw [hnodes]
      exact h.sorted.sublist hsub
    · rw [hnodes]
      exact h.values.sublist (hsub.map _)
    · intro k
      rw [hnodes]
      have hperm : List.Perm t.nodes (m :: t.nodes.eraseIdx i) := by
        obtain ⟨hlt, rfl⟩ := List.getElem?_eq_some_iff.mp hget'
        exact (List.getElem_cons_eraseIdx_perm hlt).symm
      have hnodup := (hperm.map TimerNode.value).nodup_iff.mp h.values
      rw [List.map_cons, List.nodup_cons] at hnodup
      constructor
      · intro hk
        refine ⟨hsub.subset hk, fun hv ↦ hnodup.1 ?_⟩
        exact hv ▸ List.mem_map_of_mem hk
      · rintro ⟨hk, hv⟩
        rcases List.mem_cons.mp (hperm.mem_iff.mp hk) with rfl | hk
        · exact (hv rfl).elim
        · exact hk

theorem begin_cases (h : Good mem t) :
    (t.begin = none ∧ t.nodes = []) ∨
      ∃ p n, t.begin = some p ∧ t.tree.at? TimerNode.addr p = some n ∧ t.nodes.head? = some n ∧
        ∀ m ∈ t.nodes, (timeval_cmp (mem.key n) (mem.key m)).isLE := by
  have hbegin := h.begin_eq
  cases hnodes : t.nodes with
  | nil =>
    rw [hnodes] at hbegin
    exact Or.inl ⟨hbegin, rfl⟩
  | cons n rest =>
    rw [hnodes, List.map_cons, List.head?_cons] at hbegin
    have hfirst : t.tree.inorder = [] ++ n :: rest := hnodes
    refine Or.inr ⟨n.addr, n, hbegin, Tree.at?_of_split h.addrs hfirst, rfl, ?_⟩
    have hsorted := h.sorted
    rw [hnodes, List.pairwise_cons] at hsorted
    intro m hm
    rcases List.mem_cons.mp hm with rfl | hm
    · have hself : timeval_cmp (mem.key m) (mem.key m) = .eq := ReflCmp.compare_self
      rw [hself]
      rfl
    · exact hsorted.1 m hm

end Good

end RbtreeTimer

end Libobject.Event
