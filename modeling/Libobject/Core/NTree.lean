import Libobject.Lib.Forest
import Libobject.Lib.Refine
import Libobject.Lib.Scan
import Mathlib.Data.Int.Notation

/-!
# The tree with any number of children

Nodes are found by their addresses, and a node that was freed has none of its fields; what is read
there is undefined, and so is a recursion over the children that does not end. Children are kept in
an array in the order of their names and know their parent. A node that hangs nowhere floats; the
count is meant to be of the nodes of the root's tree, and an `int` holds it. There is always memory
for nodes and arrays.
-/

namespace Libobject

structure NTreeNode where
  name : Option Text
  child : List ℕ
  parent : Option ℕ

/-- `fresh` is the address of the next node; no chain of nodes is longer. -/
structure NTree where
  mem : ℕ → Option NTreeNode
  fresh : ℕ
  root : Option ℕ
  node_count : ℤ

namespace NTree

abbrev Mem := ℕ → Option NTreeNode

def construct : NTree := ⟨fun _ ↦ none, 0, none, 0⟩

def setChild (mem : Mem) (a : ℕ) (child : List ℕ) : Mem :=
  Function.update mem a ((mem a).map fun n ↦ { n with child := child })

def setParent (mem : Mem) (a : ℕ) (parent : Option ℕ) : Mem :=
  Function.update mem a ((mem a).map fun n ↦ { n with parent := parent })

def size (mem : Mem) : ℕ → ℕ → Option ℕ
  | 0, _ => none
  | fuel + 1, a => do
    let n ← mem a
    let s ← n.child.mapM (size mem fuel)
    return 1 + s.sum

/-- The loop of `__insert_pos` from position `i` on; `none` if the name is there. -/
def insertPosFrom (mem : Mem) (name : Text) : List ℕ → ℕ → Option (Option ℕ)
  | [], i => some (some i)
  | c :: cs, i => do
    let n ← mem c
    match n.name with
    | none => insertPosFrom mem name cs (i + 1)
    | some name' =>
      match strcmp name name' with
      | .eq => return none
      | .lt => return some i
      | .gt => insertPosFrom mem name cs (i + 1)

def insert_pos (mem : Mem) (child : List ℕ) : Option Text → Option (Option ℕ)
  | none => some (some child.length)
  | some name => insertPosFrom mem name child 0

def free_rec : ℕ → ℕ → Mem → Option Mem
  | 0, _, _ => none
  | fuel + 1, a, mem => do
    let n ← mem a
    let mem ← n.child.foldlM (fun mem c ↦ free_rec fuel c mem) mem
    return Function.update mem a none

def clear (t : NTree) : Option NTree :=
  match t.root with
  | none => some t
  | some r => (free_rec t.fresh r t.mem).map fun mem ↦
      { t with mem := mem, root := none, node_count := 0 }

def set_root (t : NTree) (root : Option ℕ) : Option NTree := do
  let t ← t.clear
  match root with
  | none => return { t with root := none, node_count := 0 }
  | some r =>
    let _ ← t.mem r
    let mem := setParent t.mem r none
    let s ← size mem t.fresh r
    return { t with mem := mem, root := some r, node_count := s }

def node_new (t : NTree) (name : Option Text) : NTree × ℕ :=
  ({ t with mem := Function.update t.mem t.fresh (some ⟨name, [], none⟩), fresh := t.fresh + 1 },
    t.fresh)

/-- The child is put where its name belongs and counted with all that hangs under it. -/
def link (t : NTree) (p c pos : ℕ) (child : List ℕ) : Option NTree :=
  let mem := setParent (setChild t.mem p (child.take pos ++ c :: child.drop pos)) c (some p)
  (size mem t.fresh c).map fun s : ℕ ↦ { t with mem := mem, node_count := t.node_count + s }

def node_insert (t : NTree) : Option ℕ → Option ℕ → Option (NTree × ℤ)
  | some p, some c => do
    let n ← t.mem c
    if n.parent.isSome ∨ t.root = some c then return (t, -1)
    else
      let d ← t.mem p
      match ← insert_pos t.mem d.child n.name with
      | none => return (t, -1)
      | some pos => (t.link p c pos d.child).map fun t ↦ (t, 0)
  | _, _ => some (t, -1)

def findName (mem : Mem) (name : Text) : List ℕ → Option (Option ℕ)
  | [] => some none
  | c :: cs => do
    let n ← mem c
    if n.name.any (fun name' ↦ strcmp name' name = .eq) then return some c
    else findName mem name cs

def node_find (t : NTree) : Option ℕ → Option Text → Option (Option ℕ)
  | some p, some name => (t.mem p).bind fun d ↦ findName t.mem name d.child
  | _, _ => some none

def unlink (t : NTree) (p a : ℕ) (child : List ℕ) : Option NTree :=
  let mem := setChild t.mem p (child.erase a)
  (size mem t.fresh a).map fun s : ℕ ↦
    { t with mem := setParent mem a none, node_count := t.node_count - s }

def node_detach (t : NTree) : Option ℕ → Option (NTree × ℤ)
  | none => some (t, -1)
  | some a => do
    let n ← t.mem a
    match n.parent with
    | none => return (t, -1)
    | some p =>
      let d ← t.mem p
      if a ∈ d.child then (t.unlink p a d.child).map fun t ↦ (t, 0) else return (t, -1)

def node_free (t : NTree) : Option ℕ → Option (NTree × ℤ)
  | none => some (t, -1)
  | some a => do
    let n ← t.mem a
    match n.parent with
    | none =>
      let mem ← free_rec t.fresh a t.mem
      if t.root = some a then
        return ({ t with mem := mem, root := none, node_count := 0 }, 0)
      else return ({ t with mem := mem }, 0)
    | some _ =>
      let (t, _) ← t.node_detach (some a)
      let mem ← free_rec t.fresh a t.mem
      return ({ t with mem := mem }, 0)

/-- The loop of `__preorder_impl` over the children: the nodes that were visited and the answer of
the last one. -/
def visitAll (visit : ℕ → Option (List ℕ × ℤ)) : List ℕ → Option (List ℕ × ℤ)
  | [] => some ([], 0)
  | c :: cs => do
    let (seen, r) ← visit c
    if r ≠ 0 then return (seen, r)
    else
      let (seen', r') ← visitAll visit cs
      return (seen ++ seen', r')

def preorder_impl (mem : Mem) (visit : ℕ → ℤ) : ℕ → ℕ → Option (List ℕ × ℤ)
  | 0, _ => none
  | fuel + 1, a => do
    let n ← mem a
    if visit a ≠ 0 then return ([a], visit a)
    else
      let (seen, r) ← visitAll (preorder_impl mem visit fuel) n.child
      return (a :: seen, r)

def preorder (t : NTree) (node : Option ℕ) (visit : ℕ → ℤ) : Option (List ℕ × ℤ) :=
  match node.or t.root with
  | none => some ([], 0)
  | some a => preorder_impl t.mem visit t.fresh a

inductive Call
  | node_new (name : Option Text)
  | set_root (root : Option ℕ)
  | node_insert (parent child : Option ℕ)
  | node_find (parent : Option ℕ) (name : Option Text)
  | node_detach (node : Option ℕ)
  | node_free (node : Option ℕ)
  | clear
  | count
  | preorder (node : Option ℕ) (visit : ℕ → ℤ)

inductive Answer
  | node (a : Option ℕ)
  | ret (r : ℤ)
  | visited (seen : List ℕ) (r : ℤ)
  deriving DecidableEq

def call (t : NTree) : Call → Option (NTree × Answer)
  | .node_new name => some ((t.node_new name).1, .node (some (t.node_new name).2))
  | .set_root root => (t.set_root root).map fun t ↦ (t, .ret 0)
  | .node_insert parent child => (t.node_insert parent child).map fun r ↦ (r.1, .ret r.2)
  | .node_find parent name => (t.node_find parent name).map fun a ↦ (t, .node a)
  | .node_detach node => (t.node_detach node).map fun r ↦ (r.1, .ret r.2)
  | .node_free node => (t.node_free node).map fun r ↦ (r.1, .ret r.2)
  | .clear => t.clear.map fun t ↦ (t, .ret 0)
  | .count => some (t, .ret t.node_count)
  | .preorder node visit => (t.preorder node visit).map fun r ↦ (t, .visited r.1 r.2)

open Forest

def parentOf (mem : Mem) (a : ℕ) : Option ℕ := (mem a).bind NTreeNode.parent

/-- The name that the node has, if there is the node. -/
def nameOf (mem : Mem) (a : ℕ) : Option (Option Text) := (mem a).map NTreeNode.name

def childOf (mem : Mem) (a : ℕ) : Option (List ℕ) := (mem a).map NTreeNode.child

/-- What the tree and its floating parts are for: names and parents. -/
structure NForest where
  name : ℕ → Option (Option Text)
  parent : ℕ → Option ℕ
  root : Option ℕ

def forest (t : NTree) : NForest := ⟨nameOf t.mem, parentOf t.mem, t.root⟩

namespace NForest

def Attached (f : NForest) (a : ℕ) : Prop := ∃ r ∈ f.root, Below f.parent r a

open Classical in
/-- The node is gone with all that hangs under it. -/
noncomputable def remove (f : NForest) (top : ℕ) : NForest where
  name a := if Below f.parent top a then none else f.name a
  parent a := if Below f.parent top a then none else f.parent a
  root := if f.root = some top then none else f.root

noncomputable def clear (f : NForest) : NForest := f.root.elim f f.remove

def hang (f : NForest) (c : ℕ) (p : Option ℕ) : NForest :=
  { f with parent := Function.update f.parent c p }

/-- The child hangs nowhere, and its name is new under the parent. -/
def Accepts (f : NForest) : Option ℕ → Option ℕ → Prop
  | some p, some c =>
    (f.parent c = none ∧ f.root ≠ some c) ∧ ∀ d, f.parent d = some p → f.name d ≠ f.name c
  | _, _ => False

end NForest

/-- A visit of the nodes in order ends where a node asks for it. -/
def cutAt (visit : ℕ → ℤ) : List ℕ → List ℕ × ℤ
  | [] => ([], 0)
  | a :: as =>
    if visit a ≠ 0 then ([a], visit a)
    else
      let r := cutAt visit as
      (a :: r.1, r.2)

/-- The tree as a forest of named nodes. -/
noncomputable def named : Spec NForest Call Answer where
  ok f
    | .node_new _, .node a => ∃ x, a = some x ∧ f.name x = none
    | .set_root _, .ret r | .clear, .ret r => r = 0
    | .node_insert parent child, .ret r =>
      f.Accepts parent child ∧ r = 0 ∨ ¬f.Accepts parent child ∧ r = -1
    | .node_find parent name, .node a =>
      ∀ x, a = some x ↔ ∃ p ∈ parent, ∃ n ∈ name, f.parent x = some p ∧ f.name x = some (some n)
    | .node_detach node, .ret r => r = if (node.bind f.parent).isSome then 0 else -1
    | .node_free node, .ret r => r = if node.isSome then 0 else -1
    | .count, .ret r => r = {x | f.Attached x}.ncard
    | .preorder node visit, .visited seen r =>
      ∃ order : List ℕ, order.Nodup ∧
        (∀ x, x ∈ order ↔ ∃ top ∈ node.or f.root, Below f.parent top x) ∧
        (seen, r) = cutAt visit order
    | _, _ => False
  next f
    | .node_new name, .node (some x) => ⟨Function.update f.name x (some name), f.parent, f.root⟩
    | .set_root root, _ => { f.clear with root := root }
    | .node_insert p (some c), .ret r => if r = 0 then f.hang c p else f
    | .node_detach (some a), _ => f.hang a none
    | .node_free (some a), _ => (f.hang a none).remove a
    | .clear, _ => f.clear
    | _, _ => f

/-- The top of the tree in which the node is, at most `fuel` steps up. -/
def top (mem : Mem) : ℕ → ℕ → ℕ
  | 0, a => a
  | fuel + 1, a =>
    match parentOf mem a with
    | none => a
    | some p => top mem fuel p

def InTree (t : NTree) (a : ℕ) : Prop := t.root = some (top t.mem t.fresh a)

def Live (t : NTree) (a : ℕ) : Prop := (t.mem a).isSome

/-- Nodes are there, and what is counted in or out is in the root's tree: a node is inserted under
a node of that tree, or not at all, and it has a name then; a node is detached from that tree, or
does not hang anywhere; and the new root floats. -/
def Regular (t : NTree) : Call → Prop
  | .set_root root => ∀ r ∈ root, (t.Live r ∧ parentOf t.mem r = none) ∧ t.root ≠ some r
  | .node_insert (some p) (some c) =>
    (t.Live p ∧ t.Live c) ∧
      ((parentOf t.mem c ≠ none ∨ t.root = some c) ∨
        nameOf t.mem c ≠ some none ∧
          ((∃ d ∈ (childOf t.mem p).getD [], nameOf t.mem d = nameOf t.mem c) ∨ t.InTree p))
  | .node_find (some p) (some _) => t.Live p
  | .node_detach (some a) | .node_free (some a) =>
    t.Live a ∧ (parentOf t.mem a = none ∨ t.InTree a)
  | .preorder (some a) _ => t.Live a
  | _ => True

/-- The nodes under a node, itself first. -/
def order (mem : Mem) : ℕ → ℕ → Option (List ℕ)
  | 0, _ => none
  | fuel + 1, a => do
    let n ← mem a
    let ls ← n.child.mapM (order mem fuel)
    return a :: ls.flatten

/-- The names of two siblings. -/
def Before (mem : Mem) (c d : ℕ) : Prop :=
  ∃ x y, nameOf mem c = some (some x) ∧ nameOf mem d = some (some y) ∧ strcmp x y = .lt

/-- Children and parents know each other, nothing hangs under itself, and the children of a node
have names and are in their order. -/
structure Links (mem : Mem) (fresh : ℕ) : Prop where
  fresh : ∀ a, fresh ≤ a → mem a = none
  acyclic : Acyclic (parentOf mem)
  child_iff : ∀ a cs, childOf mem a = some cs → ∀ c, c ∈ cs ↔ parentOf mem c = some a
  parent_live : ∀ c p, parentOf mem c = some p → (childOf mem p).isSome
  ascending : ∀ a cs, childOf mem a = some cs → cs.Pairwise (Before mem)
  named : ∀ c p, parentOf mem c = some p → ∃ x, nameOf mem c = some (some x)

structure WellFormed (t : NTree) : Prop where
  links : Links t.mem t.fresh
  root_top : ∀ r ∈ t.root, t.Live r ∧ parentOf t.mem r = none
  count_eq : t.node_count = {x | t.forest.Attached x}.ncard

def Holds (t : NTree) (f : NForest) : Prop := t.forest = f ∧ t.WellFormed

section Fields

variable {mem : Mem} {a x : ℕ}

theorem childOf_setChild (ha : (mem a).isSome) (cs : List ℕ) :
    childOf (setChild mem a cs) = Function.update (childOf mem) a (some cs) := by
  obtain ⟨n, hn⟩ := Option.isSome_iff_exists.mp ha
  funext x
  by_cases hx : x = a
  · subst hx
    rw [childOf, setChild, Function.update_self, Function.update_self, hn]
    rfl
  · rw [childOf, setChild, Function.update_of_ne hx, Function.update_of_ne hx, childOf]

theorem parentOf_setChild (cs : List ℕ) : parentOf (setChild mem a cs) = parentOf mem := by
  funext x
  by_cases hx : x = a
  · subst hx
    rw [parentOf, setChild, Function.update_self, parentOf]
    cases mem x <;> rfl
  · rw [parentOf, setChild, Function.update_of_ne hx, parentOf]

theorem nameOf_setChild (cs : List ℕ) : nameOf (setChild mem a cs) = nameOf mem := by
  funext x
  by_cases hx : x = a
  · subst hx
    rw [nameOf, setChild, Function.update_self, nameOf]
    cases mem x <;> rfl
  · rw [nameOf, setChild, Function.update_of_ne hx, nameOf]

theorem childOf_setParent (q : Option ℕ) : childOf (setParent mem a q) = childOf mem := by
  funext x
  by_cases hx : x = a
  · subst hx
    rw [childOf, setParent, Function.update_self, childOf]
    cases mem x <;> rfl
  · rw [childOf, setParent, Function.update_of_ne hx, childOf]

theorem parentOf_setParent (ha : (mem a).isSome) (q : Option ℕ) :
    parentOf (setParent mem a q) = Function.update (parentOf mem) a q := by
  obtain ⟨n, hn⟩ := Option.isSome_iff_exists.mp ha
  funext x
  by_cases hx : x = a
  · subst hx
    rw [parentOf, setParent, Function.update_self, Function.update_self, hn]
    rfl
  · rw [parentOf, setParent, Function.update_of_ne hx, Function.update_of_ne hx, parentOf]

theorem nameOf_setParent (q : Option ℕ) : nameOf (setParent mem a q) = nameOf mem := by
  funext x
  by_cases hx : x = a
  · subst hx
    rw [nameOf, setParent, Function.update_self, nameOf]
    cases mem x <;> rfl
  · rw [nameOf, setParent, Function.update_of_ne hx, nameOf]

theorem isSome_childOf : (childOf mem a).isSome = (mem a).isSome := by
  rw [childOf, Option.isSome_map]

theorem parentOf_eq_none (h : mem a = none) : parentOf mem a = none := by
  rw [parentOf, h, Option.bind_none]

end Fields

section Order

variable {mem : Mem} {fresh a x : ℕ}

theorem live_of_below (ha : (mem a).isSome) (hx : Below (parentOf mem) a x) :
    (mem x).isSome := by
  rcases hx.eq_or_tail with rfl | ⟨b, hb, -⟩
  · exact ha
  · by_contra hnot
    rw [parentOf_eq_none (Option.not_isSome_iff_eq_none.mp hnot)] at hb
    cases hb

theorem Links.lt_fresh (h : Links mem fresh) (ha : (mem a).isSome) : a < fresh := by
  by_contra hge
  rw [h.fresh a (Nat.le_of_not_lt hge)] at ha
  cases ha

theorem Links.finite_below (h : Links mem fresh) (ha : (mem a).isSome) :
    {x | Below (parentOf mem) a x}.Finite :=
  (Set.finite_lt_nat fresh).subset fun _ hx ↦ h.lt_fresh (live_of_below ha hx)

theorem Links.card_le_fresh (h : Links mem fresh) (ha : (mem a).isSome) :
    {x | Below (parentOf mem) a x}.ncard ≤ fresh := by
  have hsub : {x | Below (parentOf mem) a x} ⊆ {x | x < fresh} :=
    fun x hx ↦ h.lt_fresh (live_of_below ha hx)
  have hcard : ({x | x < fresh} : Set ℕ).ncard = fresh := by
    have hrange : ({x | x < fresh} : Set ℕ) = (Finset.range fresh : Set ℕ) := by
      ext x
      simp
    rw [hrange, Set.ncard_coe_finset, Finset.card_range]
  exact (Set.ncard_le_ncard hsub (Set.finite_lt_nat fresh)).trans_eq hcard

theorem Links.nodup_child (h : Links mem fresh) {cs : List ℕ} (hcs : childOf mem a = some cs) :
    cs.Nodup := by
  apply (h.ascending a cs hcs).imp
  rintro c d ⟨x, y, hx, hy, hlt⟩ rfl
  cases hx.symm.trans hy
  rw [show strcmp _ _ = .eq from Std.ReflCmp.compare_self] at hlt
  cases hlt

theorem Links.names_ne (h : Links mem fresh) {cs : List ℕ} (hcs : childOf mem a = some cs)
    {c d : ℕ} (hc : c ∈ cs) (hd : d ∈ cs) (hne : c ≠ d) : nameOf mem c ≠ nameOf mem d := by
  have hpair : cs.Pairwise fun c d ↦ nameOf mem c ≠ nameOf mem d := by
    apply (h.ascending a cs hcs).imp
    rintro c d ⟨x, y, hx, hy, hlt⟩ heq
    cases hx.symm.trans (heq.trans hy)
    rw [show strcmp _ _ = .eq from Std.ReflCmp.compare_self] at hlt
    cases hlt
  have hsymm : Std.Symm fun c d ↦ nameOf mem c ≠ nameOf mem d := ⟨fun _ _ hne ↦ hne.symm⟩
  exact hpair.forall hc hd hne

theorem exists_mapM {α β : Type} {f : α → Option β} {P : α → β → Prop} {cs : List α}
    (h : ∀ c ∈ cs, ∃ l, f c = some l ∧ P c l) :
    ∃ ls, cs.mapM f = some ls ∧ List.Forall₂ P cs ls := by
  induction cs with
  | nil => exact ⟨[], rfl, .nil⟩
  | cons c cs ih =>
    obtain ⟨l, hl, hP⟩ := h c List.mem_cons_self
    obtain ⟨ls, hls, hPs⟩ := ih fun d hd ↦ h d (List.mem_cons_of_mem c hd)
    refine ⟨l :: ls, ?_, .cons hP hPs⟩
    rw [List.mapM_cons, hl, hls]
    rfl

theorem Links.flatten (h : Links mem fresh) {cs : List ℕ} {ls : List (List ℕ)}
    (hls : List.Forall₂ (fun c l ↦ l.Nodup ∧ ∀ x, x ∈ l ↔ Below (parentOf mem) c x) cs ls)
    (hcs : cs.Nodup) (hparent : ∀ c ∈ cs, parentOf mem c = some a) :
    ls.flatten.Nodup ∧ ∀ x, x ∈ ls.flatten ↔ ∃ c ∈ cs, Below (parentOf mem) c x := by
  induction hls with
  | nil => simp
  | @cons c l cs ls hc _ ih =>
    obtain ⟨hnodup, hmem⟩ := hc
    rw [List.nodup_cons] at hcs
    obtain ⟨ihnodup, ihmem⟩ := ih hcs.2 fun d hd ↦ hparent d (List.mem_cons_of_mem c hd)
    rw [List.flatten_cons]
    constructor
    · rw [List.nodup_append']
      refine ⟨hnodup, ihnodup, ?_⟩
      intro x hx hx'
      obtain ⟨d, hd, hdx⟩ := (ihmem x).mp hx'
      have hne : c ≠ d := by
        rintro rfl
        exact hcs.1 hd
      exact h.acyclic.siblings (hparent c List.mem_cons_self)
        (hparent d (List.mem_cons_of_mem c hd)) hne ((hmem x).mp hx) hdx
    · intro x
      rw [List.mem_append, hmem, ihmem]
      simp

theorem Links.order (h : Links mem fresh) (ha : (mem a).isSome) {fuel : ℕ}
    (hfuel : {x | Below (parentOf mem) a x}.ncard ≤ fuel) :
    ∃ l, order mem fuel a = some l ∧ l.Nodup ∧ ∀ x, x ∈ l ↔ Below (parentOf mem) a x := by
  induction fuel generalizing a with
  | zero =>
    have hpos := (Set.ncard_pos (h.finite_below ha)).mpr ⟨a, Below.refl a⟩
    omega
  | succ fuel ih =>
    obtain ⟨n, hn⟩ := Option.isSome_iff_exists.mp ha
    have hcs : childOf mem a = some n.child := by rw [childOf, hn, Option.map_some]
    have hparent : ∀ c ∈ n.child, parentOf mem c = some a :=
      fun c hc ↦ (h.child_iff a n.child hcs c).mp hc
    have hchild : ∀ c ∈ n.child, ∃ l, NTree.order mem fuel c = some l ∧
        (l.Nodup ∧ ∀ x, x ∈ l ↔ Below (parentOf mem) c x) := by
      intro c hc
      have hac : Below (parentOf mem) a c := (Below.refl a).tail (hparent c hc)
      apply ih (live_of_below ha hac)
      have hlt : {x | Below (parentOf mem) c x} ⊂ {x | Below (parentOf mem) a x} := by
        refine ⟨fun x hx ↦ hac.trans hx, ?_⟩
        intro hsub
        exact h.acyclic a c (hparent c hc) (hsub (Below.refl a))
      have hcard := Set.ncard_lt_ncard hlt (h.finite_below ha)
      omega
    obtain ⟨ls, hls, hPs⟩ := exists_mapM hchild
    obtain ⟨hnodup, hmem⟩ := h.flatten hPs (h.nodup_child hcs) hparent
    refine ⟨a :: ls.flatten, ?_, ?_, ?_⟩
    · rw [NTree.order, hn]
      simp only [Option.bind_eq_bind, Option.bind_some, hls]
      rfl
    · rw [List.nodup_cons]
      refine ⟨?_, hnodup⟩
      intro hmema
      obtain ⟨c, hc, hca⟩ := (hmem a).mp hmema
      exact h.acyclic a c (hparent c hc) hca
    · intro x
      rw [List.mem_cons, hmem]
      constructor
      · rintro (rfl | ⟨c, hc, hcx⟩)
        · exact .refl x
        · exact ((Below.refl a).tail (hparent c hc)).trans hcx
      · intro hx
        rcases hx.eq_or_head with rfl | ⟨c, hc, hcx⟩
        · exact .inl rfl
        · exact .inr ⟨c, (h.child_iff a n.child hcs c).mpr hc, hcx⟩

theorem Links.order_fresh (h : Links mem fresh) (ha : (mem a).isSome) :
    ∃ l, NTree.order mem fresh a = some l ∧ l.Nodup ∧ ∀ x, x ∈ l ↔ Below (parentOf mem) a x :=
  h.order ha (h.card_le_fresh ha)

theorem mapM_map {α β γ : Type} {f : α → Option γ} {g : α → Option β} {k : β → γ}
    (h : ∀ c, f c = (g c).map k) (cs : List α) : cs.mapM f = (cs.mapM g).map (List.map k) := by
  induction cs with
  | nil => rfl
  | cons c cs ih =>
    rw [List.mapM_cons, List.mapM_cons, h, ih]
    cases g c with
    | none => rfl
    | some l => cases cs.mapM g <;> rfl

theorem size_eq (fuel : ℕ) : size mem fuel a = (NTree.order mem fuel a).map List.length := by
  induction fuel generalizing a with
  | zero => rfl
  | succ fuel ih =>
    rw [size, NTree.order]
    cases hn : mem a with
    | none => rfl
    | some n =>
      simp only [Option.bind_eq_bind, Option.bind_some]
      rw [mapM_map (fun c ↦ ih) n.child]
      cases n.child.mapM (NTree.order mem fuel) with
      | none => rfl
      | some ls =>
        change some (1 + (ls.map List.length).sum) = some (a :: ls.flatten).length
        rw [List.length_cons, List.length_flatten, Nat.add_comm]

theorem Links.size (h : Links mem fresh) (ha : (mem a).isSome) :
    NTree.size mem fresh a = some {x | Below (parentOf mem) a x}.ncard := by
  obtain ⟨l, hl, hnodup, hmem⟩ := h.order_fresh ha
  have hset : {x | Below (parentOf mem) a x} = (l.toFinset : Set ℕ) := by
    ext x
    rw [Set.mem_ofPred_eq, ← hmem, Finset.mem_coe, List.mem_toFinset]
  rw [size_eq, hl, Option.map_some, hset, Set.ncard_coe_finset, List.toFinset_card_of_nodup hnodup]

theorem size_congr {mem mem' : Mem} (h : childOf mem' = childOf mem) (fuel a : ℕ) :
    NTree.size mem' fuel a = NTree.size mem fuel a := by
  induction fuel generalizing a with
  | zero => rfl
  | succ fuel ih =>
    have ha := congrFun h a
    have hsize : NTree.size mem' fuel = NTree.size mem fuel := funext ih
    rw [childOf, childOf] at ha
    rw [NTree.size, NTree.size, hsize]
    cases hn : mem a with
    | none =>
      rw [hn, Option.map_none, Option.map_eq_none_iff] at ha
      rw [ha]
    | some n =>
      rw [hn, Option.map_some, Option.map_eq_some_iff] at ha
      obtain ⟨n', hn', hchild⟩ := ha
      rw [hn']
      simp only [Option.bind_eq_bind, Option.bind_some, hchild]

/-- The memory without some nodes. -/
def without (mem : Mem) (l : List ℕ) : Mem := fun x ↦ if x ∈ l then none else mem x

theorem without_append (mem : Mem) (l l' : List ℕ) :
    without (without mem l) l' = without mem (l ++ l') := by
  funext x
  simp only [without, List.mem_append]
  by_cases hx : x ∈ l <;> by_cases hx' : x ∈ l' <;> simp [hx, hx']

theorem foldlM_free (free : ℕ → Mem → Option Mem) {nodes : ℕ → Option (List ℕ)}
    (hfree : ∀ c l m, nodes c = some l → l.Nodup → (∀ x ∈ l, m x = mem x) →
      free c m = some (without m l))
    {cs : List ℕ} {ls : List (List ℕ)} {m : Mem} (hls : cs.mapM nodes = some ls)
    (hnodup : ls.flatten.Nodup) (hm : ∀ x ∈ ls.flatten, m x = mem x) :
    cs.foldlM (fun mem c ↦ free c mem) m = some (without m ls.flatten) := by
  induction cs generalizing ls m with
  | nil =>
    cases hls
    rfl
  | cons c cs ih =>
    rw [List.mapM_cons] at hls
    cases hc : nodes c with
    | none => simp [hc] at hls
    | some l =>
      cases hrest : cs.mapM nodes with
      | none => simp [hc, hrest] at hls
      | some ls' =>
        simp only [hc, hrest, Option.bind_eq_bind, Option.bind_some] at hls
        cases hls
        rw [List.flatten_cons] at hnodup hm ⊢
        rw [List.nodup_append'] at hnodup
        obtain ⟨hl, hls', hdisj⟩ := hnodup
        have hone := hfree c l m hc hl fun x hx ↦ hm x (List.mem_append_left _ hx)
        have hkept : ∀ x ∈ ls'.flatten, without m l x = mem x := by
          intro x hx
          rw [without, if_neg fun hx' ↦ hdisj hx' hx]
          exact hm x (List.mem_append_right l hx)
        rw [List.foldlM_cons, hone]
        change cs.foldlM _ (without m l) = _
        rw [ih hrest hls' hkept, without_append]

theorem free_rec_order {fuel : ℕ} {l : List ℕ} (hl : NTree.order mem fuel a = some l)
    (hnodup : l.Nodup) {m : Mem} (hagree : ∀ x ∈ l, m x = mem x) :
    free_rec fuel a m = some (without m l) := by
  induction fuel generalizing a l m with
  | zero => cases hl
  | succ fuel ih =>
    rw [NTree.order] at hl
    cases hn : mem a with
    | none => simp [hn] at hl
    | some n =>
      cases hls : n.child.mapM (NTree.order mem fuel) with
      | none => simp [hn, hls] at hl
      | some ls =>
        simp only [hn, hls, Option.bind_eq_bind, Option.bind_some] at hl
        cases hl
        have hn' : m a = some n := (hagree a List.mem_cons_self).trans hn
        rw [List.nodup_cons] at hnodup
        have hchildren := foldlM_free (free_rec fuel)
          (fun c l m hc hl hm ↦ ih hc hl hm) hls hnodup.2
          fun x hx ↦ hagree x (List.mem_cons_of_mem a hx)
        rw [free_rec, hn']
        simp only [Option.bind_eq_bind, Option.bind_some, hchildren]
        change some _ = some _
        congr 1
        funext x
        by_cases hx : x = a
        · subst hx
          rw [Function.update_self, without, if_pos List.mem_cons_self]
        · rw [Function.update_of_ne hx, without, without]
          simp only [List.mem_cons, hx, false_or]

theorem Links.free_rec (h : Links mem fresh) (ha : (mem a).isSome) :
    ∃ l, NTree.free_rec fresh a mem = some (without mem l) ∧
      ∀ x, x ∈ l ↔ Below (parentOf mem) a x := by
  obtain ⟨l, hl, hnodup, hmem⟩ := h.order_fresh ha
  exact ⟨l, free_rec_order hl hnodup fun _ _ ↦ rfl, hmem⟩

theorem cutAt_append (visit : ℕ → ℤ) (l l' : List ℕ) :
    cutAt visit (l ++ l') =
      if (cutAt visit l).2 ≠ 0 then cutAt visit l
      else ((cutAt visit l).1 ++ (cutAt visit l').1, (cutAt visit l').2) := by
  induction l with
  | nil => simp [cutAt]
  | cons a l ih =>
    rw [List.cons_append, cutAt, cutAt]
    by_cases ha : visit a ≠ 0
    · simp [ha]
    · simp only [if_neg ha, ih]
      by_cases hl : (cutAt visit l).2 ≠ 0
      · simp only [if_pos hl]
      · simp only [if_neg hl, List.cons_append]

theorem visitAll_order {visit : ℕ → ℤ} {f : ℕ → Option (List ℕ × ℤ)}
    {nodes : ℕ → Option (List ℕ)} (h : ∀ c l, nodes c = some l → f c = some (cutAt visit l))
    {cs : List ℕ} {ls : List (List ℕ)} (hls : cs.mapM nodes = some ls) :
    visitAll f cs = some (cutAt visit ls.flatten) := by
  induction cs generalizing ls with
  | nil =>
    cases hls
    rfl
  | cons c cs ih =>
    rw [List.mapM_cons] at hls
    cases hc : nodes c with
    | none => simp [hc] at hls
    | some l =>
      cases hrest : cs.mapM nodes with
      | none => simp [hc, hrest] at hls
      | some ls' =>
        simp only [hc, hrest, Option.bind_eq_bind, Option.bind_some] at hls
        cases hls
        rw [List.flatten_cons, cutAt_append, visitAll, h c l hc]
        simp only [Option.bind_eq_bind, Option.bind_some, ih hrest]
        split_ifs <;> rfl

theorem preorder_order (visit : ℕ → ℤ) {fuel : ℕ} {l : List ℕ}
    (hl : NTree.order mem fuel a = some l) :
    preorder_impl mem visit fuel a = some (cutAt visit l) := by
  induction fuel generalizing a l with
  | zero => cases hl
  | succ fuel ih =>
    rw [NTree.order] at hl
    cases hn : mem a with
    | none => simp [hn] at hl
    | some n =>
      cases hls : n.child.mapM (NTree.order mem fuel) with
      | none => simp [hn, hls] at hl
      | some ls =>
        simp only [hn, hls, Option.bind_eq_bind, Option.bind_some] at hl
        cases hl
        rw [preorder_impl, hn, cutAt]
        simp only [Option.bind_eq_bind, Option.bind_some,
          visitAll_order (fun c l hc ↦ ih hc) hls]
        split_ifs <;> rfl

end Order

section Change

variable {mem : Mem} {fresh a c p : ℕ}

theorem Before.congr {mem' : Mem} {c d : ℕ} (h : Before mem c d)
    (hc : nameOf mem' c = nameOf mem c) (hd : nameOf mem' d = nameOf mem d) :
    Before mem' c d := by
  obtain ⟨x, y, hx, hy, hlt⟩ := h
  exact ⟨x, y, hc.trans hx, hd.trans hy, hlt⟩

theorem fields_new (h : mem fresh = none) (name : Option Text) :
    nameOf (Function.update mem fresh (some ⟨name, [], none⟩)) =
        Function.update (nameOf mem) fresh (some name) ∧
      parentOf (Function.update mem fresh (some ⟨name, [], none⟩)) = parentOf mem ∧
      childOf (Function.update mem fresh (some ⟨name, [], none⟩)) =
        Function.update (childOf mem) fresh (some []) := by
  refine ⟨funext fun x ↦ ?_, funext fun x ↦ ?_, funext fun x ↦ ?_⟩
  · by_cases hx : x = fresh
    · subst hx
      rw [nameOf, Function.update_self, Function.update_self]
      rfl
    · rw [nameOf, Function.update_of_ne hx, Function.update_of_ne hx, nameOf]
  · by_cases hx : x = fresh
    · subst hx
      rw [parentOf_eq_none h, parentOf, Function.update_self]
      rfl
    · rw [parentOf, Function.update_of_ne hx, parentOf]
  · by_cases hx : x = fresh
    · subst hx
      rw [childOf, Function.update_self, Function.update_self]
      rfl
    · rw [childOf, Function.update_of_ne hx, Function.update_of_ne hx, childOf]

theorem Links.new (h : Links mem fresh) (name : Option Text) :
    Links (Function.update mem fresh (some ⟨name, [], none⟩)) (fresh + 1) := by
  have hnone : mem fresh = none := h.fresh fresh le_rfl
  obtain ⟨hname, hparent, hchild⟩ := fields_new hnone name
  have hold : ∀ d, (mem d).isSome → nameOf (Function.update mem fresh (some ⟨name, [], none⟩)) d =
      nameOf mem d := by
    intro d hd
    have hne : d ≠ fresh := by
      rintro rfl
      rw [hnone] at hd
      cases hd
    rw [hname, Function.update_of_ne hne]
  have hlive : ∀ d b, parentOf mem d = some b → (mem d).isSome := by
    intro d b hd
    by_contra hnot
    rw [parentOf_eq_none (Option.not_isSome_iff_eq_none.mp hnot)] at hd
    cases hd
  refine ⟨?_, by rw [hparent]; exact h.acyclic, ?_, ?_, ?_, ?_⟩
  · intro b hb
    rw [Function.update_of_ne (by omega)]
    exact h.fresh b (by omega)
  · intro b cs hcs d
    rw [hparent]
    by_cases hb : b = fresh
    · subst hb
      rw [hchild, Function.update_self] at hcs
      cases hcs
      constructor
      · exact fun hd ↦ absurd hd List.not_mem_nil
      · intro hd
        have hsome := h.parent_live d _ hd
        rw [isSome_childOf, hnone] at hsome
        cases hsome
    · rw [hchild, Function.update_of_ne hb] at hcs
      exact h.child_iff b cs hcs d
  · intro d b hd
    rw [hparent] at hd
    rw [hchild]
    by_cases hb : b = fresh
    · subst hb
      rw [Function.update_self]
      rfl
    · rw [Function.update_of_ne hb]
      exact h.parent_live d b hd
  · intro b cs hcs
    by_cases hb : b = fresh
    · subst hb
      rw [hchild, Function.update_self] at hcs
      cases hcs
      exact .nil
    · rw [hchild, Function.update_of_ne hb] at hcs
      refine (h.ascending b cs hcs).imp_of_mem ?_
      intro d e hd he hlt
      have hd' := hlive d b ((h.child_iff b cs hcs d).mp hd)
      have he' := hlive e b ((h.child_iff b cs hcs e).mp he)
      exact hlt.congr (hold d hd') (hold e he')
  · intro d b hd
    rw [hparent] at hd
    rw [hold d (hlive d b hd)]
    exact h.named d b hd

theorem Links.relink (h : Links mem fresh) (hp : (mem p).isSome) (hc : (mem c).isSome)
    {cs : List ℕ} {q : Option ℕ} (hq : q = some p ∨ q = none)
    (hacyclic : Acyclic (Function.update (parentOf mem) c q))
    (hmem : ∀ d, d ∈ cs ↔ Function.update (parentOf mem) c q d = some p)
    (hother : ∀ b, parentOf mem c = some b → b = p)
    (hascending : cs.Pairwise (Before mem))
    (hnamed : q = some p → ∃ x, nameOf mem c = some (some x)) :
    Links (setParent (setChild mem p cs) c q) fresh := by
  have hc' : (setChild mem p cs c).isSome := by
    rw [← isSome_childOf, childOf_setChild hp]
    by_cases hcp : c = p
    · subst hcp
      rw [Function.update_self]
      rfl
    · rw [Function.update_of_ne hcp, isSome_childOf]
      exact hc
  have hparent : parentOf (setParent (setChild mem p cs) c q) =
      Function.update (parentOf mem) c q := by
    rw [parentOf_setParent hc', parentOf_setChild]
  have hchild : childOf (setParent (setChild mem p cs) c q) =
      Function.update (childOf mem) p (some cs) := by
    rw [childOf_setParent, childOf_setChild hp]
  have hname : nameOf (setParent (setChild mem p cs) c q) = nameOf mem := by
    rw [nameOf_setParent, nameOf_setChild]
  refine ⟨?_, by rw [hparent]; exact hacyclic, ?_, ?_, ?_, ?_⟩
  · intro b hb
    have hnone : (childOf (setParent (setChild mem p cs) c q) b).isSome = false := by
      have hlt := h.lt_fresh hp
      rw [hchild, Function.update_of_ne (by omega), isSome_childOf, h.fresh b hb]
      rfl
    rw [isSome_childOf] at hnone
    exact Option.isSome_eq_false_iff.mp hnone |> Option.isNone_iff_eq_none.mp
  · intro b ds hds d
    rw [hparent]
    by_cases hb : b = p
    · subst hb
      rw [hchild, Function.update_self] at hds
      cases hds
      exact hmem d
    · rw [hchild, Function.update_of_ne hb] at hds
      rw [h.child_iff b ds hds d]
      by_cases hd : d = c
      · subst hd
        rw [Function.update_self]
        constructor
        · intro hd
          exact absurd (hother b hd) hb
        · intro hd
          rcases hq with rfl | rfl
          · cases hd
            exact absurd rfl hb
          · cases hd
      · rw [Function.update_of_ne hd]
  · intro d b hd
    rw [hparent] at hd
    rw [hchild]
    by_cases hb : b = p
    · subst hb
      rw [Function.update_self]
      rfl
    · rw [Function.update_of_ne hb]
      by_cases hdc : d = c
      · subst hdc
        rw [Function.update_self] at hd
        rcases hq with rfl | rfl
        · cases hd
          exact absurd rfl hb
        · cases hd
      · rw [Function.update_of_ne hdc] at hd
        exact h.parent_live d b hd
  · intro b ds hds
    have hcongr : ∀ d e, Before mem d e → Before (setParent (setChild mem p cs) c q) d e :=
      fun d e hlt ↦ hlt.congr (congrFun hname d) (congrFun hname e)
    by_cases hb : b = p
    · subst hb
      rw [hchild, Function.update_self] at hds
      cases hds
      exact hascending.imp fun {d e} ↦ hcongr d e
    · rw [hchild, Function.update_of_ne hb] at hds
      exact (h.ascending b ds hds).imp fun {d e} ↦ hcongr d e
  · intro d b hd
    rw [hparent] at hd
    rw [hname]
    by_cases hdc : d = c
    · subst hdc
      rw [Function.update_self] at hd
      rcases hq with rfl | rfl
      · exact hnamed rfl
      · cases hd
    · rw [Function.update_of_ne hdc] at hd
      exact h.named d b hd

theorem parentOf_without (mem : Mem) (l : List ℕ) (x : ℕ) :
    parentOf (without mem l) x = if x ∈ l then none else parentOf mem x := by
  rw [parentOf, without]
  split_ifs <;> rfl

theorem nameOf_without (mem : Mem) (l : List ℕ) (x : ℕ) :
    nameOf (without mem l) x = if x ∈ l then none else nameOf mem x := by
  rw [nameOf, without]
  split_ifs <;> rfl

theorem childOf_without (mem : Mem) (l : List ℕ) (x : ℕ) :
    childOf (without mem l) x = if x ∈ l then none else childOf mem x := by
  rw [childOf, without]
  split_ifs <;> rfl

theorem Links.cut (h : Links mem fresh) (htop : parentOf mem a = none) {l : List ℕ}
    (hl : ∀ x, x ∈ l ↔ Below (parentOf mem) a x) : Links (without mem l) fresh := by
  have hold : ∀ d b, parentOf (without mem l) d = some b → d ∉ l ∧ parentOf mem d = some b := by
    intro d b hd
    rw [parentOf_without] at hd
    split_ifs at hd with hdl
    exact ⟨hdl, hd⟩
  -- a node that is kept has its parent and its children kept
  have hkeep : ∀ d b, parentOf mem d = some b → (d ∈ l ↔ b ∈ l) := by
    intro d b hd
    rw [hl, hl]
    constructor
    · intro had
      rcases had.eq_or_tail with rfl | ⟨y, hy, hay⟩
      · rw [htop] at hd
        cases hd
      · cases hd.symm.trans hy
        exact hay
    · exact fun hab ↦ hab.tail hd
  refine ⟨?_, h.acyclic.mono fun b d hd ↦ (hold d b hd).2, ?_, ?_, ?_, ?_⟩
  · intro b hb
    rw [without, h.fresh b hb, ite_self]
  · intro b cs hcs d
    rw [childOf_without] at hcs
    split_ifs at hcs with hbl
    rw [h.child_iff b cs hcs d]
    constructor
    · intro hd
      rw [parentOf_without, if_neg (by rwa [hkeep d b hd])]
      exact hd
    · exact fun hd ↦ (hold d b hd).2
  · intro d b hd
    obtain ⟨hdl, hd⟩ := hold d b hd
    rw [childOf_without, if_neg (by rwa [← hkeep d b hd])]
    exact h.parent_live d b hd
  · intro b cs hcs
    rw [childOf_without] at hcs
    split_ifs at hcs with hbl
    have hname : ∀ d ∈ cs, nameOf (without mem l) d = nameOf mem d := by
      intro d hd
      have hparent := (h.child_iff b cs hcs d).mp hd
      rw [nameOf_without, if_neg (by rwa [hkeep d b hparent])]
    refine (h.ascending b cs hcs).imp_of_mem ?_
    intro d e hd he hlt
    exact hlt.congr (hname d hd) (hname e he)
  · intro d b hd
    obtain ⟨hdl, hd⟩ := hold d b hd
    rw [nameOf_without, if_neg hdl]
    exact h.named d b hd

end Change

section Search

variable {mem : Mem} {fresh : ℕ}

theorem exists_node {c : ℕ} {x : Text} (h : nameOf mem c = some (some x)) :
    ∃ n, mem c = some n ∧ n.name = some x := by
  rw [nameOf, Option.map_eq_some_iff] at h
  exact h

theorem insertPosFrom_spec (name : Text) {cs : List ℕ} (hcs : cs.Pairwise (Before mem))
    (hnamed : ∀ c ∈ cs, ∃ x, nameOf mem c = some (some x)) (i : ℕ) :
    (∃ c ∈ cs, nameOf mem c = some (some name)) ∧ insertPosFrom mem name cs i = some none ∨
      (∀ c ∈ cs, nameOf mem c ≠ some (some name)) ∧ ∃ xs ys, cs = xs ++ ys ∧
        insertPosFrom mem name cs i = some (some (i + xs.length)) ∧
        (∀ c ∈ xs, ∃ x, nameOf mem c = some (some x) ∧ strcmp x name = .lt) ∧
        ∀ c ∈ ys, ∃ x, nameOf mem c = some (some x) ∧ strcmp name x = .lt := by
  induction cs generalizing i with
  | nil => exact .inr ⟨by simp, [], [], rfl, rfl, by simp, by simp⟩
  | cons c cs ih =>
    rw [List.pairwise_cons] at hcs
    obtain ⟨hfirst, hcs⟩ := hcs
    obtain ⟨x, hx⟩ := hnamed c List.mem_cons_self
    obtain ⟨n, hn, hname⟩ := exists_node hx
    cases hcmp : strcmp name x with
    | eq =>
      have heq := Std.LawfulEqCmp.eq_of_compare hcmp
      subst heq
      refine .inl ⟨⟨c, List.mem_cons_self, hx⟩, ?_⟩
      simp [insertPosFrom, hn, hname, hcmp]
    | lt =>
      -- all children from here on have a later name
      have hlater : ∀ d ∈ c :: cs, ∃ y, nameOf mem d = some (some y) ∧ strcmp name y = .lt := by
        intro d hd
        rcases List.mem_cons.mp hd with rfl | hd
        · exact ⟨x, hx, hcmp⟩
        · obtain ⟨x', y, hx', hy, hlt⟩ := hfirst d hd
          cases hx.symm.trans hx'
          exact ⟨y, hy, Std.TransCmp.lt_trans hcmp hlt⟩
      refine .inr ⟨?_, [], c :: cs, rfl, ?_, by simp, hlater⟩
      · intro d hd heq
        obtain ⟨y, hy, hlt⟩ := hlater d hd
        cases hy.symm.trans heq
        rw [show strcmp _ _ = .eq from Std.ReflCmp.compare_self] at hlt
        cases hlt
      · simp [insertPosFrom, hn, hname, hcmp]
    | gt =>
      have hstep : insertPosFrom mem name (c :: cs) i = insertPosFrom mem name cs (i + 1) := by
        simp [insertPosFrom, hn, hname, hcmp]
      rw [hstep]
      rcases ih hcs (fun d hd ↦ hnamed d (List.mem_cons_of_mem c hd)) (i + 1) with
        ⟨⟨d, hd, hdname⟩, hfound⟩ | ⟨hnone, xs, ys, rfl, hpos, hxs, hys⟩
      · exact .inl ⟨⟨d, List.mem_cons_of_mem c hd, hdname⟩, hfound⟩
      · have hlt : strcmp x name = .lt := Std.OrientedCmp.gt_iff_lt.mp hcmp
        refine .inr ⟨?_, c :: xs, ys, rfl, ?_, ?_, hys⟩
        · intro d hd heq
          rcases List.mem_cons.mp hd with rfl | hd
          · cases hx.symm.trans heq
            rw [show strcmp _ _ = .eq from Std.ReflCmp.compare_self] at hlt
            cases hlt
          · exact hnone d hd heq
        · rw [hpos, List.length_cons]
          congr 2
          omega
        · intro d hd
          rcases List.mem_cons.mp hd with rfl | hd
          · exact ⟨x, hx, hlt⟩
          · exact hxs d hd

theorem findName_spec (name : Text) {cs : List ℕ}
    (hnamed : ∀ c ∈ cs, ∃ x, nameOf mem c = some (some x)) :
    ∃ r, findName mem name cs = some r ∧
      ((∃ c ∈ cs, r = some c ∧ nameOf mem c = some (some name)) ∨
        r = none ∧ ∀ c ∈ cs, nameOf mem c ≠ some (some name)) := by
  induction cs with
  | nil => exact ⟨none, rfl, .inr ⟨rfl, by simp⟩⟩
  | cons c cs ih =>
    obtain ⟨x, hx⟩ := hnamed c List.mem_cons_self
    obtain ⟨n, hn, hname⟩ := exists_node hx
    by_cases hcmp : strcmp x name = .eq
    · have heq := Std.LawfulEqCmp.eq_of_compare hcmp
      subst heq
      refine ⟨some c, ?_, .inl ⟨c, List.mem_cons_self, rfl, hx⟩⟩
      simp [findName, hn, hname]
    · obtain ⟨r, hr, hcases⟩ := ih fun d hd ↦ hnamed d (List.mem_cons_of_mem c hd)
      have hne : x ≠ name := by
        rintro rfl
        exact hcmp Std.ReflCmp.compare_self
      refine ⟨r, ?_, ?_⟩
      · rw [← hr]
        simp [findName, hn, hname, hne]
      · rcases hcases with ⟨d, hd, hrd, hdname⟩ | ⟨hrn, hnone⟩
        · exact .inl ⟨d, List.mem_cons_of_mem c hd, hrd, hdname⟩
        · refine .inr ⟨hrn, ?_⟩
          intro d hd heq
          rcases List.mem_cons.mp hd with rfl | hd
          · cases hx.symm.trans heq
            exact hne rfl
          · exact hnone d hd heq

theorem below_top (mem : Mem) (fuel a : ℕ) : Below (parentOf mem) (top mem fuel a) a := by
  induction fuel generalizing a with
  | zero => exact .refl a
  | succ fuel ih =>
    rw [top]
    cases hp : parentOf mem a with
    | none => exact .refl a
    | some p => exact (ih p).tail hp

theorem InTree.below {t : NTree} {a : ℕ} (h : t.InTree a) : t.forest.Attached a :=
  ⟨_, h, below_top t.mem t.fresh a⟩

end Search

section Operations

variable {t : NTree} {a c p : ℕ}

theorem attached_some (parent : ℕ → Option ℕ) (r : ℕ) :
    {x | ∃ r' ∈ some r, Below parent r' x} = {x | Below parent r x} := by
  ext x
  simp

theorem ncard_attached_none (parent : ℕ → Option ℕ) :
    {x | ∃ r ∈ (none : Option ℕ), Below parent r x}.ncard = 0 := by
  have hempty : {x | ∃ r ∈ (none : Option ℕ), Below parent r x} = ∅ := by
    ext x
    simp
  rw [hempty, Set.ncard_empty]

theorem WellFormed.count_eq_of_root (ht : t.WellFormed) {r : ℕ} (hr : t.root = some r) :
    t.node_count = {x | Below (parentOf t.mem) r x}.ncard := by
  have hcount : t.node_count = {x | ∃ r ∈ t.root, Below (parentOf t.mem) r x}.ncard := ht.count_eq
  rw [hr, attached_some] at hcount
  exact hcount

namespace WellFormed

theorem link (ht : t.WellFormed) (hp : t.InTree p) (hc : t.Live c)
    (htop : parentOf t.mem c = none) (hroot : t.root ≠ some c) {name : Text}
    (hname : nameOf t.mem c = some (some name)) {xs ys : List ℕ}
    (hchild : childOf t.mem p = some (xs ++ ys))
    (hxs : ∀ d ∈ xs, ∃ x, nameOf t.mem d = some (some x) ∧ strcmp x name = .lt)
    (hys : ∀ d ∈ ys, ∃ x, nameOf t.mem d = some (some x) ∧ strcmp name x = .lt) :
    ∃ t', t.link p c xs.length (xs ++ ys) = some t' ∧ t'.WellFormed ∧
      t'.forest = t.forest.hang c (some p) := by
  have hlinks := ht.links
  obtain ⟨r, hr, hrp⟩ := hp.below
  have hr : t.root = some r := hr
  obtain ⟨hrlive, hrtop⟩ := ht.root_top r hr
  have hrp : Below (parentOf t.mem) r p := hrp
  have hne : r ≠ c := by
    rintro rfl
    exact hroot hr
  have hplive : (t.mem p).isSome := live_of_below hrlive hrp
  have hcp : ¬Below (parentOf t.mem) c p := by
    intro h
    rcases hrp.total h with h | h
    · exact hne (h.eq_of_top htop).symm
    · exact hne (h.eq_of_top hrtop)
  have hascending : (xs ++ c :: ys).Pairwise (Before t.mem) := by
    have hold := hlinks.ascending p _ hchild
    rw [List.pairwise_append] at hold ⊢
    refine ⟨hold.1, List.pairwise_cons.mpr ⟨?_, hold.2.1⟩, ?_⟩
    · intro d hd
      obtain ⟨x, hx, hlt⟩ := hys d hd
      exact ⟨name, x, hname, hx, hlt⟩
    · intro d hd e he
      rcases List.mem_cons.mp he with rfl | he
      · obtain ⟨x, hx, hlt⟩ := hxs d hd
        exact ⟨x, name, hx, hname, hlt⟩
      · exact hold.2.2 d hd e he
  have hmem : ∀ d, d ∈ xs ++ c :: ys ↔
      Function.update (parentOf t.mem) c (some p) d = some p := by
    intro d
    have hold := hlinks.child_iff p _ hchild d
    by_cases hd : d = c
    · subst hd
      rw [Function.update_self]
      simp
    · rw [Function.update_of_ne hd, ← hold]
      simp [hd]
  have hnew := hlinks.relink hplive hc (q := some p) (.inl rfl)
    (acyclic_attach hlinks.acyclic htop hcp) hmem
    (fun b hb ↦ by rw [htop] at hb; cases hb) hascending fun _ ↦ ⟨name, hname⟩
  have hc' : (setChild t.mem p (xs ++ c :: ys) c).isSome := by
    have hcne : c ≠ p := by
      rintro rfl
      exact hcp (.refl c)
    rw [setChild, Function.update_of_ne hcne]
    exact hc
  have hparent : parentOf (setParent (setChild t.mem p (xs ++ c :: ys)) c (some p)) =
      Function.update (parentOf t.mem) c (some p) := by
    rw [parentOf_setParent hc', parentOf_setChild]
  have hlive : (setParent (setChild t.mem p (xs ++ c :: ys)) c (some p) c).isSome := by
    rw [← isSome_childOf, childOf_setParent, isSome_childOf]
    exact hc'
  have hbelow : {x | Below (Function.update (parentOf t.mem) c (some p)) c x} =
      {x | Below (parentOf t.mem) c x} := by
    ext x
    rw [Set.mem_ofPred_eq, below_attach htop, Set.mem_ofPred_eq]
    constructor
    · rintro (h | h)
      · exact h
      · exact h.2
    · exact .inl
  have hsize := hnew.size hlive
  rw [hparent, hbelow] at hsize
  have hlink : t.link p c xs.length (xs ++ ys) = some { t with
      mem := setParent (setChild t.mem p (xs ++ c :: ys)) c (some p)
      node_count := t.node_count + {x | Below (parentOf t.mem) c x}.ncard } := by
    rw [NTree.link, List.take_left, List.drop_left]
    simp only [hsize, Option.map_some]
  refine ⟨_, hlink, ⟨hnew, ?_, ?_⟩, ?_⟩
  · intro r' hr'
    cases hr.symm.trans hr'
    constructor
    · rw [Live, ← isSome_childOf, childOf_setParent, childOf_setChild hplive]
      by_cases hpr : r = p
      · rw [hpr, Function.update_self]
        rfl
      · rw [Function.update_of_ne hpr, isSome_childOf]
        exact hrlive
    · rw [hparent, Function.update_of_ne hne]
      exact hrtop
  · change t.node_count + _ = (({x | ∃ r ∈ t.root, Below (parentOf (setParent
      (setChild t.mem p (xs ++ c :: ys)) c (some p))) r x}.ncard : ℕ) : ℤ)
    rw [hr, attached_some, hparent, card_attach hrtop htop hne hrp (hlinks.finite_below hrlive)
      (hlinks.finite_below hc), ht.count_eq_of_root hr]
    push_cast
    rfl
  · rw [forest, NForest.hang, hparent, nameOf_setParent, nameOf_setChild]
    rfl

theorem unlink (ht : t.WellFormed) (ha : t.InTree a) (hp : parentOf t.mem a = some p)
    {cs : List ℕ} (hchild : childOf t.mem p = some cs) :
    ∃ t', t.unlink p a cs = some t' ∧ t'.WellFormed ∧ t'.forest = t.forest.hang a none ∧
      t'.Live a := by
  have hlinks := ht.links
  obtain ⟨r, hr, hra⟩ := ha.below
  have hr : t.root = some r := hr
  obtain ⟨hrlive, hrtop⟩ := ht.root_top r hr
  have hra : Below (parentOf t.mem) r a := hra
  have hne : r ≠ a := by
    rintro rfl
    rw [hrtop] at hp
    cases hp
  have hplive : (t.mem p).isSome := by
    rw [← isSome_childOf, hchild]
    rfl
  have halive : (t.mem a).isSome := live_of_below hrlive hra
  have hmem : ∀ d, d ∈ cs.erase a ↔ Function.update (parentOf t.mem) a none d = some p := by
    intro d
    rw [(hlinks.nodup_child hchild).mem_erase_iff, hlinks.child_iff p cs hchild d]
    by_cases hd : d = a
    · subst hd
      rw [Function.update_self]
      simp
    · rw [Function.update_of_ne hd]
      simp [hd]
  have hnew := hlinks.relink hplive halive (q := none) (.inr rfl) (acyclic_detach hlinks.acyclic)
    hmem (fun b hb ↦ by rw [hp] at hb; exact (Option.some.inj hb).symm)
    ((hlinks.ascending p cs hchild).sublist List.erase_sublist) fun h ↦ by cases h
  have ha' : (setChild t.mem p (cs.erase a) a).isSome := by
    rw [← isSome_childOf, childOf_setChild hplive]
    by_cases hap : a = p
    · subst hap
      rw [Function.update_self]
      rfl
    · rw [Function.update_of_ne hap, isSome_childOf]
      exact halive
  have hparent : parentOf (setParent (setChild t.mem p (cs.erase a)) a none) =
      Function.update (parentOf t.mem) a none := by
    rw [parentOf_setParent ha', parentOf_setChild]
  have hlive : (setParent (setChild t.mem p (cs.erase a)) a none a).isSome := by
    rw [← isSome_childOf, childOf_setParent, isSome_childOf]
    exact ha'
  have hbelow : {x | Below (Function.update (parentOf t.mem) a none) a x} =
      {x | Below (parentOf t.mem) a x} := by
    ext x
    exact below_detach_self hlinks.acyclic
  have hsize := hnew.size hlive
  rw [hparent, hbelow, size_congr (childOf_setParent none)] at hsize
  have hunlink : t.unlink p a cs = some { t with
      mem := setParent (setChild t.mem p (cs.erase a)) a none
      node_count := t.node_count - {x | Below (parentOf t.mem) a x}.ncard } := by
    rw [NTree.unlink]
    simp only [hsize, Option.map_some]
  refine ⟨_, hunlink, ⟨hnew, ?_, ?_⟩, ?_, hlive⟩
  · intro r' hr'
    cases hr.symm.trans hr'
    constructor
    · rw [Live, ← isSome_childOf, childOf_setParent, childOf_setChild hplive]
      by_cases hpr : r = p
      · rw [hpr, Function.update_self]
        rfl
      · rw [Function.update_of_ne hpr, isSome_childOf]
        exact hrlive
    · rw [hparent, Function.update_of_ne hne]
      exact hrtop
  · change t.node_count - _ = (({x | ∃ r ∈ t.root, Below (parentOf (setParent
      (setChild t.mem p (cs.erase a)) a none)) r x}.ncard : ℕ) : ℤ)
    have hcard := card_detach hlinks.acyclic hra hne (hlinks.finite_below hrlive)
    have hcount := ht.count_eq_of_root hr
    rw [hr, attached_some, hparent]
    omega
  · rw [forest, NForest.hang, hparent, nameOf_setParent, nameOf_setChild]
    rfl

theorem forest_without (t : NTree) {l : List ℕ} (hl : ∀ x, x ∈ l ↔ Below (parentOf t.mem) a x) :
    nameOf (without t.mem l) = (t.forest.remove a).name ∧
      parentOf (without t.mem l) = (t.forest.remove a).parent := by
  refine ⟨funext fun x ↦ ?_, funext fun x ↦ ?_⟩
  · rw [nameOf_without, NForest.remove]
    by_cases hx : x ∈ l
    · rw [if_pos hx]
      exact (if_pos ((hl x).mp hx)).symm
    · rw [if_neg hx]
      exact (if_neg fun h ↦ hx ((hl x).mpr h)).symm
  · rw [parentOf_without, NForest.remove]
    by_cases hx : x ∈ l
    · rw [if_pos hx]
      exact (if_pos ((hl x).mp hx)).symm
    · rw [if_neg hx]
      exact (if_neg fun h ↦ hx ((hl x).mpr h)).symm

theorem free (ht : t.WellFormed) (ha : t.Live a) (htop : parentOf t.mem a = none)
    (hroot : t.root ≠ some a) :
    ∃ mem, free_rec t.fresh a t.mem = some mem ∧ WellFormed { t with mem := mem } ∧
      forest { t with mem := mem } = t.forest.remove a := by
  obtain ⟨l, hfree, hl⟩ := ht.links.free_rec ha
  obtain ⟨hname, hparent⟩ := forest_without t hl
  refine ⟨without t.mem l, hfree, ⟨ht.links.cut htop hl, ?_, ?_⟩, ?_⟩
  · intro r hr
    obtain ⟨hrlive, hrtop⟩ := ht.root_top r hr
    have hrl : r ∉ l := by
      rw [hl]
      intro h
      rw [← h.eq_of_top hrtop] at hroot
      exact hroot hr
    constructor
    · change (without t.mem l r).isSome
      rw [without, if_neg hrl]
      exact hrlive
    · change parentOf (without t.mem l) r = none
      rw [parentOf_without, if_neg hrl]
      exact hrtop
  · change t.node_count =
      (({x | ∃ r ∈ t.root, Below (parentOf (without t.mem l)) r x}.ncard : ℕ) : ℤ)
    cases hr : t.root with
    | none =>
      have hcount : t.node_count = {x | ∃ r ∈ t.root, Below (parentOf t.mem) r x}.ncard :=
        ht.count_eq
      rw [hr, ncard_attached_none] at hcount
      rw [ncard_attached_none, hcount]
    | some r =>
      obtain ⟨-, hrtop⟩ := ht.root_top r hr
      have hnot : ¬Below (parentOf t.mem) a r := by
        intro h
        rw [← h.eq_of_top hrtop] at hroot
        exact hroot hr
      have hsame : {x | Below (parentOf (without t.mem l)) r x} =
          {x | Below (parentOf t.mem) r x} := by
        ext x
        apply below_cut (c := a) _ _ hnot htop
        · intro y hy
          rw [parentOf_without, if_pos ((hl y).mpr hy)]
        · intro y hy
          rw [parentOf_without, if_neg fun h ↦ hy ((hl y).mp h)]
      rw [attached_some, hsame, ht.count_eq_of_root hr]
  · change NForest.mk (nameOf (without t.mem l)) (parentOf (without t.mem l)) t.root =
      t.forest.remove a
    have hkeep : (t.forest.remove a).root = t.root := if_neg hroot
    rw [hname, hparent, ← hkeep]

theorem free_root (ht : t.WellFormed) {r : ℕ} (hr : t.root = some r) :
    ∃ l, free_rec t.fresh r t.mem = some (without t.mem l) ∧
      (∀ x, x ∈ l ↔ Below (parentOf t.mem) r x) ∧
      WellFormed { t with mem := without t.mem l, root := none, node_count := 0 } ∧
      forest { t with mem := without t.mem l, root := none, node_count := 0 } =
        t.forest.remove r := by
  obtain ⟨hlive, htop⟩ := ht.root_top r hr
  obtain ⟨l, hfree, hl⟩ := ht.links.free_rec hlive
  obtain ⟨hname, hparent⟩ := forest_without t hl
  refine ⟨l, hfree, hl, ⟨ht.links.cut htop hl, ?_, ?_⟩, ?_⟩
  · intro r hr
    cases hr
  · change (0 : ℤ) = (({x | ∃ r ∈ (none : Option ℕ),
      Below (parentOf (without t.mem l)) r x}.ncard : ℕ) : ℤ)
    rw [ncard_attached_none]
    rfl
  · change NForest.mk (nameOf (without t.mem l)) (parentOf (without t.mem l)) none =
      t.forest.remove r
    have hgone : (t.forest.remove r).root = none := if_pos hr
    rw [hname, hparent, ← hgone]

theorem clear (ht : t.WellFormed) :
    ∃ t', t.clear = some t' ∧ t'.WellFormed ∧ t'.forest = t.forest.clear ∧ t'.root = none ∧
      ∀ a, t.Live a → parentOf t.mem a = none → t.root ≠ some a →
        t'.Live a ∧ parentOf t'.mem a = none := by
  rw [NTree.clear]
  cases hr : t.root with
  | none =>
    refine ⟨t, rfl, ht, ?_, hr, fun a ha hp _ ↦ ⟨ha, hp⟩⟩
    simp [forest, NForest.clear, hr]
  | some r =>
    obtain ⟨l, hfree, hl, hwf, hforest⟩ := ht.free_root hr
    refine ⟨_, by simp only [hfree, Option.map_some], hwf, ?_, rfl, ?_⟩
    · rw [hforest, NForest.clear]
      change _ = t.root.elim t.forest t.forest.remove
      rw [hr]
      rfl
    · intro a ha hp hne
      have hal : a ∉ l := by
        rw [hl]
        intro h
        rw [h.eq_of_top hp] at hne
        exact hne rfl
      constructor
      · change (without t.mem l a).isSome
        rw [without, if_neg hal]
        exact ha
      · change parentOf (without t.mem l) a = none
        rw [parentOf_without, if_neg hal]
        exact hp

theorem set_root (ht : t.WellFormed) {root : Option ℕ}
    (hroot : ∀ r ∈ root, (t.Live r ∧ parentOf t.mem r = none) ∧ t.root ≠ some r) :
    ∃ t', t.set_root root = some t' ∧ t'.WellFormed ∧
      t'.forest = { t.forest.clear with root := root } := by
  obtain ⟨t₁, hclear, ht₁, hforest, hnone, hkeep⟩ := ht.clear
  cases root with
  | none =>
    refine ⟨{ t₁ with root := none, node_count := 0 }, ?_, ⟨ht₁.links, ?_, ?_⟩, ?_⟩
    · simp only [NTree.set_root, hclear, Option.bind_eq_bind, Option.bind_some]
      rfl
    · intro r hr
      cases hr
    · change (0 : ℤ) = (({x | ∃ r ∈ (none : Option ℕ), Below (parentOf t₁.mem) r x}.ncard : ℕ) : ℤ)
      rw [ncard_attached_none]
      rfl
    · rw [← hforest]
      rfl
  | some r =>
    obtain ⟨⟨hlive, htop⟩, hne⟩ := hroot r rfl
    obtain ⟨hlive, htop⟩ := hkeep r hlive htop hne
    obtain ⟨n, hn⟩ := Option.isSome_iff_exists.mp hlive
    -- the parent of the new root is set to what it is
    have hsame : setParent t₁.mem r none = t₁.mem := by
      funext x
      by_cases hx : x = r
      · subst hx
        rw [setParent, Function.update_self, hn, Option.map_some]
        rw [parentOf, hn, Option.bind_some] at htop
        rw [← htop]
      · rw [setParent, Function.update_of_ne hx]
    have hsize := ht₁.links.size hlive
    refine ⟨{ t₁ with root := some r
                      node_count := {x | Below (parentOf t₁.mem) r x}.ncard }, ?_,
      ⟨ht₁.links, ?_, ?_⟩, ?_⟩
    · simp only [NTree.set_root, hclear, Option.bind_eq_bind, Option.bind_some, hn, hsame, hsize]
      rfl
    · intro r' hr'
      cases hr'
      exact ⟨hlive, htop⟩
    · change _ = (({x | ∃ r' ∈ some r, Below (parentOf t₁.mem) r' x}.ncard : ℕ) : ℤ)
      rw [attached_some]
    · rw [← hforest]
      rfl

theorem node_new (ht : t.WellFormed) (name : Option Text) :
    (t.node_new name).1.WellFormed ∧ (t.node_new name).1.forest =
      ⟨Function.update t.forest.name t.fresh (some name), t.forest.parent, t.forest.root⟩ := by
  have hnone : t.mem t.fresh = none := ht.links.fresh t.fresh le_rfl
  obtain ⟨hname, hparent, -⟩ := fields_new hnone name
  refine ⟨⟨ht.links.new name, ?_, ?_⟩, ?_⟩
  · intro r hr
    obtain ⟨hlive, htop⟩ := ht.root_top r hr
    have hne : r ≠ t.fresh := by
      rintro rfl
      rw [Live, hnone] at hlive
      cases hlive
    constructor
    · change (Function.update t.mem t.fresh (some ⟨name, [], none⟩) r).isSome
      rw [Function.update_of_ne hne]
      exact hlive
    · exact (congrFun hparent r).trans htop
  · have hcount := ht.count_eq
    change t.node_count = (({x | ∃ r ∈ t.root, Below (parentOf (Function.update t.mem t.fresh
      (some ⟨name, [], none⟩))) r x}.ncard : ℕ) : ℤ)
    rw [hparent]
    exact hcount
  · change NForest.mk _ _ t.root = _
    exact congrArg₂ (fun a b ↦ NForest.mk a b t.root) hname hparent

theorem named_child (ht : t.WellFormed) {cs : List ℕ} (hcs : childOf t.mem p = some cs) :
    ∀ d ∈ cs, ∃ x, nameOf t.mem d = some (some x) :=
  fun d hd ↦ ht.links.named d p ((ht.links.child_iff p cs hcs d).mp hd)

theorem node_insert (ht : t.WellFormed) {parent child : Option ℕ}
    (hreg : Regular t (.node_insert parent child)) :
    ∃ t' r, t.node_insert parent child = some (t', r) ∧
      named.ok t.forest (.node_insert parent child) (.ret r) ∧ t'.WellFormed ∧
      t'.forest = named.next t.forest (.node_insert parent child) (.ret r) := by
  cases parent with
  | none => exact ⟨t, -1, rfl, .inr ⟨id, rfl⟩, ht, by cases child <;> rfl⟩
  | some p =>
    cases child with
    | none => exact ⟨t, -1, rfl, .inr ⟨id, rfl⟩, ht, rfl⟩
    | some c =>
      obtain ⟨⟨hp, hc⟩, hreg⟩ := hreg
      obtain ⟨n, hn⟩ := Option.isSome_iff_exists.mp hc
      obtain ⟨d, hd⟩ := Option.isSome_iff_exists.mp hp
      have hparent : parentOf t.mem c = n.parent := by rw [parentOf, hn, Option.bind_some]
      have hname : nameOf t.mem c = some n.name := by rw [nameOf, hn, Option.map_some]
      have hchild : childOf t.mem p = some d.child := by rw [childOf, hd, Option.map_some]
      rw [hparent, hname] at hreg
      by_cases hang : n.parent.isSome ∨ t.root = some c
      · refine ⟨t, -1, ?_, .inr ⟨?_, rfl⟩, ht, rfl⟩
        · simp only [NTree.node_insert, hn, Option.bind_eq_bind, Option.bind_some, if_pos hang]
          rfl
        · rintro ⟨⟨hfloat, hnot⟩, -⟩
          have hfloat : n.parent = none := hparent.symm.trans hfloat
          rcases hang with h | h
          · rw [hfloat] at h
            cases h
          · exact hnot h
      · have hfloat : n.parent = none := by
          by_contra h
          exact hang (.inl (Option.isSome_iff_ne_none.mpr h))
        have hnot : t.root ≠ some c := fun h ↦ hang (.inr h)
        obtain ⟨hnamed, hplace⟩ : some n.name ≠ some none ∧
            ((∃ d ∈ (childOf t.mem p).getD [], nameOf t.mem d = some n.name) ∨
              t.InTree p) := by
          rcases hreg with (h | h) | h
          · exact absurd hfloat h
          · exact absurd h hnot
          · exact h
        cases hnm : n.name with
        | none => exact absurd (congrArg some hnm) hnamed
        | some name =>
          rw [hnm] at hname
          have hpos := insertPosFrom_spec name (ht.links.ascending p _ hchild)
            (ht.named_child hchild) 0
          rcases hpos with ⟨⟨x, hx, hxname⟩, hfound⟩ | ⟨hnone, xs, ys, hsplit, hpos, hxs, hys⟩
          · refine ⟨t, -1, ?_, .inr ⟨?_, rfl⟩, ht, rfl⟩
            · simp only [NTree.node_insert, hn, hd, Option.bind_eq_bind, Option.bind_some,
                if_neg hang, hnm, insert_pos, hfound]
              rfl
            · rintro ⟨-, hnew⟩
              exact hnew x ((ht.links.child_iff p _ hchild x).mp hx) (hxname.trans hname.symm)
          · have hin : t.InTree p := by
              rcases hplace with ⟨x, hx, hxname⟩ | h
              · rw [hchild, Option.getD_some] at hx
                rw [hnm] at hxname
                exact absurd hxname (hnone x hx)
              · exact h
            rw [hsplit] at hchild
            obtain ⟨t', hlink, ht', hforest⟩ := ht.link hin hc (hparent.trans hfloat) hnot
              hname hchild hxs hys
            refine ⟨t', 0, ?_, .inl ⟨⟨⟨hparent.trans hfloat, hnot⟩, ?_⟩, rfl⟩, ht', hforest⟩
            · rw [Nat.zero_add] at hpos
              simp only [NTree.node_insert, hn, hd, Option.bind_eq_bind, Option.bind_some,
                if_neg hang, hnm, insert_pos, hpos]
              rw [hsplit, hlink, Option.map_some]
            · intro x hx heq
              have hmem := (ht.links.child_iff p _ hchild x).mpr hx
              rw [← hsplit] at hmem
              exact hnone x hmem (heq.trans hname)

theorem node_detach (ht : t.WellFormed) (hlive : t.Live a)
    (ha : parentOf t.mem a = none ∨ t.InTree a) :
    ∃ t' r, t.node_detach (some a) = some (t', r) ∧
      r = (if (parentOf t.mem a).isSome then 0 else -1) ∧ t'.WellFormed ∧
      t'.forest = t.forest.hang a none ∧ t'.Live a := by
  obtain ⟨n, hn⟩ := Option.isSome_iff_exists.mp hlive
  have hparent : parentOf t.mem a = n.parent := by rw [parentOf, hn, Option.bind_some]
  cases hp : n.parent with
  | none =>
    have htop : parentOf t.mem a = none := hparent.trans hp
    refine ⟨t, -1, ?_, by rw [htop]; rfl, ht, ?_, hlive⟩
    · simp only [NTree.node_detach, hn, Option.bind_eq_bind, Option.bind_some, hp]
      rfl
    · have hsame : Function.update (parentOf t.mem) a none = parentOf t.mem := by
        rw [← htop, Function.update_eq_self]
      change t.forest = NForest.mk _ (Function.update (parentOf t.mem) a none) _
      rw [hsame]
      rfl
  | some p =>
    have hlink : parentOf t.mem a = some p := hparent.trans hp
    have hin : t.InTree a := by
      rcases ha with h | h
      · rw [hlink] at h
        cases h
      · exact h
    obtain ⟨cs, hcs⟩ := Option.isSome_iff_exists.mp (ht.links.parent_live a p hlink)
    obtain ⟨d, hd, rfl⟩ := Option.map_eq_some_iff.mp hcs
    obtain ⟨t', hunlink, ht', hforest, hlive'⟩ := ht.unlink hin hlink hcs
    refine ⟨t', 0, ?_, by rw [hlink]; rfl, ht', hforest, hlive'⟩
    have hmem := (ht.links.child_iff p _ hcs a).mpr hlink
    simp only [NTree.node_detach, hn, Option.bind_eq_bind, Option.bind_some, hp, hd, if_pos hmem,
      hunlink, Option.map_some]

theorem node_free (ht : t.WellFormed) (hlive : t.Live a)
    (ha : parentOf t.mem a = none ∨ t.InTree a) :
    ∃ t', t.node_free (some a) = some (t', 0) ∧ t'.WellFormed ∧
      t'.forest = (t.forest.hang a none).remove a := by
  obtain ⟨n, hn⟩ := Option.isSome_iff_exists.mp hlive
  have hparent : parentOf t.mem a = n.parent := by rw [parentOf, hn, Option.bind_some]
  cases hp : n.parent with
  | none =>
    have htop : parentOf t.mem a = none := hparent.trans hp
    have hsame : t.forest.hang a none = t.forest := by
      change NForest.mk _ (Function.update (parentOf t.mem) a none) _ = _
      rw [← htop, Function.update_eq_self]
      rfl
    rw [hsame]
    by_cases hroot : t.root = some a
    · obtain ⟨l, hfree, -, hwf, hforest⟩ := ht.free_root hroot
      refine ⟨_, ?_, hwf, hforest⟩
      simp only [NTree.node_free, hn, Option.bind_eq_bind, Option.bind_some, hp, hfree,
        if_pos hroot]
      rfl
    · obtain ⟨mem, hfree, hwf, hforest⟩ := ht.free hlive htop hroot
      refine ⟨_, ?_, hwf, hforest⟩
      simp only [NTree.node_free, hn, Option.bind_eq_bind, Option.bind_some, hp, hfree,
        if_neg hroot]
      rfl
  | some p =>
    obtain ⟨t₁, r, hdetach, -, ht₁, hforest₁, hlive₁⟩ := ht.node_detach hlive ha
    have htop₁ : parentOf t₁.mem a = none := by
      have h : parentOf t₁.mem a = Function.update (parentOf t.mem) a none a :=
        congrArg (fun f ↦ f.parent a) hforest₁
      rw [h, Function.update_self]
    have hroot₁ : t₁.root ≠ some a := by
      have h : t₁.root = t.root := congrArg NForest.root hforest₁
      rw [h]
      intro hroot
      rw [hparent.symm.trans (ht.root_top a hroot).2] at hp
      cases hp
    obtain ⟨mem, hfree, hwf, hforest⟩ := ht₁.free hlive₁ htop₁ hroot₁
    refine ⟨{ t₁ with mem := mem }, ?_, hwf, by rw [hforest, hforest₁]⟩
    simp only [NTree.node_free, hn, Option.bind_eq_bind, Option.bind_some, hp, hdetach, hfree]
    rfl

theorem node_find (ht : t.WellFormed) (hlive : t.Live p) (name : Text) :
    ∃ r, t.node_find (some p) (some name) = some r ∧
      ∀ x, r = some x ↔ parentOf t.mem x = some p ∧ nameOf t.mem x = some (some name) := by
  obtain ⟨d, hd⟩ := Option.isSome_iff_exists.mp hlive
  have hchild : childOf t.mem p = some d.child := by rw [childOf, hd, Option.map_some]
  obtain ⟨r, hfind, hcases⟩ := findName_spec name (ht.named_child hchild)
  refine ⟨r, by rw [NTree.node_find, hd, Option.bind_some, hfind], ?_⟩
  intro x
  rw [← ht.links.child_iff p _ hchild x]
  rcases hcases with ⟨c, hc, rfl, hname⟩ | ⟨rfl, hnone⟩
  · constructor
    · intro h
      cases h
      exact ⟨hc, hname⟩
    · rintro ⟨hx, hxname⟩
      by_contra hne
      exact ht.links.names_ne hchild hc hx (fun h ↦ hne (congrArg some h)) (hname.trans hxname.symm)
  · constructor
    · intro h
      cases h
    · rintro ⟨hx, hxname⟩
      exact absurd hxname (hnone x hx)

theorem preorder (ht : t.WellFormed) {node : Option ℕ} (hlive : ∀ a ∈ node, t.Live a)
    (visit : ℕ → ℤ) :
    ∃ order : List ℕ, t.preorder node visit = some (cutAt visit order) ∧ order.Nodup ∧
      ∀ x, x ∈ order ↔ ∃ top ∈ node.or t.root, Below (parentOf t.mem) top x := by
  rw [NTree.preorder]
  cases htop : node.or t.root with
  | none => exact ⟨[], rfl, List.nodup_nil, by simp⟩
  | some a =>
    have hlive' : t.Live a := by
      rw [Option.or_eq_some_iff] at htop
      rcases htop with h | ⟨-, h⟩
      · exact hlive a h
      · exact (ht.root_top a h).1
    obtain ⟨l, hl, hnodup, hmem⟩ := ht.links.order_fresh hlive'
    refine ⟨l, preorder_order visit hl, hnodup, ?_⟩
    intro x
    rw [hmem]
    simp

end WellFormed

theorem holds_construct : Holds construct construct.forest := by
  refine ⟨rfl, ⟨⟨fun _ _ ↦ rfl, ?_, ?_, ?_, ?_, ?_⟩, ?_, ?_⟩⟩
  · intro a b h
    cases h
  · intro a cs h
    cases h
  · intro c p h
    cases h
  · intro a cs h
    cases h
  · intro c p h
    cases h
  · intro r hr
    cases hr
  · change (0 : ℤ) =
      (({x | ∃ r ∈ (none : Option ℕ), Below (parentOf fun _ ↦ none) r x}.ncard : ℕ) : ℤ)
    rw [ncard_attached_none]
    rfl

theorem Holds.call {f : NForest} (ht : Holds t f) (e : Call) (hreg : Regular t e) :
    ∃ t' o, t.call e = some (t', o) ∧ named.ok f e o ∧ Holds t' (named.next f e o) := by
  obtain ⟨rfl, ht⟩ := ht
  cases e with
  | node_new name =>
    obtain ⟨ht', hforest⟩ := ht.node_new name
    refine ⟨_, _, rfl, ⟨t.fresh, rfl, ?_⟩, hforest, ht'⟩
    change (t.mem t.fresh).map _ = none
    rw [ht.links.fresh t.fresh le_rfl, Option.map_none]
  | set_root root =>
    obtain ⟨t', hset, ht', hforest⟩ := ht.set_root hreg
    exact ⟨t', .ret 0, by rw [NTree.call, hset, Option.map_some], rfl, hforest, ht'⟩
  | node_insert parent child =>
    obtain ⟨t', r, hinsert, hok, ht', hforest⟩ := ht.node_insert hreg
    exact ⟨t', .ret r, by rw [NTree.call, hinsert, Option.map_some], hok, hforest, ht'⟩
  | node_find parent name =>
    cases parent with
    | none => exact ⟨t, .node none, rfl, by simp [named], rfl, ht⟩
    | some p =>
      cases name with
      | none => exact ⟨t, .node none, rfl, by simp [named], rfl, ht⟩
      | some name =>
        obtain ⟨r, hfind, hr⟩ := ht.node_find hreg name
        refine ⟨t, .node r, by rw [NTree.call, hfind, Option.map_some], ?_, rfl, ht⟩
        intro x
        rw [hr x]
        constructor
        · exact fun h ↦ ⟨p, rfl, name, rfl, h⟩
        · rintro ⟨p', hp', name', hname', h⟩
          cases hp'
          cases hname'
          exact h
  | node_detach node =>
    cases node with
    | none => exact ⟨t, .ret (-1), rfl, rfl, rfl, ht⟩
    | some a =>
      obtain ⟨t', r, hdetach, hr, ht', hforest, -⟩ := ht.node_detach hreg.1 hreg.2
      exact ⟨t', .ret r, by rw [NTree.call, hdetach, Option.map_some], hr, hforest, ht'⟩
  | node_free node =>
    cases node with
    | none => exact ⟨t, .ret (-1), rfl, rfl, rfl, ht⟩
    | some a =>
      obtain ⟨t', hfree, ht', hforest⟩ := ht.node_free hreg.1 hreg.2
      exact ⟨t', .ret 0, by rw [NTree.call, hfree, Option.map_some], rfl, hforest, ht'⟩
  | clear =>
    obtain ⟨t', hclear, ht', hforest, -⟩ := ht.clear
    exact ⟨t', .ret 0, by rw [NTree.call, hclear, Option.map_some], rfl, hforest, ht'⟩
  | count => exact ⟨t, .ret t.node_count, rfl, ht.count_eq, rfl, ht⟩
  | preorder node visit =>
    have hlive : ∀ a ∈ node, t.Live a := by
      intro a ha
      cases node with
      | none => cases ha
      | some b =>
        cases ha
        exact hreg
    obtain ⟨l, hvisit, hnodup, hmem⟩ := ht.preorder hlive visit
    refine ⟨t, .visited (cutAt visit l).1 (cutAt visit l).2, ?_, ⟨l, hnodup, hmem, rfl⟩, rfl, ht⟩
    rw [NTree.call, hvisit, Option.map_some]

/-- The nodes stay a forest with the children in the order of their names, the count is that of
the root's tree, and what is found, visited and refused is what the forest says. -/
theorem refines_named {es : List Call}
    (hrun : Refine.Within NTree.call named Regular construct construct.forest es) :
    (∃ t f, Run.final (Refine.step NTree.call named) (some construct, construct.forest) es =
        (some t, f) ∧ Holds t f) ∧
      Refine.Refines NTree.call named construct construct.forest es :=
  Refine.refines_of_simulation (I := Holds) (fun _ _ e ht hreg ↦ ht.call e hreg) holds_construct
    hrun

end Operations

instance decidableInTree (t : NTree) (a : ℕ) : Decidable (t.InTree a) :=
  inferInstanceAs (Decidable (_ = _))

instance decidableLive (t : NTree) (a : ℕ) : Decidable (t.Live a) :=
  inferInstanceAs (Decidable (_ = true))

instance decidableRegular (t : NTree) (e : Call) : Decidable (Regular t e) := by
  unfold Regular
  split <;> infer_instance

/-- Two directories under a root, and one more that is detached and hung in elsewhere. -/
theorem refines_named_move :
    (∃ t f, Run.final (Refine.step NTree.call named) (some construct, construct.forest)
        [.node_new none, .node_new (some (Scan.ascii "usr")), .node_new (some (Scan.ascii "bin")),
          .node_new (some (Scan.ascii "lib")), .set_root (some 0), .node_insert (some 0) (some 1),
          .node_insert (some 0) (some 2), .node_insert (some 0) (some 3), .node_detach (some 3),
          .node_insert (some 1) (some 3), .node_find (some 1) (some (Scan.ascii "lib")),
          .node_free (some 2), .count, .preorder none (fun _ ↦ 0)] = (some t, f) ∧ Holds t f) ∧
      Refine.Refines NTree.call named construct construct.forest
        [.node_new none, .node_new (some (Scan.ascii "usr")), .node_new (some (Scan.ascii "bin")),
          .node_new (some (Scan.ascii "lib")), .set_root (some 0), .node_insert (some 0) (some 1),
          .node_insert (some 0) (some 2), .node_insert (some 0) (some 3), .node_detach (some 3),
          .node_insert (some 1) (some 3), .node_find (some 1) (some (Scan.ascii "lib")),
          .node_free (some 2), .count, .preorder none (fun _ ↦ 0)] :=
  refines_named (by decide)

/-- A node that hangs under a floating node is counted, though there is no root. -/
theorem not_refines_named_floating :
    ¬ ∀ es : List Call, Refine.Refines NTree.call named construct construct.forest es := by
  intro h
  have hrun := h [.node_new (some (Scan.ascii "a")), .node_new (some (Scan.ascii "b")),
    .node_insert (some 0) (some 1), .count]
  obtain ⟨c, hc, r, hr, hok⟩ := hrun.2.2.2.1
  cases hc
  cases hr
  change (1 : ℤ) = (({x | ∃ r ∈ (none : Option ℕ), Below _ r x}.ncard : ℕ) : ℤ) at hok
  rw [ncard_attached_none] at hok
  cases hok

end NTree

end Libobject
