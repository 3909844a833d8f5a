import Libobject.Core.ListHead
import Libobject.Lib.Refine
import Mathlib.Data.Int.Notation
import Mathlib.Data.List.InsertIdx

/-!
# The linked list

A ring of cells with a head that holds no data, the position of the first cell kept beside it, and a
count. A position is either a copy that was taken at the beginning and moved on, or the list's own
`begin`, which changes under the hands of the function it is given to. The count does not overflow.
-/

namespace Libobject

/-- The address of the list head. -/
def head : ℕ := 0

structure LList (D : Type) where
  cells : Cells D
  begin : ℕ
  list_count : ℕ
  fresh : ℕ

namespace LList

variable {D : Type}

/-- The poison values are not addresses that the allocator hands out. -/
def init : LList D where
  cells := ⟨fun p ↦ p = head, fun _ ↦ head, fun _ ↦ head, fun _ ↦ none⟩
  begin := head
  list_count := 0
  fresh := 3

inductive Pos
  | copy (i : ℕ)
  | begin
  deriving DecidableEq

/-- `llist_begin`, and `llist_pos_next` as often as it says. -/
def walk (l : LList D) : ℕ → Option ℕ
  | 0 => some l.begin
  | i + 1 => (walk l i).bind l.cells.getNext

def resolve (l : LList D) : Pos → Option ℕ
  | .copy i => l.walk i
  | .begin => some l.begin

def add (l : LList D) (pos : ℕ) (d : D) : Option (LList D) := do
  let p := l.fresh
  let h ← (l.cells.alloc p d).list_add_after p pos
  some ⟨h, if pos = head then p else l.begin, l.list_count + 1, p + 1⟩

def add_front (l : LList D) (d : D) : Option (LList D) := l.add head d

def add_back (l : LList D) (d : D) : Option (LList D) := do
  let p := l.fresh
  let h ← (l.cells.alloc p d).list_add_before p head
  let begin ← if head = l.begin then h.getNext head else some l.begin
  some ⟨h, begin, l.list_count + 1, p + 1⟩

/-- The middle of `__llist_delete` and of `llist_remove`. When the position is the list's own
`begin`, moving `begin` on moves the position too. -/
def unlink (l : LList D) (own : Bool) (pos : ℕ) : Option (LList D) := do
  let begin ← if pos = l.begin then l.cells.getNext pos else some l.begin
  let h ← l.cells.list_del (if own then begin else pos)
  some { l with cells := h, begin := begin, list_count := l.list_count - 1 }

def freeNode (l : LList D) (p : ℕ) : Option (LList D) :=
  (l.cells.free p).map fun h ↦ { l with cells := h }

/-- The node is read and freed. -/
def takeNode (l : LList D) (p : ℕ) : Option (LList D × Option D) := do
  let d ← l.cells.getData p
  let l ← l.freeNode p
  some (l, some d)

def delete (l : LList D) (own : Bool) (pos : ℕ) : Option (LList D × ℤ) :=
  if l.begin = head then some (l, -1)
  else do
    let l ← l.unlink own pos
    let l ← l.freeNode pos
    some (l, 1)

def remove (l : LList D) (own : Bool) (pos : ℕ) : Option (LList D × Option D) :=
  if l.begin = head then some (l, none)
  else do
    let l ← l.unlink own pos
    l.takeNode pos

def detach (l : LList D) (pos : ℕ) : Option (LList D × Option D) :=
  if l.begin = head then some (l, none)
  else do
    let h ← l.cells.list_del pos
    let begin ← if pos = l.begin then h.getNext head else some l.begin
    let d ← h.getData pos
    some ({ l with cells := h, begin := begin, list_count := l.list_count - 1 }, some d)

/-- The middle of the functions that take the last node off; `emptied` is what each of them makes
of `begin` when no node is left. -/
def unlinkBack (emptied : Cells D → Option ℕ) (l : LList D) : Option (ℕ × LList D) := do
  let p ← l.cells.getPrev head
  let h ← l.cells.list_del p
  let begin ← if l.list_count - 1 = 0 then emptied h else some l.begin
  some (p, { l with cells := h, begin := begin, list_count := l.list_count - 1 })

def delete_back (l : LList D) : Option (LList D × ℤ) :=
  if l.begin = head then some (l, -1)
  else do
    let (p, l) ← l.unlinkBack fun _ ↦ some head
    let l ← l.freeNode p
    some (l, 1)

def remove_back (l : LList D) : Option (LList D × Option D) :=
  if l.begin = head then some (l, none)
  else do
    let (p, l) ← l.unlinkBack fun h ↦ h.getNext head
    l.takeNode p

def detach_back (l : LList D) : Option (LList D × Option D) :=
  if l.begin = head then some (l, none)
  else do
    let (p, l) ← l.unlinkBack fun _ ↦ some head
    let d ← l.cells.getData p
    some (l, some d)

def remove_front (l : LList D) : Option (LList D × Option D) :=
  if l.begin = head then some (l, none)
  else do
    let p ← l.cells.getNext head
    let h ← l.cells.list_del p
    let begin ← h.getNext head
    { l with cells := h, begin := begin, list_count := l.list_count - 1 }.takeNode p

/-- The loop of `llist_remove_element`, which reads ahead before it looks at the position. -/
def find [DecidableEq D] (h : Cells D) (data : D) : ℕ → ℕ → Option (Option ℕ)
  | 0, _ => none
  | n + 1, pos => do
    let next ← h.getNext pos
    if pos = head then some none
    else do
      let element ← h.getData pos
      if element = data then some (some pos) else find h data n next

def remove_element [DecidableEq D] (l : LList D) (data : D) : Option (LList D × ℤ) := do
  match ← find l.cells data (l.list_count + 1) l.begin with
  | none => some (l, 0)
  | some pos => l.delete false pos

def for_each (h : Cells D) : ℕ → ℕ → Option (List D)
  | 0, _ => none
  | n + 1, pos => do
    let next ← h.getNext pos
    if pos = head then some []
    else do
      let element ← h.getData pos
      let rest ← for_each h n next
      some (element :: rest)

inductive Call (D : Type)
  | add_front (d : D)
  | add_back (d : D)
  | add (pos : Pos) (d : D)
  | delete (pos : Pos)
  | delete_back
  | remove (pos : Pos)
  | remove_front
  | remove_back
  | remove_element (d : D)
  | detach (pos : Pos)
  | detach_back
  | for_each
  | get_count
  deriving DecidableEq

inductive Answer (D : Type)
  | ret (r : ℤ)
  | data (d : Option D)
  | list (ds : List D)
  deriving DecidableEq

/-- `llist_delete_front` and `Linked_List.delete` are `delete .begin`, `llist_detach_front` is
`detach .begin`. A loop is given one turn more than there are nodes. -/
def call [DecidableEq D] (l : LList D) : Call D → Option (LList D × Answer D)
  | .add_front d => (l.add_front d).map fun l ↦ (l, .ret 1)
  | .add_back d => (l.add_back d).map fun l ↦ (l, .ret 1)
  | .add pos d => ((l.resolve pos).bind (l.add · d)).map fun l ↦ (l, .ret 1)
  | .delete pos => ((l.resolve pos).bind (l.delete (pos = .begin))).map fun r ↦ (r.1, .ret r.2)
  | .delete_back => l.delete_back.map fun r ↦ (r.1, .ret r.2)
  | .remove pos => ((l.resolve pos).bind (l.remove (pos = .begin))).map fun r ↦ (r.1, .data r.2)
  | .remove_front => l.remove_front.map fun r ↦ (r.1, .data r.2)
  | .remove_back => l.remove_back.map fun r ↦ (r.1, .data r.2)
  | .remove_element d => (l.remove_element d).map fun r ↦ (r.1, .ret r.2)
  | .detach pos => ((l.resolve pos).bind l.detach).map fun r ↦ (r.1, .data r.2)
  | .detach_back => l.detach_back.map fun r ↦ (r.1, .data r.2)
  | .for_each => (for_each l.cells (l.list_count + 1) l.begin).map fun ds ↦ (l, .list ds)
  | .get_count => some (l, .ret l.list_count)

/-- Where a position stands in a sequence of `n`; the end is at `n`, and behind it the first. -/
def Pos.index (n : ℕ) : Pos → ℕ
  | .copy i => i % (n + 1)
  | .begin => 0

/-- Whether there was an element to take. -/
def report (e : Option D) : ℤ := if e.isSome then 1 else -1

def sequence [DecidableEq D] : Spec (List D) (Call D) (Answer D) where
  ok ds
    | .add_front _, .ret r | .add_back _, .ret r | .add _ _, .ret r => r = 1
    | .delete pos, .ret r => r = report ds[pos.index ds.length]?
    | .delete_back, .ret r => r = report ds.getLast?
    | .remove pos, .data d | .detach pos, .data d => d = ds[pos.index ds.length]?
    | .remove_front, .data d => d = ds.head?
    | .remove_back, .data d | .detach_back, .data d => d = ds.getLast?
    | .remove_element d, .ret r => r = if d ∈ ds then 1 else 0
    | .for_each, .list es => es = ds
    | .get_count, .ret r => r = ds.length
    | _, _ => False
  next ds
    | .add_front d, _ => d :: ds
    | .add_back d, _ => ds ++ [d]
    | .add pos d, _ => ds.insertIdx ((pos.index ds.length + 1) % (ds.length + 1)) d
    | .delete pos, _ | .remove pos, _ | .detach pos, _ => ds.eraseIdx (pos.index ds.length)
    | .remove_front, _ => ds.tail
    | .delete_back, _ | .remove_back, _ | .detach_back, _ => ds.dropLast
    | .remove_element d, _ => ds.erase d
    | .for_each, _ | .get_count, _ => ds

/-- Nothing is deleted or removed at the list's own `begin`, and no node is taken at the end
position, unless the list is empty. -/
def Regular (l : LList D) : Call D → Prop
  | .delete .begin | .remove .begin => l.begin = head
  | .delete (.copy i) | .remove (.copy i) | .detach (.copy i) =>
    l.begin = head ∨ l.walk i ≠ some head
  | _ => True

/-- The cells `xs` hold the sequence `ds`, and all that the list keeps beside them fits. -/
structure Holds (l : LList D) (xs : List ℕ) (ds : List D) : Prop where
  ring : l.cells.Ring (head :: (xs ++ [head]))
  data : xs.map l.cells.data = ds.map some
  begin_eq : l.begin = xs.headD head
  count_eq : l.list_count = xs.length
  lt_fresh : ∀ p ∈ head :: xs, p < l.fresh

theorem holds_init : Holds (init : LList D) [] [] where
  ring := by
    refine ⟨?_, ?_, ?_, ?_⟩ <;> simp [init, Cells.Linked]
  data := rfl
  begin_eq := rfl
  count_eq := rfl
  lt_fresh := by simp [init, head]

namespace Holds

variable {l : LList D} {xs : List ℕ} {ds : List D}

theorem length_eq (hl : Holds l xs ds) : xs.length = ds.length := by
  have hlen := congrArg List.length hl.data
  rwa [List.length_map, List.length_map] at hlen

theorem nodup (hl : Holds l xs ds) : (head :: xs).Nodup := by
  have hs := hl.ring.sources
  rwa [← List.cons_append, List.dropLast_concat] at hs

theorem split (xs : List ℕ) {k : ℕ} (hk : k ≤ xs.length) :
    ∃ as p q bs, head :: (xs ++ [head]) = as ++ p :: q :: bs ∧
      as ++ [p] = head :: xs.take k ∧ q :: bs = xs.drop k ++ [head] ∧
      p = (head :: xs).getD k head ∧ q = (xs.drop k).headD head := by
  obtain ⟨as, p, hleft⟩ : ∃ as p, head :: xs.take k = as ++ [p] :=
    ⟨_, _, (List.dropLast_append_getLast (List.cons_ne_nil _ _)).symm⟩
  obtain ⟨q, bs, hright⟩ : ∃ q bs, xs.drop k ++ [head] = q :: bs :=
    List.exists_cons_of_ne_nil (by simp)
  refine ⟨as, p, q, bs, ?_, hleft.symm, hright.symm, ?_, ?_⟩
  · rw [List.append_cons as p (q :: bs), ← hleft, ← hright, List.cons_append,
      ← List.append_assoc, List.take_append_drop]
  · have hlast : (head :: xs.take k)[k]? = some p := by
      have hlen := congrArg List.length hleft
      rw [List.length_cons, List.length_take_of_le hk, List.length_append,
        List.length_singleton] at hlen
      rw [hleft, List.getElem?_append_right (by omega)]
      have hzero : k - as.length = 0 := by omega
      rw [hzero, List.getElem?_cons_zero]
    rw [List.getD_eq_getElem?_getD]
    cases k with
    | zero =>
      rw [List.getElem?_cons_zero] at hlast ⊢
      rw [hlast, Option.getD_some]
    | succ k =>
      rw [List.getElem?_cons_succ, List.getElem?_take_of_lt (Nat.lt_succ_self k)] at hlast
      rw [List.getElem?_cons_succ, hlast, Option.getD_some]
  · cases hdrop : xs.drop k with
    | nil =>
      rw [hdrop] at hright
      cases hright
      rfl
    | cons b rest =>
      rw [hdrop] at hright
      cases hright
      rfl

theorem insertIdx_eq {α : Type*} (xs : List α) {k : ℕ} (hk : k ≤ xs.length) (a : α) :
    xs.insertIdx k a = xs.take k ++ a :: xs.drop k := by
  induction xs generalizing k with
  | nil =>
    cases Nat.le_zero.mp hk
    rfl
  | cons x xs ih =>
    cases k with
    | zero => rfl
    | succ k =>
      rw [List.insertIdx_succ_cons, ih (Nat.le_of_succ_le_succ hk)]
      rfl

theorem map_update (hl : Holds l xs ds) (d : D) :
    xs.map (Function.update l.cells.data l.fresh (some d)) = ds.map some := by
  rw [← hl.data]
  apply List.map_congr_left
  intro p hp
  have hlt := hl.lt_fresh p (List.mem_cons_of_mem head hp)
  rw [Function.update_of_ne (by omega)]

theorem insert (hl : Holds l xs ds) {k : ℕ} (hk : k ≤ xs.length) (d : D) :
    ∃ h', (l.cells.alloc l.fresh d).list_add l.fresh ((head :: xs).getD k head)
        ((xs.drop k).headD head) = some h' ∧
      Holds ⟨h', (xs.insertIdx k l.fresh).headD head, l.list_count + 1, l.fresh + 1⟩
        (xs.insertIdx k l.fresh) (ds.insertIdx k d) := by
  obtain ⟨as, p, q, bs, hsplit, hleft, hright, rfl, rfl⟩ := split xs hk
  have hfresh : l.fresh ∉ head :: (xs ++ [head]) := by
    intro hmem
    have hlt : l.fresh ∈ head :: xs := by
      simp only [List.mem_cons, List.mem_append] at hmem ⊢
      tauto
    exact absurd (hl.lt_fresh _ hlt) (lt_irrefl _)
  have hring : (l.cells.alloc l.fresh d).Ring (head :: (xs ++ [head])) := by
    refine hl.ring.of_links rfl rfl fun x hx ↦ ?_
    have hne : x ≠ l.fresh := by rintro rfl; exact hfresh hx
    simpa [Cells.alloc, hne] using hl.ring.live x hx
  rw [hsplit] at hring hfresh
  obtain ⟨h', hadd, hring', hlive, hdata⟩ := hring.insert hfresh (by simp [Cells.alloc])
  refine ⟨h', hadd, ?_, ?_, rfl, ?_, ?_⟩
  · have heq : head :: (xs.insertIdx k l.fresh ++ [head]) =
        as ++ (head :: xs).getD k head :: l.fresh :: (xs.drop k).headD head :: bs := by
      rw [List.append_cons as, hleft, hright, insertIdx_eq xs hk]
      simp
    rw [heq]
    exact hring'
  · have hnew : h'.data = Function.update l.cells.data l.fresh (some d) := hdata
    rw [hnew, List.map_insertIdx, hl.map_update, Function.update_self, List.map_insertIdx]
  · rw [List.length_insertIdx_of_le_length hk, ← hl.count_eq]
  · intro x hx
    rw [List.mem_cons, List.mem_insertIdx hk] at hx
    rcases hx with rfl | rfl | hx
    · exact Nat.lt_succ_of_lt (hl.lt_fresh head (by simp))
    · exact Nat.lt_succ_self l.fresh
    · exact Nat.lt_succ_of_lt (hl.lt_fresh x (by simp [hx]))

theorem erase (hl : Holds l xs ds) {k p : ℕ} (hp : xs[k]? = some p) :
    ∃ h', l.cells.list_del p = some h' ∧ h'.live = l.cells.live ∧ h'.data = l.cells.data ∧
      Holds ⟨h', (xs.eraseIdx k).headD head, l.list_count - 1, l.fresh⟩
        (xs.eraseIdx k) (ds.eraseIdx k) := by
  obtain ⟨hk, hget⟩ := List.getElem?_eq_some_iff.mp hp
  obtain ⟨as, b, q, bs, hsplit, hleft, hright, -, -⟩ := split xs (Nat.le_of_lt hk)
  have hdrop : xs.drop k = p :: xs.drop (k + 1) := by rw [← hget, List.getElem_cons_drop]
  obtain ⟨c, cs, hrest⟩ : ∃ c cs, xs.drop (k + 1) ++ [head] = c :: cs :=
    List.exists_cons_of_ne_nil (by simp)
  rw [hdrop, List.cons_append, hrest, List.cons.injEq] at hright
  obtain ⟨rfl, rfl⟩ := hright
  have hring := hl.ring
  rw [hsplit] at hring
  obtain ⟨h', hdel, hring', hlive, hdata⟩ := hring.erase
  have hsub : (xs.eraseIdx k).Sublist xs := List.eraseIdx_sublist _ _
  refine ⟨h', hdel, hlive, hdata, ?_, ?_, rfl, ?_, ?_⟩
  · have heq : head :: (xs.eraseIdx k ++ [head]) = as ++ b :: c :: cs := by
      rw [List.append_cons as, hleft, ← hrest, List.eraseIdx_eq_take_drop_succ]
      simp
    rw [heq]
    exact hring'
  · rw [hdata, ← List.eraseIdx_map, hl.data, List.eraseIdx_map]
  · rw [List.length_eraseIdx_of_lt hk, ← hl.count_eq]
  · intro x hx
    exact hl.lt_fresh x ((hsub.cons_cons head).subset hx)

theorem free (hl : Holds l xs ds) {p : ℕ} (hlive : l.cells.live p = true) (hp : p ∉ head :: xs) :
    ∃ l', l.freeNode p = some l' ∧ Holds l' xs ds := by
  refine ⟨_, by rw [freeNode, Cells.free, if_pos hlive, Option.map_some], ?_⟩
  refine ⟨hl.ring.of_links rfl rfl fun x hx ↦ ?_, hl.data, hl.begin_eq, hl.count_eq, hl.lt_fresh⟩
  have hne : x ≠ p := by
    rintro rfl
    apply hp
    simp only [List.mem_cons, List.mem_append] at hx ⊢
    tauto
  simpa [hne] using hl.ring.live x hx

theorem getData (hl : Holds l xs ds) {k p : ℕ} (hp : xs[k]? = some p) :
    l.cells.getData p = ds[k]? := by
  have hmem : p ∈ head :: (xs ++ [head]) := by simp [List.mem_of_getElem? hp]
  have hdata := congrArg (fun es ↦ es[k]?) hl.data
  simp only [List.getElem?_map, hp, Option.map_some] at hdata
  rw [Cells.getData, if_pos (hl.ring.live p hmem)]
  cases hd : ds[k]? with
  | none => simp [hd] at hdata
  | some d => simpa [hd] using hdata

theorem getNext (hl : Holds l xs ds) {k p : ℕ} (hp : (head :: xs)[k]? = some p) :
    l.cells.getNext p = some ((xs.drop k).headD head) := by
  obtain ⟨hk, hget⟩ := List.getElem?_eq_some_iff.mp hp
  obtain ⟨as, b, q, bs, hsplit, -, -, hb, rfl⟩ := split xs (Nat.le_of_lt_succ hk)
  rw [List.getD_eq_getElem?_getD, hp, Option.getD_some] at hb
  have hring := hl.ring
  rw [hsplit, hb] at hring
  exact hring.getNext

theorem getPrev_head (hl : Holds l xs ds) :
    l.cells.getPrev head = some ((head :: xs).getD xs.length head) := by
  obtain ⟨as, p, q, bs, hsplit, -, -, rfl, hq⟩ := split xs (le_refl xs.length)
  rw [List.drop_length, List.headD_nil] at hq
  have hring := hl.ring
  rw [hsplit, hq] at hring
  exact hring.getPrev

theorem ne_head (hl : Holds l xs ds) {p : ℕ} (hp : p ∈ xs) : p ≠ head := by
  rintro rfl
  exact (List.nodup_cons.mp hl.nodup).1 hp

theorem begin_eq_head (hl : Holds l xs ds) : l.begin = head ↔ xs = [] := by
  rw [hl.begin_eq]
  cases xs with
  | nil => simp
  | cons x xs => simpa using hl.ne_head List.mem_cons_self

theorem eq_head (hl : Holds l xs ds) {k p : ℕ} (hp : (head :: xs)[k]? = some p) :
    p = head ↔ k = 0 := by
  cases k with
  | zero =>
    rw [List.getElem?_cons_zero, Option.some.injEq] at hp
    simp [hp]
  | succ k =>
    rw [List.getElem?_cons_succ] at hp
    simpa using hl.ne_head (List.mem_of_getElem? hp)

theorem live (hl : Holds l xs ds) {p : ℕ} (hp : p ∈ head :: xs) : l.cells.live p = true := by
  apply hl.ring.live
  simp only [List.mem_cons, List.mem_append] at hp ⊢
  tauto

theorem add (hl : Holds l xs ds) {k pos : ℕ} (hpos : (head :: xs)[k]? = some pos) (d : D) :
    ∃ l', l.add pos d = some l' ∧ Holds l' (xs.insertIdx k l.fresh) (ds.insertIdx k d) := by
  obtain ⟨hk, -⟩ := List.getElem?_eq_some_iff.mp hpos
  have hk' : k ≤ xs.length := Nat.le_of_lt_succ hk
  obtain ⟨h', hadd, hl'⟩ := hl.insert hk' d
  rw [List.getD_eq_getElem?_getD, hpos, Option.getD_some] at hadd
  have hnext : (l.cells.alloc l.fresh d).getNext pos = some ((xs.drop k).headD head) := by
    have hold := hl.getNext hpos
    have hlive := hl.live (List.mem_of_getElem? hpos)
    have hne : pos ≠ l.fresh := Nat.ne_of_lt (hl.lt_fresh pos (List.mem_of_getElem? hpos))
    rw [Cells.getNext, if_pos hlive] at hold
    rw [Cells.getNext, if_pos (by simp [Cells.alloc, hne, hlive])]
    exact hold
  have hbegin : (if pos = head then l.fresh else l.begin) =
      (xs.insertIdx k l.fresh).headD head := by
    cases k with
    | zero => rw [if_pos ((hl.eq_head hpos).mpr rfl), List.insertIdx_zero, List.headD_cons]
    | succ k =>
      rw [if_neg (by simp [hl.eq_head hpos]), hl.begin_eq]
      cases xs with
      | nil => simp at hk
      | cons x xs => rfl
  refine ⟨_, ?_, hl'⟩
  rw [LList.add, Cells.list_add_after]
  simp only [hnext, Option.bind_eq_bind, Option.bind_some, hadd, hbegin]

theorem add_back (hl : Holds l xs ds) (d : D) :
    ∃ l', l.add_back d = some l' ∧ Holds l' (xs ++ [l.fresh]) (ds ++ [d]) := by
  obtain ⟨h', hadd, hl'⟩ := hl.insert (le_refl xs.length) d
  rw [List.drop_length] at hadd
  have hprev : (l.cells.alloc l.fresh d).getPrev head =
      some ((head :: xs).getD xs.length head) := by
    have hold := hl.getPrev_head
    have hlive := hl.live List.mem_cons_self
    have hne : head ≠ l.fresh := Nat.ne_of_lt (hl.lt_fresh head (by simp))
    rw [Cells.getPrev, if_pos hlive] at hold
    rw [Cells.getPrev, if_pos (by simp [Cells.alloc, hne, hlive])]
    exact hold
  have hbegin : (if head = l.begin then h'.getNext head else some l.begin) =
      some ((xs.insertIdx xs.length l.fresh).headD head) := by
    by_cases hempty : head = l.begin
    · rw [if_pos hempty]
      exact hl'.getNext (List.getElem?_cons_zero)
    · rw [if_neg hempty, hl.begin_eq]
      have hxs : xs ≠ [] := fun hxs ↦ hempty (hl.begin_eq_head.mpr hxs).symm
      obtain ⟨x, rest, rfl⟩ := List.exists_cons_of_ne_nil hxs
      rfl
  rw [hl.length_eq, List.insertIdx_length_self, ← hl.length_eq, List.insertIdx_length_self] at hl'
  rw [List.insertIdx_length_self] at hbegin
  refine ⟨_, ?_, hl'⟩
  rw [LList.add_back, Cells.list_add_before]
  simp only [hprev, Option.bind_eq_bind, Option.bind_some]
  rw [List.headD_nil] at hadd
  simp only [hadd, Option.bind_some]
  split_ifs at hbegin ⊢
  · rw [hbegin, Option.bind_some]
  · rw [Option.some.inj hbegin]

theorem unlink (hl : Holds l xs ds) {k p : ℕ} (hp : xs[k]? = some p) :
    ∃ l', l.unlink false p = some l' ∧ Holds l' (xs.eraseIdx k) (ds.eraseIdx k) ∧
      l'.cells.live = l.cells.live ∧ l'.cells.data = l.cells.data := by
  obtain ⟨h', hdel, hlive, hdata, hl'⟩ := hl.erase hp
  have hbegin : (if p = l.begin then l.cells.getNext p else some l.begin) =
      some ((xs.eraseIdx k).headD head) := by
    cases xs with
    | nil => simp at hp
    | cons x xs =>
      rw [hl.begin_eq, List.headD_cons]
      cases k with
      | zero =>
        rw [List.getElem?_cons_zero, Option.some.injEq] at hp
        subst hp
        rw [if_pos rfl, hl.getNext (k := 1) rfl]
        rfl
      | succ k =>
        rw [List.getElem?_cons_succ] at hp
        have hnodup := (List.nodup_cons.mp (List.nodup_cons.mp hl.nodup).2).1
        have hne : p ≠ x := by
          rintro rfl
          exact hnodup (List.mem_of_getElem? hp)
        rw [if_neg hne]
        rfl
  refine ⟨_, ?_, hl', hlive, hdata⟩
  rw [LList.unlink]
  simp only [Option.bind_eq_bind, Option.bind_some, Bool.false_eq_true, if_false, hdel]
  split_ifs at hbegin ⊢
  · rw [hbegin, Option.bind_some]
  · rw [Option.some.inj hbegin]

theorem takeNode {l' : LList D} (hl : Holds l xs ds) {k p : ℕ} (hp : xs[k]? = some p)
    (hl' : Holds l' (xs.eraseIdx k) (ds.eraseIdx k)) (hlive : l'.cells.live = l.cells.live)
    (hdata : l'.cells.data = l.cells.data) :
    ∃ l'', l'.freeNode p = some l'' ∧ l'.takeNode p = some (l'', ds[k]?) ∧
      Holds l'' (xs.eraseIdx k) (ds.eraseIdx k) := by
  have hmem : p ∈ head :: xs := List.mem_cons_of_mem head (List.mem_of_getElem? hp)
  have hgone : p ∉ head :: xs.eraseIdx k := by
    rw [List.mem_cons, not_or]
    refine ⟨hl.ne_head (List.mem_of_getElem? hp), ?_⟩
    obtain ⟨hk, rfl⟩ := List.getElem?_eq_some_iff.mp hp
    have hnodup := (List.nodup_cons.mp hl.nodup).2
    rw [← hnodup.erase_getElem k hk]
    exact hnodup.not_mem_erase
  obtain ⟨l'', hfree, hl''⟩ := hl'.free (by rw [hlive]; exact hl.live hmem) hgone
  refine ⟨l'', hfree, ?_, hl''⟩
  have hread : l'.cells.getData p = ds[k]? := by
    rw [Cells.getData, hlive, hdata]
    exact hl.getData hp
  have hk : k < ds.length := by
    obtain ⟨hk, -⟩ := List.getElem?_eq_some_iff.mp hp
    rwa [← hl.length_eq]
  rw [LList.takeNode]
  simp only [hread, List.getElem?_eq_getElem hk, Option.bind_eq_bind, Option.bind_some, hfree]

theorem headD_drop (xs : List ℕ) {k : ℕ} (hk : k ≤ xs.length) :
    (head :: xs)[(k + 1) % (xs.length + 1)]? = some ((xs.drop k).headD head) := by
  rcases Nat.lt_or_eq_of_le hk with hlt | rfl
  · have hmod : (k + 1) % (xs.length + 1) = k + 1 := Nat.mod_eq_of_lt (by omega)
    have hdrop : xs.drop k = xs[k] :: xs.drop (k + 1) := (List.drop_eq_getElem_cons hlt)
    rw [hmod, List.getElem?_cons_succ, List.getElem?_eq_getElem hlt, hdrop, List.headD_cons]
  · rw [Nat.mod_self, List.drop_length]
    rfl

theorem walk (hl : Holds l xs ds) (i : ℕ) :
    ∃ p, l.walk i = some p ∧ (head :: xs)[(i + 1) % (xs.length + 1)]? = some p := by
  induction i with
  | zero =>
    refine ⟨_, rfl, ?_⟩
    rw [headD_drop xs (Nat.zero_le _), hl.begin_eq]
    rfl
  | succ i ih =>
    obtain ⟨p, hwalk, hp⟩ := ih
    have hk : (i + 1) % (xs.length + 1) ≤ xs.length :=
      Nat.le_of_lt_succ (Nat.mod_lt _ (Nat.succ_pos _))
    refine ⟨_, by rw [LList.walk, hwalk, Option.bind_some, hl.getNext hp], ?_⟩
    rw [← headD_drop xs hk, Nat.mod_add_mod]

theorem resolve (hl : Holds l xs ds) (pos : Pos) :
    ∃ p, l.resolve pos = some p ∧
      (head :: xs)[(pos.index xs.length + 1) % (xs.length + 1)]? = some p := by
  cases pos with
  | copy i =>
    obtain ⟨p, hwalk, hp⟩ := hl.walk i
    exact ⟨p, hwalk, by rwa [Pos.index, Nat.mod_add_mod]⟩
  | begin => exact hl.walk 0

theorem getElem_of_ne_head (hl : Holds l xs ds) {pos : Pos} {p : ℕ}
    (hp : (head :: xs)[(pos.index xs.length + 1) % (xs.length + 1)]? = some p) (hne : p ≠ head) :
    xs[pos.index xs.length]? = some p := by
  have hle : pos.index xs.length ≤ xs.length := by
    cases pos with
    | copy i => exact Nat.le_of_lt_succ (Nat.mod_lt _ (Nat.succ_pos _))
    | begin => exact Nat.zero_le _
  rcases Nat.lt_or_eq_of_le hle with hlt | heq
  · rwa [Nat.mod_eq_of_lt (by omega), List.getElem?_cons_succ] at hp
  · rw [heq, Nat.mod_self] at hp
    exact absurd ((hl.eq_head hp).mpr rfl) hne

theorem delete (hl : Holds l xs ds) {k p : ℕ} (hp : xs[k]? = some p) :
    ∃ l', l.delete false p = some (l', 1) ∧ l.remove false p = some (l', ds[k]?) ∧
      Holds l' (xs.eraseIdx k) (ds.eraseIdx k) := by
  obtain ⟨l', hunlink, hl', hlive, hdata⟩ := hl.unlink hp
  obtain ⟨l'', hfree, htake, hl''⟩ := hl.takeNode hp hl' hlive hdata
  have hbegin : l.begin ≠ head := by
    rw [Ne, hl.begin_eq_head]
    rintro rfl
    simp at hp
  refine ⟨l'', ?_, ?_, hl''⟩
  · rw [LList.delete, if_neg hbegin]
    simp only [hunlink, hfree, Option.bind_eq_bind, Option.bind_some]
  · rw [LList.remove, if_neg hbegin]
    simp only [hunlink, htake, Option.bind_eq_bind, Option.bind_some]

theorem detach (hl : Holds l xs ds) {k p : ℕ} (hp : xs[k]? = some p) :
    ∃ l', l.detach p = some (l', ds[k]?) ∧ Holds l' (xs.eraseIdx k) (ds.eraseIdx k) := by
  obtain ⟨h', hdel, hlive, hdata, hl'⟩ := hl.erase hp
  obtain ⟨k', hk'⟩ : ∃ d, ds[k]? = some d := by
    obtain ⟨hk, -⟩ := List.getElem?_eq_some_iff.mp hp
    exact ⟨_, List.getElem?_eq_getElem (hl.length_eq ▸ hk)⟩
  have hread : h'.getData p = ds[k]? := by
    rw [Cells.getData, hlive, hdata]
    exact hl.getData hp
  have hbegin : (if p = l.begin then h'.getNext head else some l.begin) =
      some ((xs.eraseIdx k).headD head) := by
    split_ifs with hfirst
    · exact hl'.getNext (k := 0) rfl
    · rw [hl.begin_eq] at hfirst ⊢
      cases xs with
      | nil => simp at hp
      | cons x xs =>
        cases k with
        | zero =>
          rw [List.getElem?_cons_zero, Option.some.injEq] at hp
          exact absurd hp.symm hfirst
        | succ k => rfl
  have hne : l.begin ≠ head := by
    rw [Ne, hl.begin_eq_head]
    rintro rfl
    simp at hp
  refine ⟨_, ?_, hl'⟩
  rw [LList.detach, if_neg hne]
  simp only [hdel, hread, hk', Option.bind_eq_bind, Option.bind_some]
  split_ifs at hbegin ⊢
  · rw [hbegin, Option.bind_some]
  · rw [Option.some.inj hbegin]

theorem remove_front (hl : Holds l xs ds) {p : ℕ} (hp : xs[0]? = some p) :
    ∃ l', l.remove_front = some (l', ds[0]?) ∧ Holds l' (xs.eraseIdx 0) (ds.eraseIdx 0) := by
  obtain ⟨h', hdel, hlive, hdata, hl'⟩ := hl.erase hp
  obtain ⟨l'', -, htake, hl''⟩ := hl.takeNode hp hl' hlive hdata
  have hnext : l.cells.getNext head = some p := by
    rw [hl.getNext (k := 0) rfl]
    cases xs with
    | nil => simp at hp
    | cons x xs => simpa using hp
  have hbegin : h'.getNext head = some ((xs.eraseIdx 0).headD head) := hl'.getNext (k := 0) rfl
  have hne : l.begin ≠ head := by
    rw [Ne, hl.begin_eq_head]
    rintro rfl
    simp at hp
  refine ⟨l'', ?_, hl''⟩
  rw [LList.remove_front, if_neg hne]
  simp only [hnext, hdel, hbegin, Option.bind_eq_bind, Option.bind_some, htake]

theorem unlinkBack (hl : Holds l xs ds) {k p : ℕ} (hk : k + 1 = xs.length) (hp : xs[k]? = some p)
    {emptied : Cells D → Option ℕ}
    (hempty : ∀ h, h.getNext head = some head → emptied h = some head) :
    ∃ l', l.unlinkBack emptied = some (p, l') ∧ Holds l' (xs.eraseIdx k) (ds.eraseIdx k) ∧
      l'.cells.live = l.cells.live ∧ l'.cells.data = l.cells.data := by
  obtain ⟨h', hdel, hlive, hdata, hl'⟩ := hl.erase hp
  have hprev : l.cells.getPrev head = some p := by
    rw [hl.getPrev_head, ← hk, List.getD_eq_getElem?_getD, List.getElem?_cons_succ, hp,
      Option.getD_some]
  have hbegin : (if l.list_count - 1 = 0 then emptied h' else some l.begin) =
      some ((xs.eraseIdx k).headD head) := by
    have hcount := hl.count_eq
    split_ifs with hlast
    · have hnil : xs.eraseIdx k = [] := by
        rw [← List.length_eq_zero_iff, List.length_eraseIdx_of_lt (by omega)]
        omega
      rw [hempty h' (by rw [hl'.getNext (k := 0) rfl, hnil]; rfl), hnil]
      rfl
    · obtain ⟨x, y, rest, rfl⟩ : ∃ x y rest, xs = x :: y :: rest := by
        match xs, hcount, hlast with
        | [], hcount, hlast => simp at hp
        | [x], hcount, hlast => simp at hcount; omega
        | x :: y :: rest, _, _ => exact ⟨x, y, rest, rfl⟩
      obtain ⟨j, rfl⟩ : ∃ j, k = j + 1 := ⟨rest.length, by simpa using hk⟩
      rw [hl.begin_eq]
      rfl
  refine ⟨_, ?_, hl', hlive, hdata⟩
  rw [LList.unlinkBack]
  simp only [hprev, hdel, Option.bind_eq_bind, Option.bind_some]
  split_ifs at hbegin ⊢
  · rw [hbegin, Option.bind_some]
  · rw [Option.some.inj hbegin]

theorem getNext_suffix (hl : Holds l xs ds) {as ys : List ℕ} {p : ℕ} (hxs : xs = as ++ p :: ys) :
    l.cells.getNext p = some (ys.headD head) := by
  have hp : (head :: xs)[as.length + 1]? = some p := by
    rw [List.getElem?_cons_succ, hxs, List.getElem?_append_right (le_refl _), Nat.sub_self,
      List.getElem?_cons_zero]
  rw [hl.getNext hp, hxs, List.append_cons]
  have hdrop : (as ++ [p] ++ ys).drop (as.length + 1) = ys := List.drop_left' (by simp)
  rw [hdrop]

theorem getData_suffix (hl : Holds l xs ds) {as ys : List ℕ} {bs es : List D} {p : ℕ} {d : D}
    (hxs : xs = as ++ p :: ys) (hds : ds = bs ++ d :: es) (hlen : as.length = bs.length) :
    l.cells.getData p = some d := by
  have hp : xs[as.length]? = some p := by
    rw [hxs, List.getElem?_append_right (le_refl _), Nat.sub_self, List.getElem?_cons_zero]
  rw [hl.getData hp, hds, hlen, List.getElem?_append_right (le_refl _), Nat.sub_self,
    List.getElem?_cons_zero]

theorem length_suffix (hl : Holds l xs ds) {as ys : List ℕ} {bs es : List D}
    (hxs : xs = as ++ ys) (hds : ds = bs ++ es) (hlen : as.length = bs.length) :
    ys.length = es.length := by
  have hlength := hl.length_eq
  rw [hxs, hds, List.length_append, List.length_append, hlen] at hlength
  exact Nat.add_left_cancel hlength

theorem find [DecidableEq D] (hl : Holds l xs ds) (d : D) (as : List ℕ) {ys : List ℕ}
    (bs : List D) {es : List D} (hxs : xs = as ++ ys) (hds : ds = bs ++ es)
    (hlen : as.length = bs.length) :
    find l.cells d (ys.length + 1) (ys.headD head) = some ((es.idxOf? d).bind (ys[·]?)) := by
  induction ys generalizing as bs es with
  | nil =>
    have hlengths := hl.length_suffix hxs hds hlen
    have hes : es = [] := List.length_eq_zero_iff.mp hlengths.symm
    have hnext := hl.getNext (k := 0) rfl
    subst hes
    simp [LList.find, hnext]
  | cons p ys ih =>
    have hlengths := hl.length_suffix hxs hds hlen
    rw [List.length_cons] at hlengths
    obtain ⟨e, es, rfl⟩ := List.exists_cons_of_length_eq_add_one hlengths.symm
    have hne : p ≠ head := hl.ne_head (by simp [hxs])
    have hrest := ih (as ++ [p]) (bs ++ [e]) (by simp [hxs]) (List.append_cons bs e es ▸ hds)
      (by simp [hlen])
    rw [List.headD_cons, List.length_cons, LList.find]
    simp only [hl.getNext_suffix hxs, hl.getData_suffix hxs hds hlen, Option.bind_eq_bind,
      Option.bind_some, if_neg hne]
    rw [List.idxOf?_cons]
    by_cases hed : e = d
    · simp [hed]
    · have hbeq : (e == d) = false := by simpa using hed
      rw [if_neg hed, hrest, hbeq]
      cases es.idxOf? d with
      | none => rfl
      | some i => rfl

theorem for_each (hl : Holds l xs ds) (as : List ℕ) {ys : List ℕ} (bs : List D) {es : List D}
    (hxs : xs = as ++ ys) (hds : ds = bs ++ es) (hlen : as.length = bs.length) :
    for_each l.cells (ys.length + 1) (ys.headD head) = some es := by
  induction ys generalizing as bs es with
  | nil =>
    have hlengths := hl.length_suffix hxs hds hlen
    have hes : es = [] := List.length_eq_zero_iff.mp hlengths.symm
    have hnext := hl.getNext (k := 0) rfl
    subst hes
    simp [LList.for_each, hnext]
  | cons p ys ih =>
    have hlengths := hl.length_suffix hxs hds hlen
    rw [List.length_cons] at hlengths
    obtain ⟨e, es, rfl⟩ := List.exists_cons_of_length_eq_add_one hlengths.symm
    have hne : p ≠ head := hl.ne_head (by simp [hxs])
    have hrest := ih (as ++ [p]) (bs ++ [e]) (by simp [hxs]) (List.append_cons bs e es ▸ hds)
      (by simp [hlen])
    rw [List.headD_cons, List.length_cons, LList.for_each]
    simp only [hl.getNext_suffix hxs, hl.getData_suffix hxs hds hlen, Option.bind_eq_bind,
      Option.bind_some, if_neg hne, hrest]

theorem nil_of_begin (hl : Holds l xs ds) (h : l.begin = head) : xs = [] ∧ ds = [] := by
  have hxs := hl.begin_eq_head.mp h
  have hlen := hl.length_eq
  rw [hxs, List.length_nil] at hlen
  exact ⟨hxs, List.length_eq_zero_iff.mp hlen.symm⟩

theorem getElem_isSome (hl : Holds l xs ds) {k p : ℕ} (hp : xs[k]? = some p) :
    report ds[k]? = 1 := by
  obtain ⟨hk, -⟩ := List.getElem?_eq_some_iff.mp hp
  rw [List.getElem?_eq_getElem (hl.length_eq ▸ hk)]
  rfl

theorem last (hl : Holds l xs ds) (h : l.begin ≠ head) :
    ∃ k p, k + 1 = xs.length ∧ xs[k]? = some p ∧ ds.getLast? = ds[k]? ∧
      ds.dropLast = ds.eraseIdx k := by
  have hxs : xs ≠ [] := fun hxs ↦ h (hl.begin_eq_head.mpr hxs)
  have hpos := List.length_pos_iff.mpr hxs
  have hlen := hl.length_eq
  refine ⟨xs.length - 1, _, by omega, List.getElem?_eq_getElem (by omega), ?_, ?_⟩
  · rw [List.getLast?_eq_getElem?, hlen]
  · rw [List.eraseIdx_eq_dropLast (by omega)]

end Holds

section Refinement

variable {l : LList D} {xs : List ℕ} {ds : List D}

theorem Holds.call_take (hl : Holds l xs ds) (pos : Pos) (h : l.begin ≠ head)
    (hend : l.resolve pos ≠ some head) :
    ∃ p, l.resolve pos = some p ∧ xs[pos.index ds.length]? = some p := by
  obtain ⟨p, hres, hp⟩ := hl.resolve pos
  have hxs : xs ≠ [] := fun hxs ↦ h (hl.begin_eq_head.mpr hxs)
  have hne : p ≠ head := by
    rintro rfl
    exact hend hres
  exact ⟨p, hres, hl.length_eq ▸ hl.getElem_of_ne_head hp hne⟩

variable [DecidableEq D]

theorem Holds.call_delete (hl : Holds l xs ds) (pos : Pos) (hreg : Regular l (.delete pos)) :
    ∃ l', l.call (.delete pos) = some (l', .ret (report ds[pos.index ds.length]?)) ∧
      l.call (.remove pos) = some (l', .data ds[pos.index ds.length]?) ∧
      ∃ xs', Holds l' xs' (ds.eraseIdx (pos.index ds.length)) := by
  by_cases h : l.begin = head
  · obtain ⟨rfl, rfl⟩ := hl.nil_of_begin h
    obtain ⟨p, hres, -⟩ := hl.resolve pos
    refine ⟨l, ?_, ?_, [], hl⟩
    · simp only [call, hres, Option.bind_some, LList.delete, if_pos h, Option.map_some]
      rfl
    · simp only [call, hres, Option.bind_some, LList.remove, if_pos h, Option.map_some]
      rfl
  · cases pos with
    | begin => exact absurd hreg h
    | copy i =>
      obtain ⟨p, hres, hp⟩ := hl.call_take (.copy i) h (hreg.resolve_left h)
      obtain ⟨l', hdelete, hremove, hl'⟩ := hl.delete hp
      have hown : decide (Pos.copy i = Pos.begin) = false := rfl
      refine ⟨l', ?_, ?_, _, hl'⟩
      · simp only [call, hres, Option.bind_some, hown, hdelete, Option.map_some,
          hl.getElem_isSome hp]
      · simp only [call, hres, Option.bind_some, hown, hremove, Option.map_some]

theorem Holds.call_detach (hl : Holds l xs ds) (pos : Pos) (hreg : Regular l (.detach pos)) :
    ∃ l', l.call (.detach pos) = some (l', .data ds[pos.index ds.length]?) ∧
      ∃ xs', Holds l' xs' (ds.eraseIdx (pos.index ds.length)) := by
  by_cases h : l.begin = head
  · obtain ⟨rfl, rfl⟩ := hl.nil_of_begin h
    obtain ⟨p, hres, -⟩ := hl.resolve pos
    refine ⟨l, ?_, [], hl⟩
    simp only [call, hres, Option.bind_some, LList.detach, if_pos h, Option.map_some]
    rfl
  · have hend : l.resolve pos ≠ some head := by
      cases pos with
      | begin => simpa [LList.resolve] using h
      | copy i => exact hreg.resolve_left h
    obtain ⟨p, hres, hp⟩ := hl.call_take pos h hend
    obtain ⟨l', hdetach, hl'⟩ := hl.detach hp
    exact ⟨l', by simp only [call, hres, Option.bind_some, hdetach, Option.map_some], _, hl'⟩

theorem Holds.call_delete_back (hl : Holds l xs ds) :
    ∃ l', l.call .delete_back = some (l', .ret (report ds.getLast?)) ∧
      ∃ xs', Holds l' xs' ds.dropLast := by
  by_cases h : l.begin = head
  · obtain ⟨rfl, rfl⟩ := hl.nil_of_begin h
    refine ⟨l, ?_, [], hl⟩
    rw [call, delete_back, if_pos h]
    rfl
  · obtain ⟨k, p, hk, hp, hlast, hdrop⟩ := hl.last h
    obtain ⟨l', hunlink, hl', hlive, hdata⟩ := hl.unlinkBack hk hp fun _ _ ↦ rfl
    obtain ⟨l'', hfree, -, hl''⟩ := hl.takeNode hp hl' hlive hdata
    refine ⟨l'', ?_, _, hdrop ▸ hl''⟩
    rw [call, delete_back, if_neg h, hlast, hl.getElem_isSome hp]
    simp only [hunlink, hfree, Option.bind_eq_bind, Option.bind_some, Option.map_some]

theorem Holds.call_remove_back (hl : Holds l xs ds) :
    ∃ l', l.call .remove_back = some (l', .data ds.getLast?) ∧
      ∃ xs', Holds l' xs' ds.dropLast := by
  by_cases h : l.begin = head
  · obtain ⟨rfl, rfl⟩ := hl.nil_of_begin h
    refine ⟨l, ?_, [], hl⟩
    rw [call, remove_back, if_pos h]
    rfl
  · obtain ⟨k, p, hk, hp, hlast, hdrop⟩ := hl.last h
    obtain ⟨l', hunlink, hl', hlive, hdata⟩ := hl.unlinkBack hk hp fun _ hempty ↦ hempty
    obtain ⟨l'', -, htake, hl''⟩ := hl.takeNode hp hl' hlive hdata
    refine ⟨l'', ?_, _, hdrop ▸ hl''⟩
    rw [call, remove_back, if_neg h, hlast]
    simp only [hunlink, htake, Option.bind_eq_bind, Option.bind_some, Option.map_some]

theorem Holds.call_detach_back (hl : Holds l xs ds) :
    ∃ l', l.call .detach_back = some (l', .data ds.getLast?) ∧
      ∃ xs', Holds l' xs' ds.dropLast := by
  by_cases h : l.begin = head
  · obtain ⟨rfl, rfl⟩ := hl.nil_of_begin h
    refine ⟨l, ?_, [], hl⟩
    rw [call, detach_back, if_pos h]
    rfl
  · obtain ⟨k, p, hk, hp, hlast, hdrop⟩ := hl.last h
    obtain ⟨l', hunlink, hl', hlive, hdata⟩ := hl.unlinkBack hk hp fun _ _ ↦ rfl
    have hread : l'.cells.getData p = ds[k]? := by
      rw [Cells.getData, hlive, hdata]
      exact hl.getData hp
    obtain ⟨d, hd⟩ : ∃ d, ds[k]? = some d := by
      obtain ⟨hlt, -⟩ := List.getElem?_eq_some_iff.mp hp
      exact ⟨_, List.getElem?_eq_getElem (hl.length_eq ▸ hlt)⟩
    refine ⟨l', ?_, _, hdrop ▸ hl'⟩
    rw [call, detach_back, if_neg h, hlast]
    simp only [hunlink, hread, hd, Option.bind_eq_bind, Option.bind_some, Option.map_some]

theorem Holds.call_remove_front (hl : Holds l xs ds) :
    ∃ l', l.call .remove_front = some (l', .data ds.head?) ∧ ∃ xs', Holds l' xs' ds.tail := by
  by_cases h : l.begin = head
  · obtain ⟨rfl, rfl⟩ := hl.nil_of_begin h
    refine ⟨l, ?_, [], hl⟩
    rw [call, LList.remove_front, if_pos h]
    rfl
  · obtain ⟨p, hp⟩ : ∃ p, xs[0]? = some p := by
      have hxs : xs ≠ [] := fun hxs ↦ h (hl.begin_eq_head.mpr hxs)
      exact ⟨_, List.getElem?_eq_getElem (List.length_pos_iff.mpr hxs)⟩
    obtain ⟨l', hremove, hl'⟩ := hl.remove_front hp
    rw [List.eraseIdx_zero, List.eraseIdx_zero] at hl'
    refine ⟨l', ?_, _, hl'⟩
    rw [call, hremove, Option.map_some, List.head?_eq_getElem?]

theorem Holds.call_remove_element (hl : Holds l xs ds) (d : D) :
    ∃ l', l.call (.remove_element d) = some (l', .ret (if d ∈ ds then 1 else 0)) ∧
      ∃ xs', Holds l' xs' (ds.erase d) := by
  have hfind := hl.find d [] [] rfl rfl rfl
  rw [← hl.begin_eq, ← hl.count_eq] at hfind
  rw [List.erase_eq_eraseIdx]
  cases hidx : ds.idxOf? d with
  | none =>
    rw [hidx, Option.bind_none] at hfind
    refine ⟨l, ?_, xs, hl⟩
    rw [call, remove_element, hfind, if_neg (List.idxOf?_eq_none_iff.mp hidx)]
    rfl
  | some i =>
    have hmem : d ∈ ds := by
      by_contra hnot
      rw [List.idxOf?_eq_none_iff.mpr hnot] at hidx
      cases hidx
    have hi : i < ds.length := by
      obtain ⟨hlt, -⟩ := List.findIdx?_eq_some_iff_getElem.mp hidx
      exact hlt
    have hi' : i < xs.length := hl.length_eq ▸ hi
    have hp : xs[i]? = some xs[i] := List.getElem?_eq_getElem hi'
    obtain ⟨l', hdelete, -, hl'⟩ := hl.delete hp
    rw [hidx, Option.bind_some, hp] at hfind
    refine ⟨l', ?_, _, hl'⟩
    rw [call, remove_element, hfind, if_pos hmem]
    simp only [Option.bind_eq_bind, Option.bind_some, hdelete, Option.map_some]

theorem Holds.call_add (hl : Holds l xs ds) (pos : Pos) (d : D) :
    ∃ l', l.call (.add pos d) = some (l', .ret 1) ∧ ∃ xs', Holds l' xs'
      (ds.insertIdx ((pos.index ds.length + 1) % (ds.length + 1)) d) := by
  obtain ⟨p, hres, hp⟩ := hl.resolve pos
  obtain ⟨l', hadd, hl'⟩ := hl.add hp d
  refine ⟨l', ?_, _, hl.length_eq ▸ hl'⟩
  simp only [call, hres, Option.bind_some, hadd, Option.map_some]

theorem Holds.call (hl : Holds l xs ds) (c : Call D) (hreg : Regular l c) :
    ∃ l' o, l.call c = some (l', o) ∧ sequence.ok ds c o ∧
      ∃ xs', Holds l' xs' (sequence.next ds c o) := by
  cases c with
  | add_front d =>
    obtain ⟨l', hadd, hl'⟩ := hl.add (k := 0) rfl d
    refine ⟨l', .ret 1, ?_, rfl, _, hl'⟩
    rw [LList.call, add_front, hadd, Option.map_some]
  | add_back d =>
    obtain ⟨l', hadd, hl'⟩ := hl.add_back d
    refine ⟨l', .ret 1, ?_, rfl, _, hl'⟩
    rw [LList.call, hadd, Option.map_some]
  | add pos d =>
    obtain ⟨l', hcall, hl'⟩ := hl.call_add pos d
    exact ⟨l', _, hcall, rfl, hl'⟩
  | delete pos =>
    obtain ⟨l', hdelete, -, hl'⟩ := hl.call_delete pos hreg
    exact ⟨l', _, hdelete, rfl, hl'⟩
  | delete_back =>
    obtain ⟨l', hcall, hl'⟩ := hl.call_delete_back
    exact ⟨l', _, hcall, rfl, hl'⟩
  | remove pos =>
    have hreg' : Regular l (.delete pos) := by cases pos <;> exact hreg
    obtain ⟨l', -, hremove, hl'⟩ := hl.call_delete pos hreg'
    exact ⟨l', _, hremove, rfl, hl'⟩
  | remove_front =>
    obtain ⟨l', hcall, hl'⟩ := hl.call_remove_front
    exact ⟨l', _, hcall, rfl, hl'⟩
  | remove_back =>
    obtain ⟨l', hcall, hl'⟩ := hl.call_remove_back
    exact ⟨l', _, hcall, rfl, hl'⟩
  | remove_element d =>
    obtain ⟨l', hcall, hl'⟩ := hl.call_remove_element d
    exact ⟨l', _, hcall, rfl, hl'⟩
  | detach pos =>
    obtain ⟨l', hcall, hl'⟩ := hl.call_detach pos hreg
    exact ⟨l', _, hcall, rfl, hl'⟩
  | detach_back =>
    obtain ⟨l', hcall, hl'⟩ := hl.call_detach_back
    exact ⟨l', _, hcall, rfl, hl'⟩
  | for_each =>
    have hloop := hl.for_each [] [] rfl rfl rfl
    rw [← hl.begin_eq, ← hl.count_eq] at hloop
    refine ⟨l, .list ds, ?_, rfl, xs, hl⟩
    rw [LList.call, hloop, Option.map_some]
  | get_count =>
    refine ⟨l, _, rfl, ?_, xs, hl⟩
    have hlen := hl.length_eq
    have hcount : l.list_count = ds.length := hl.count_eq.trans hlen
    exact congrArg (fun n : ℕ ↦ (n : ℤ)) hcount

/-- Forward links, backward links, `begin`, the end and the count all describe the sequence that
the calls make, and every call answers what the sequence says. -/
theorem refines_sequence {cs : List (Call D)}
    (hrun : Refine.Within LList.call sequence Regular (init : LList D) [] cs) :
    (∃ l ds, Run.final (Refine.step LList.call sequence) (some init, []) cs = (some l, ds) ∧
        ∃ xs, Holds l xs ds) ∧
      Refine.Refines LList.call sequence (init : LList D) [] cs :=
  Refine.refines_of_simulation (I := fun l ds ↦ ∃ xs, Holds l xs ds)
    (fun _ _ c hl hreg ↦ hl.elim fun _ hl ↦ hl.call c hreg) ⟨[], holds_init⟩ hrun

end Refinement

instance decidableRegular {D : Type} (l : LList D) (c : Call D) : Decidable (Regular l c) := by
  unfold Regular
  split <;> infer_instance

instance decidableOk {D : Type} [DecidableEq D] (ds : List D) (c : Call D) (o : Answer D) :
    Decidable (sequence.ok ds c o) := by
  unfold sequence
  dsimp only
  split <;> infer_instance

theorem refines_sequence_mixed :
    (∃ l ds, Run.final (Refine.step LList.call sequence) (some init, [])
        [.add_back 1, .add_front 0, .add (.copy 0) 7, .delete (.copy 1), .detach .begin,
          .remove_element 1, .remove_back, .for_each] = (some l, ds) ∧ ∃ xs, Holds l xs ds) ∧
      Refine.Refines LList.call sequence (init : LList ℕ) []
        [.add_back 1, .add_front 0, .add (.copy 0) 7, .delete (.copy 1), .detach .begin,
          .remove_element 1, .remove_back, .for_each] :=
  refines_sequence (by decide)

/-- Deleting at the list's own `begin` unlinks the second node and frees the first one, which the
head still points to. -/
theorem not_refines_sequence_delete_begin :
    ¬ ∀ cs : List (Call ℕ), Refine.Refines LList.call sequence (init : LList ℕ) [] cs := by
  intro h
  have hrun := h [.add_back 1, .add_back 2, .delete .begin, .for_each]
  revert hrun
  decide

end LList

end Libobject
