import Libobject.Lib.HeapOrder
import Libobject.Lib.Refine
import Mathlib.Algebra.GroupWithZero.Nat
import Mathlib.Data.Multiset.AddSub

/-!
# The heap

A priority queue in an array. The comparison says whether its first argument comes after its second,
so the first element comes behind no other. A cell that holds no element is not to be compared.
-/

namespace Libobject

structure Heap (α : Type) where
  comparator : α → α → ℤ
  capacity : ℕ
  queue : List (Option α)
  size : ℕ

namespace Heap

variable {α : Type}

/-- With no capacity set there is room for 64. -/
def room (capacity : ℕ) : ℕ := if capacity = 0 then 64 else capacity

/-- The cells of the memory that `heap_init` gets: the number of bytes is a `uint32_t`. -/
def cells (capacity : ℕ) (mem : Bool) : ℕ := if mem then 8 * room capacity % 2 ^ 32 / 8 else 0

/-- `mem` tells whether there is memory, at which nobody looks. -/
def heap_init (comparator : α → α → ℤ) (capacity : ℕ) (mem : Bool) : Heap α :=
  ⟨comparator, capacity, List.replicate (cells capacity mem) none, 0⟩

/-- The element in a cell. -/
def cell (queue : List (Option α)) (i : ℕ) : Option α := (queue[i]?).join

def place (queue : List (Option α)) (i : ℕ) (e : α) : Option (List (Option α)) :=
  if i < queue.length then some (queue.set i (some e)) else none

/-- The loop of `shiftup`, which has no more turns than the index says. -/
def shiftupFrom (comparator : α → α → ℤ) (e : α) :
    ℕ → ℕ → List (Option α) → Option (List (Option α))
  | 0, index, queue => if 0 < index then none else place queue index e
  | n + 1, index, queue =>
    if 0 < index then
      match cell queue ((index - 1) / 2) with
      | none => none
      | some p =>
        if comparator e p ≠ 0 then place queue index e
        else (place queue index p).bind (shiftupFrom comparator e n ((index - 1) / 2))
    else place queue index e

def shiftup (h : Heap α) (index : ℕ) (e : α) : Option (List (Option α)) :=
  shiftupFrom h.comparator e index index h.queue

/-- The child that the element at `index` is compared with. -/
def childOf (comparator : α → α → ℤ) (size : ℕ) (queue : List (Option α)) (index : ℕ) :
    Option (ℕ × α) :=
  match cell queue (2 * index + 1) with
  | none => none
  | some x =>
    if 2 * index + 2 < size then
      match cell queue (2 * index + 2) with
      | none => none
      | some y => some (if comparator x y ≠ 0 then (2 * index + 2, y) else (2 * index + 1, x))
    else some (2 * index + 1, x)

/-- The loop of `shiftdown`, which has fewer turns than there are elements. -/
def shiftdownFrom (comparator : α → α → ℤ) (size : ℕ) (e : α) :
    ℕ → ℕ → List (Option α) → Option (List (Option α))
  | 0, index, queue => if index < size / 2 then none else place queue index e
  | n + 1, index, queue =>
    if index < size / 2 then
      match childOf comparator size queue index with
      | none => none
      | some (child, x) =>
        if comparator x e ≠ 0 then place queue index e
        else (place queue index x).bind (shiftdownFrom comparator size e n child)
    else place queue index e

def shiftdown (h : Heap α) (index : ℕ) (e : α) : Option (List (Option α)) :=
  shiftdownFrom h.comparator h.size e h.size index h.queue

def heap_add (h : Heap α) (e : α) : Option (Heap α) :=
  (h.shiftup h.size e).map fun queue ↦ { h with queue, size := h.size + 1 }

/-- The last element sinks from the top while it is still in its own cell. -/
def heap_remove (h : Heap α) : Option (Heap α × ℤ × Option α) :=
  if h.size = 0 then some (h, -1, none)
  else
    match cell h.queue 0, cell h.queue (h.size - 1) with
    | some element, some last =>
      (h.shiftdown 0 last).map fun queue ↦
        ({ h with queue := queue.set (h.size - 1) none, size := h.size - 1 }, 1, some element)
    | _, _ => none

/-- The turns of `heap_sort`: what is removed goes to the cell that has become free. -/
def sortTurns : ℕ → Heap α → Option (Heap α)
  | 0, h => if 1 < h.size then none else some h
  | n + 1, h =>
    if 1 < h.size then
      match h.heap_remove with
      | some (h', _, some e) =>
        (place h'.queue (h.size - 1) e).bind fun queue ↦ sortTurns n { h' with queue }
      | _ => none
    else some h

def heap_sort (h : Heap α) : Option (Heap α) := sortTurns h.size h

inductive Call (α : Type)
  | add (e : α)
  | remove

inductive Answer (α : Type)
  | added
  | removed (ret : ℤ) (element : Option α)

def call (h : Heap α) : Call α → Option (Heap α × Answer α)
  | .add e => (h.heap_add e).map fun h ↦ (h, .added)
  | .remove => (h.heap_remove).map fun r ↦ (r.1, .removed r.2.1 r.2.2)

/-- What a priority queue does with the elements it has. -/
def priorityQueue [DecidableEq α] (le : α → α → Prop) :
    Spec (Multiset α) (Call α) (Answer α) where
  ok
    | _, .add _, .added => True
    | s, .remove, .removed ret element =>
      s = 0 ∧ ret = -1 ∧ element = none ∨
        ∃ x ∈ s, ret = 1 ∧ element = some x ∧ ∀ y ∈ s, le x y
    | _, _, _ => False
  next
    | s, .add e, _ => e ::ₘ s
    | s, .remove, .removed _ (some x) => s.erase x
    | s, .remove, _ => s

/-- The call stays within the capacity. -/
def Allowed (h : Heap α) : Call α → Prop
  | .add _ => h.size < room h.capacity
  | .remove => True

/-- There is a cell for what is added. -/
def Fits (h : Heap α) : Call α → Prop
  | .add _ => h.size < h.queue.length
  | .remove => True

/-- The cells below the size hold `xs`, in the heap's order. -/
structure Holds (le : α → α → Prop) (h : Heap α) (xs : List α) (rest : List (Option α)) :
    Prop where
  queue_eq : h.queue = xs.map some ++ rest
  size_eq : h.size = xs.length
  ordered : HeapOrder.Ordered le xs

/-- The comparison puts two elements into the order `le`; of tied ones it may say either. -/
structure Compares (cmp : α → α → ℤ) (le : α → α → Prop) : Prop where
  after : ∀ a b, cmp a b ≠ 0 → le b a
  not_after : ∀ a b, cmp a b = 0 → le a b

theorem Compares.refl {cmp : α → α → ℤ} {le : α → α → Prop} (h : Compares cmp le) (a : α) :
    le a a := by
  by_cases hc : cmp a a = 0
  · exact h.not_after a a hc
  · exact h.after a a hc

theorem Compares.total {cmp : α → α → ℤ} {le : α → α → Prop} (h : Compares cmp le) :
    Std.Total le := by
  constructor
  intro a b
  by_cases hc : cmp a b = 0
  · exact Or.inl (h.not_after a b hc)
  · exact Or.inr (h.after a b hc)

/-- With `e` put into the cell `i` the queue begins with the elements `ys`. -/
structure Hole (queue : List (Option α)) (i : ℕ) (e : α) (ys : List α)
    (rest : List (Option α)) : Prop where
  set_eq : queue.set i (some e) = ys.map some ++ rest
  lt : i < queue.length
  here : ys[i]? = some e

namespace Hole

variable {queue rest : List (Option α)} {i j : ℕ} {e a : α} {ys : List α}

theorem place_eq (h : Hole queue i e ys rest) : place queue i e = some (ys.map some ++ rest) := by
  rw [place, if_pos h.lt, h.set_eq]

theorem cell_eq (h : Hole queue i e ys rest) (hne : j ≠ i) (ha : ys[j]? = some a) :
    cell queue j = some a := by
  obtain ⟨hlt, -⟩ := List.getElem?_eq_some_iff.1 ha
  have hset : (queue.set i (some e))[j]? = queue[j]? := List.getElem?_set_ne (Ne.symm hne)
  rw [h.set_eq, List.getElem?_append_left (by rwa [List.length_map]), List.getElem?_map, ha] at hset
  rw [cell, ← hset]
  rfl

theorem move (h : Hole queue i e ys rest) (ha : ys[j]? = some a) :
    place queue i a = some (queue.set i (some a)) ∧
      Hole (queue.set i (some a)) j e ((ys.set i a).set j e) rest := by
  obtain ⟨hlt, -⟩ := List.getElem?_eq_some_iff.1 ha
  obtain ⟨hi, -⟩ := List.getElem?_eq_some_iff.1 h.here
  have hlength : queue.length = ys.length + rest.length := by
    have hset := congrArg List.length h.set_eq
    rwa [List.length_set, List.length_append, List.length_map] at hset
  refine ⟨if_pos h.lt, ?_, ?_, ?_⟩
  · have hset : queue.set i (some a) = (queue.set i (some e)).set i (some a) := by
      rw [List.set_set]
    rw [hset, h.set_eq, List.set_append_left _ _ (by rwa [List.length_map]),
      List.set_append_left _ _ (by rwa [List.length_set, List.length_map]), List.map_set,
      List.map_set]
  · rw [List.length_set]
    omega
  · exact List.getElem?_set_self (by rwa [List.length_set])

end Hole

section Sifts

variable {cmp : α → α → ℤ} {le : α → α → Prop}

open HeapOrder

theorem shiftupFrom_spec [IsTrans α le] (hcmp : Compares cmp le)
    {rest : List (Option α)} {e : α} {n index : ℕ} {queue : List (Option α)} {ys : List α}
    (hn : index ≤ n) (h : Hole queue index e ys rest) (hrising : Rising le ys index) :
    ∃ zs, shiftupFrom cmp e n index queue = some (zs.map some ++ rest) ∧ zs.Perm ys ∧
      Ordered le zs := by
  induction n generalizing index queue ys with
  | zero =>
    rw [shiftupFrom, if_neg (by omega)]
    exact ⟨ys, h.place_eq, List.Perm.refl ys, hrising.ordered (Or.inl (by omega))⟩
  | succ n ih =>
    rw [shiftupFrom]
    by_cases hpos : 0 < index
    · rw [if_pos hpos]
      obtain ⟨hlt, -⟩ := List.getElem?_eq_some_iff.1 h.here
      have hp : ys[(index - 1) / 2]? = some ys[(index - 1) / 2] :=
        List.getElem?_eq_getElem (by omega)
      rw [h.cell_eq (by omega) hp]
      dsimp only
      by_cases hc : cmp e ys[(index - 1) / 2] = 0
      · obtain ⟨hplace, hmove⟩ := h.move hp
        rw [if_neg (not_not.2 hc), hplace, Option.bind_some]
        obtain ⟨zs, hzs, hperm, hordered⟩ :=
          ih (by omega) hmove (hrising.exchange hpos h.here hp (hcmp.not_after _ _ hc))
        exact ⟨zs, hzs, hperm.trans (perm_exchange h.here hp), hordered⟩
      · rw [if_pos hc]
        refine ⟨ys, h.place_eq, List.Perm.refl ys, hrising.ordered (Or.inr ?_)⟩
        exact (inOrder_iff hp h.here).2 (hcmp.after _ _ hc)
    · rw [if_neg hpos]
      exact ⟨ys, h.place_eq, List.Perm.refl ys, hrising.ordered (Or.inl (by omega))⟩

theorem childOf_spec (hcmp : Compares cmp le)
    {rest : List (Option α)} {e : α} {index : ℕ} {queue : List (Option α)} {ys : List α}
    (hindex : index < ys.length / 2) (h : Hole queue index e ys rest) :
    ∃ child x, childOf cmp ys.length queue index = some (child, x) ∧ 0 < child ∧
      (child - 1) / 2 = index ∧ ys[child]? = some x ∧
      ∀ j, 0 < j → (j - 1) / 2 = index → ∀ y, ys[j]? = some y → le x y := by
  have hx : ys[2 * index + 1]? = some ys[2 * index + 1] := List.getElem?_eq_getElem (by omega)
  have hchildren {j : ℕ} (hj : 0 < j) (hj' : (j - 1) / 2 = index) :
      j = 2 * index + 1 ∨ j = 2 * index + 2 := by omega
  rw [childOf, h.cell_eq (by omega) hx]
  dsimp only
  by_cases hright : 2 * index + 2 < ys.length
  · have hy : ys[2 * index + 2]? = some ys[2 * index + 2] := List.getElem?_eq_getElem hright
    rw [if_pos hright, h.cell_eq (by omega) hy]
    dsimp only
    by_cases hc : cmp ys[2 * index + 1] ys[2 * index + 2] = 0
    · rw [if_neg (not_not.2 hc)]
      refine ⟨_, _, rfl, by omega, by omega, hx, fun j hj hj' y hjy ↦ ?_⟩
      rcases hchildren hj hj' with rfl | rfl
      · cases hx.symm.trans hjy
        exact hcmp.refl _
      · cases hy.symm.trans hjy
        exact hcmp.not_after _ _ hc
    · rw [if_pos hc]
      refine ⟨_, _, rfl, by omega, by omega, hy, fun j hj hj' y hjy ↦ ?_⟩
      rcases hchildren hj hj' with rfl | rfl
      · cases hx.symm.trans hjy
        exact hcmp.after _ _ hc
      · cases hy.symm.trans hjy
        exact hcmp.refl _
  · rw [if_neg hright]
    refine ⟨_, _, rfl, by omega, by omega, hx, fun j hj hj' y hjy ↦ ?_⟩
    rcases hchildren hj hj' with rfl | rfl
    · cases hx.symm.trans hjy
      exact hcmp.refl _
    · obtain ⟨hlt, -⟩ := List.getElem?_eq_some_iff.1 hjy
      omega

theorem shiftdownFrom_spec [IsTrans α le] (hcmp : Compares cmp le)
    {rest : List (Option α)} {e : α} {n index : ℕ}
    {queue : List (Option α)} {ys : List α} (hn : ys.length ≤ n + index)
    (h : Hole queue index e ys rest) (hsinking : Sinking le ys index)
    (hlast : ys[ys.length - 1]? = some e) :
    ∃ zs, shiftdownFrom cmp ys.length e n index queue = some (zs.map some ++ rest) ∧ zs.Perm ys ∧
      Ordered le zs ∧ zs[ys.length - 1]? = some e := by
  induction n generalizing index queue ys with
  | zero =>
    obtain ⟨hlt, -⟩ := List.getElem?_eq_some_iff.1 h.here
    omega
  | succ n ih =>
    rw [shiftdownFrom]
    by_cases hindex : index < ys.length / 2
    · obtain ⟨child, x, hchild, hpos, hup, hx, hleast⟩ := childOf_spec hcmp hindex h
      rw [if_pos hindex, hchild]
      dsimp only
      by_cases hc : cmp x e = 0
      · obtain ⟨hplace, hmove⟩ := h.move hx
        have hlength : ((ys.set index x).set child e).length = ys.length := by
          rw [List.length_set, List.length_set]
        have hlast' : ((ys.set index x).set child e)[ys.length - 1]? = some e := by
          rw [getElem?_exchange h.here hx]
          split_ifs
          · rfl
          · omega
          · exact hlast
        have hnext := hsinking.exchange hpos hup h.here hx (hcmp.not_after _ _ hc) hleast
        obtain ⟨zs, hzs, hperm, hordered, hz⟩ :=
          ih (by omega) hmove hnext (by rwa [hlength])
        rw [hlength] at hzs hz
        rw [if_neg (not_not.2 hc), hplace, Option.bind_some]
        exact ⟨zs, hzs, hperm.trans (perm_exchange h.here hx), hordered, hz⟩
      · rw [if_pos hc]
        refine ⟨ys, h.place_eq, List.Perm.refl ys, hsinking.ordered fun j hj hj' ↦ ?_, hlast⟩
        intro a b ha hb
        cases h.here.symm.trans ha
        exact IsTrans.trans _ _ _ (hcmp.after _ _ hc) (hleast j hj hj' b hb)
    · rw [if_neg hindex]
      refine ⟨ys, h.place_eq, List.Perm.refl ys, hsinking.ordered fun j hj hj' a b _ hb ↦ ?_, hlast⟩
      obtain ⟨hlt, -⟩ := List.getElem?_eq_some_iff.1 hb
      omega

end Sifts

section Operations

variable {le : α → α → Prop} {h : Heap α} {xs : List α} {rest : List (Option α)}

open HeapOrder

theorem holds_init (comparator : α → α → ℤ) (capacity : ℕ) (mem : Bool) :
    Holds le (heap_init comparator capacity mem) [] (List.replicate (cells capacity mem) none) := by
  refine ⟨rfl, rfl, ?_⟩
  intro j _ a b ha
  cases ha

theorem Holds.cell_eq (hh : Holds le h xs rest) {i : ℕ} {a : α} (ha : xs[i]? = some a) :
    cell h.queue i = some a := by
  obtain ⟨hlt, -⟩ := List.getElem?_eq_some_iff.1 ha
  rw [cell, hh.queue_eq, List.getElem?_append_left (by rwa [List.length_map]), List.getElem?_map,
    ha]
  rfl

theorem Holds.add [IsTrans α le] (hh : Holds le h xs rest) (hcmp : Compares h.comparator le) (e : α)
    (hfits : h.size < h.queue.length) :
    ∃ h' zs rest', h.heap_add e = some h' ∧ Holds le h' zs rest' ∧ zs.Perm (e :: xs) ∧
      h'.comparator = h.comparator := by
  have hsize := hh.size_eq
  match rest, hh with
  | [], hh =>
    rw [hh.queue_eq, List.append_nil, List.length_map] at hfits
    omega
  | c :: rest, hh =>
    have hhere : (xs ++ [e])[xs.length]? = some e := List.getElem?_concat_length
    have hhole : Hole h.queue h.size e (xs ++ [e]) rest := by
      refine ⟨?_, ?_, by rw [hsize]; exact hhere⟩
      · rw [hh.queue_eq, hsize, List.set_append_right _ _ (by rw [List.length_map]),
          List.length_map, Nat.sub_self, List.set_cons_zero, List.map_append, List.append_assoc]
        rfl
      · rw [hh.queue_eq, hsize]
        simp
    have hrising : Rising le (xs ++ [e]) h.size := by
      have hold {j : ℕ} {b : α} (hb : (xs ++ [e])[j]? = some b) (hj : j ≠ h.size) :
          xs[j]? = some b := by
        obtain ⟨hlt, -⟩ := List.getElem?_eq_some_iff.1 hb
        rw [List.length_append, List.length_singleton] at hlt
        rwa [List.getElem?_append_left (by omega)] at hb
      constructor
      · intro j hj hne a b ha hb
        have hb' := hold hb hne
        obtain ⟨hlt, -⟩ := List.getElem?_eq_some_iff.1 hb'
        exact hh.ordered j hj a b (hold ha (by omega)) hb'
      · intro _ j hj hup a b _ hb
        obtain ⟨hlt, -⟩ := List.getElem?_eq_some_iff.1 hb
        rw [List.length_append, List.length_singleton] at hlt
        omega
    obtain ⟨zs, hzs, hperm, hordered⟩ := shiftupFrom_spec hcmp le_rfl hhole hrising
    have hlength := hperm.length_eq
    rw [List.length_append, List.length_singleton] at hlength
    refine ⟨{ h with queue := zs.map some ++ rest, size := h.size + 1 }, zs, rest, ?_, ?_, ?_, rfl⟩
    · rw [heap_add, shiftup, hzs]
      rfl
    · exact ⟨rfl, by rw [hlength, hsize], hordered⟩
    · exact hperm.trans (List.perm_append_singleton e xs)

theorem Holds.remove_nil (hh : Holds le h [] rest) : h.heap_remove = some (h, -1, none) :=
  if_pos hh.size_eq

theorem Holds.remove [IsTrans α le] {x : α} (hh : Holds le h (x :: xs) rest)
    (hcmp : Compares h.comparator le) :
    ∃ h' zs, h.heap_remove = some (h', 1, some x) ∧ Holds le h' zs (none :: rest) ∧ zs.Perm xs ∧
      h'.comparator = h.comparator := by
  have hsize := hh.size_eq
  obtain ⟨last, hlast⟩ : ∃ last, (x :: xs)[xs.length]? = some last :=
    ⟨_, List.getElem?_eq_getElem (Nat.lt_succ_self _)⟩
  have hhole : Hole h.queue 0 last (last :: xs) rest := by
    refine ⟨?_, ?_, rfl⟩
    · rw [hh.queue_eq]
      rfl
    · rw [hh.queue_eq]
      exact Nat.succ_pos _
  have hsinking : Sinking le (last :: xs) 0 := hh.ordered.sinking_root last
  have hlast' : (last :: xs)[(last :: xs).length - 1]? = some last := by
    cases xs with
    | nil => rfl
    | cons y ys => exact hlast
  obtain ⟨zs, hzs, hperm, hordered, hz⟩ :=
    shiftdownFrom_spec hcmp (Nat.le_add_right _ 0) hhole hsinking hlast'
  -- the last cell becomes free
  obtain ⟨ys, rfl⟩ : ∃ ys, zs = ys ++ [last] := by
    refine ⟨zs.dropLast, (List.dropLast_append_getLast? last ?_).symm⟩
    rw [List.getLast?_eq_getElem?, hperm.length_eq]
    exact hz
  have hlength : ys.length = xs.length := by simpa using hperm.length_eq
  have hfree : ((ys ++ [last]).map some ++ rest).set xs.length none =
      ys.map some ++ none :: rest := by
    rw [List.map_append, List.append_assoc,
      List.set_append_right _ _ (by rw [List.length_map, hlength]), List.length_map, hlength,
      Nat.sub_self]
    rfl
  have hremove : h.heap_remove =
      some ({ h with queue := ys.map some ++ none :: rest, size := xs.length }, 1, some x) := by
    have hdown : h.shiftdown 0 last = some ((ys ++ [last]).map some ++ rest) := by
      rw [shiftdown, hsize]
      exact hzs
    have hindex : (x :: xs).length - 1 = xs.length := rfl
    rw [heap_remove, if_neg (by rw [hsize]; exact Nat.succ_ne_zero _), hh.cell_eq (i := 0) rfl,
      hsize,
      hindex, hh.cell_eq hlast]
    dsimp only
    rw [hdown, Option.map_some, hfree]
  exact ⟨_, ys, hremove, ⟨rfl, hlength.symm, hordered.sublist_left⟩,
    ((List.perm_append_singleton _ _).symm.trans hperm).cons_inv, rfl⟩

/-- What `heap_sort` leaves: the elements from the last to the first. -/
structure Sorts (le : α → α → Prop) (xs out : List α) : Prop where
  perm : out.Perm xs
  ordered : out.Pairwise fun a b ↦ le b a

theorem sorts_short (hlen : xs.length ≤ 1) {out : List α} (hout : out.Pairwise fun a b ↦ le b a)
    (hbehind : ∀ a ∈ xs, ∀ b ∈ out, le b a) : Sorts le (xs ++ out) (xs ++ out) := by
  refine ⟨List.Perm.refl _, List.pairwise_append.2 ⟨?_, hout, hbehind⟩⟩
  match xs, hlen with
  | [], _ => exact List.Pairwise.nil
  | [x], _ => exact List.pairwise_singleton _ x

theorem sortTurns_of_le (n : ℕ) (hsize : h.size ≤ 1) : sortTurns n h = some h := by
  cases n with
  | zero => exact if_neg (by omega)
  | succ n => exact if_neg (by omega)

theorem Holds.sortTurn [IsTrans α le] {x : α} {out : List α}
    (hh : Holds le h (x :: xs) (out.map some ++ rest)) (hcmp : Compares h.comparator le)
    (hxs : xs ≠ []) (n : ℕ) :
    ∃ h' zs, Heap.sortTurns (n + 1) h = Heap.sortTurns n h' ∧
      Holds le h' zs ((x :: out).map some ++ rest) ∧ zs.Perm xs ∧ h'.comparator = h.comparator := by
  obtain ⟨h', zs, hremove, hh', hperm, hcmp'⟩ := hh.remove hcmp
  have hlength := hperm.length_eq
  have hpos := List.length_pos_iff.2 hxs
  have hsize : h.size = xs.length + 1 := hh.size_eq
  have hindex : h.size - 1 = zs.length := by omega
  have hplace : place h'.queue (h.size - 1) x =
      some (zs.map some ++ ((x :: out).map some ++ rest)) := by
    rw [place, hindex, hh'.queue_eq, if_pos, List.set_append_right _ _ (by rw [List.length_map]),
      List.length_map, Nat.sub_self]
    · rfl
    · rw [List.length_append, List.length_map, List.length_cons]
      exact Nat.lt_add_of_pos_right (Nat.succ_pos _)
  refine ⟨{ h' with queue := zs.map some ++ ((x :: out).map some ++ rest) }, zs, ?_,
    ⟨rfl, hh'.size_eq, hh'.ordered⟩, hperm, hcmp'⟩
  rw [Heap.sortTurns, if_pos (by omega), hremove]
  dsimp only
  rw [hplace, Option.bind_some]

theorem Holds.sortTurns [IsTrans α le] {n : ℕ} {out : List α}
    (hh : Holds le h xs (out.map some ++ rest)) (hcmp : Compares h.comparator le)
    (hn : xs.length ≤ n + 1) (hout : out.Pairwise fun a b ↦ le b a)
    (hbehind : ∀ a ∈ xs, ∀ b ∈ out, le b a) :
    ∃ h' zs, sortTurns n h = some h' ∧ h'.queue = zs.map some ++ rest ∧
      Sorts le (xs ++ out) zs := by
  have htotal := hcmp.total
  by_cases hlen : xs.length ≤ 1
  · refine ⟨h, xs ++ out, sortTurns_of_le n (hh.size_eq.trans_le hlen), ?_,
      sorts_short hlen hout hbehind⟩
    rw [hh.queue_eq, List.map_append, List.append_assoc]
  induction n generalizing h xs out with
  | zero => omega
  | succ n ih =>
    match xs, hh, hn, hbehind, hlen with
    | [], _, _, _, hlen => exact absurd (Nat.zero_le 1) hlen
    | x :: xs, hh, hn, hbehind, hlen =>
      have hxs : xs ≠ [] := by
        rintro rfl
        exact hlen le_rfl
      obtain ⟨h', zs, hturn, hh', hperm, hcmp'⟩ := hh.sortTurn hcmp hxs n
      have hlength := hperm.length_eq
      rw [List.length_cons] at hn
      have hbehind' : ∀ a ∈ zs, ∀ b ∈ x :: out, le b a := by
        intro a ha b hb
        have hmem : a ∈ x :: xs := List.mem_cons_of_mem x (hperm.mem_iff.1 ha)
        rcases List.mem_cons.1 hb with rfl | hb
        · obtain ⟨j, hj⟩ := List.mem_iff_getElem?.1 hmem
          exact hh.ordered.root_le rfl hj
        · exact hbehind a hmem b hb
      have hout' : (x :: out).Pairwise fun a b ↦ le b a :=
        List.pairwise_cons.2 ⟨fun b hb ↦ hbehind x List.mem_cons_self b hb, hout⟩
      have hsame : (zs ++ x :: out).Perm (x :: xs ++ out) :=
        List.perm_middle.trans ((hperm.append_right out).cons x)
      rw [hturn]
      by_cases hshort : zs.length ≤ 1
      · have hsorts := sorts_short hshort hout' hbehind'
        refine ⟨h', zs ++ x :: out, sortTurns_of_le n (hh'.size_eq.trans_le hshort), ?_,
          hsame, hsorts.ordered⟩
        rw [hh'.queue_eq, List.map_append, List.append_assoc]
      · obtain ⟨h'', ws, hws, hqueue, hsorts⟩ := ih hh' (by rwa [hcmp']) (by omega) hout'
          hbehind' hshort
        exact ⟨h'', ws, hws, hqueue, hsorts.perm.trans hsame, hsorts.ordered⟩

theorem Holds.call [DecidableEq α] [IsTrans α le] (hh : Holds le h xs rest)
    (hcmp : Compares h.comparator le) {c : Call α} (hfits : Fits h c) :
    ∃ h' o, h.call c = some (h', o) ∧ (priorityQueue le).ok xs c o ∧
      ∃ zs rest', Holds le h' zs rest' ∧ Compares h'.comparator le ∧
        (zs : Multiset α) = (priorityQueue le).next xs c o := by
  have htotal := hcmp.total
  cases c with
  | add e =>
    obtain ⟨h', zs, rest', hadd, hh', hperm, hcmp'⟩ := hh.add hcmp e hfits
    refine ⟨h', .added, by rw [Heap.call, hadd]; rfl, trivial, zs, rest', hh', hcmp' ▸ hcmp, ?_⟩
    exact Multiset.coe_eq_coe.2 hperm
  | remove =>
    cases xs with
    | nil =>
      refine ⟨h, .removed (-1) none, by rw [Heap.call, hh.remove_nil]; rfl,
        Or.inl ⟨rfl, rfl, rfl⟩, [], rest, hh, hcmp, rfl⟩
    | cons x xs =>
      obtain ⟨h', zs, hremove, hh', hperm, hcmp'⟩ := hh.remove hcmp
      refine ⟨h', .removed 1 (some x), by rw [Heap.call, hremove]; rfl, Or.inr ?_, zs,
        none :: rest, hh', hcmp' ▸ hcmp, ?_⟩
      · refine ⟨x, Multiset.mem_coe.2 List.mem_cons_self, rfl, rfl, fun y hy ↦ ?_⟩
        obtain ⟨j, hj⟩ := List.mem_iff_getElem?.1 (Multiset.mem_coe.1 hy)
        exact hh.ordered.root_le rfl hj
      · show (zs : Multiset α) = Multiset.erase ((x :: xs : List α) : Multiset α) x
        rw [Multiset.coe_erase, List.erase_cons_head]
        exact Multiset.coe_eq_coe.2 hperm

end Operations

/-- Over every run in which there are cells for what is added, the heap is a priority queue, its
array is in the heap's order and holds what the queue holds, and `heap_sort` puts that into order
from the last to the first. -/
theorem priority_queue_sort [DecidableEq α] {le : α → α → Prop} [IsTrans α le]
    {comparator : α → α → ℤ} (hcmp : Compares comparator le) (capacity : ℕ) (mem : Bool)
    {es : List (Call α)}
    (hfits : Refine.Within call (priorityQueue le) Fits (heap_init comparator capacity mem) 0 es) :
    Refine.Refines call (priorityQueue le) (heap_init comparator capacity mem) 0 es ∧
      ∃ h s xs rest, Run.final (Refine.step call (priorityQueue le))
          (some (heap_init comparator capacity mem), 0) es = (some h, s) ∧
        Holds le h xs rest ∧ (xs : Multiset α) = s ∧
        ∃ h' out, h.heap_sort = some h' ∧ h'.queue = out.map some ++ rest ∧ Sorts le xs out := by
  let I : Heap α → Multiset α → Prop := fun h s ↦
    ∃ xs rest, Holds le h xs rest ∧ Compares h.comparator le ∧ (xs : Multiset α) = s
  have hsim (h : Heap α) (s : Multiset α) (c : Call α) (hI : I h s) (hc : Fits h c) :
      ∃ h' o, call h c = some (h', o) ∧ (priorityQueue le).ok s c o ∧
        I h' ((priorityQueue le).next s c o) := by
    obtain ⟨xs, rest, hh, hcmp, rfl⟩ := hI
    obtain ⟨h', o, hcall, hok, zs, rest', hh', hcmp', hnext⟩ := hh.call hcmp hc
    exact ⟨h', o, hcall, hok, zs, rest', hh', hcmp', hnext⟩
  have hinit : I (heap_init comparator capacity mem) 0 := ⟨[], _, holds_init _ _ _, hcmp, rfl⟩
  obtain ⟨⟨h, s, hfinal, xs, rest, hh, hcmp', hxs⟩, hrefines⟩ :=
    Refine.refines_of_simulation hsim hinit hfits
  refine ⟨hrefines, h, s, xs, rest, hfinal, hh, hxs, ?_⟩
  obtain ⟨h', out, hsort, hqueue, hsorts⟩ := @Holds.sortTurns _ le h xs rest _ h.size [] hh hcmp'
    (hh.size_eq.symm.le.trans (Nat.le_succ _)) List.Pairwise.nil (by simp)
  rw [List.append_nil] at hsorts
  exact ⟨h', out, hsort, hqueue, hsorts⟩

def greater_than (e1 e2 : ℤ) : ℤ := if e2 < e1 then 1 else 0

theorem compares_greater_than : Compares greater_than (· ≤ ·) := by
  have heq (a b : ℤ) : greater_than a b = if b < a then 1 else 0 := rfl
  constructor
  · intro a b h
    by_contra hn
    exact h (by rw [heq, if_neg (fun hlt ↦ hn (Int.le_of_lt hlt))])
  · intro a b h
    by_contra hn
    rw [heq, if_pos (Int.not_le.1 hn)] at h
    exact absurd h (by decide)

instance decidableAllowed (h : Heap α) (c : Call α) : Decidable (Allowed h c) := by
  unfold Allowed
  split <;> infer_instance

instance decidableFits (h : Heap α) (c : Call α) : Decidable (Fits h c) := by
  unfold Fits
  split <;> infer_instance

/-- For a capacity of 2^29 + 1 memory for one element is asked for. -/
theorem not_priority_queue_large :
    Refine.Within call (priorityQueue (· ≤ ·)) Allowed (heap_init greater_than (2 ^ 29 + 1) true) 0
        [.add 1, .add 2] ∧
      ¬ Refine.Refines call (priorityQueue (· ≤ ·)) (heap_init greater_than (2 ^ 29 + 1) true) 0
        [.add 1, .add 2] := by
  refine ⟨by decide, ?_⟩
  rintro ⟨-, ⟨h, hh, r, hr, -⟩, -⟩
  cases hh
  cases hr

theorem priority_queue_sort_numbers :
    Refine.Refines call (priorityQueue (· ≤ ·)) (heap_init greater_than 4 true) 0
        [.remove, .add 4, .add 3, .add 7, .remove, .add 2, .add 3] ∧
      ∃ h s xs rest, Run.final (Refine.step call (priorityQueue (· ≤ ·)))
          (some (heap_init greater_than 4 true), 0)
          [.remove, .add 4, .add 3, .add 7, .remove, .add 2, .add 3] = (some h, s) ∧
        Holds (· ≤ ·) h xs rest ∧ (xs : Multiset ℤ) = s ∧
        ∃ h' out, h.heap_sort = some h' ∧ h'.queue = out.map some ++ rest ∧ Sorts (· ≤ ·) xs out :=
  priority_queue_sort compares_greater_than 4 true (by decide)

example : (Run.final (Refine.step call (priorityQueue (· ≤ ·)))
    (some (heap_init greater_than 4 true), 0)
    [.add 4, .add 3, .add 7, .add 2]).1.bind (fun h ↦ h.heap_sort.map queue) =
      some [some 7, some 4, some 3, some 2] := by decide

end Heap

end Libobject
