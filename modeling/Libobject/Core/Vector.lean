import Libobject.Lib.Refine
import Mathlib.Data.BitVec
import Mathlib.Data.Int.Notation

/-!
# The vector

An array of pointers that doubles when it is full, with the index behind the last element and a
count of the elements. A null pointer is an empty slot. Indices are C integers that the code turns
into unsigned ones, and touching a slot that was not allocated is undefined.
-/

namespace Libobject

structure PtrVector (V : Type) where
  slots : List (Option V)
  capacity : ℕ
  count : ℕ
  end_pos : ℕ

namespace PtrVector

variable {V : Type}

/-- The slots in `n * step` bytes; the product is an unsigned integer. -/
def slotsIn (n : ℕ) : ℕ := n * 8 % 4294967296 / 8

/-- `vector_init` with the default capacity of the class. -/
def init (capacity : ℕ) : PtrVector V :=
  let capacity := if capacity = 0 then 20 else capacity
  ⟨List.replicate (slotsIn capacity) none, capacity, 0, 0⟩

/-- The slots are copied to an array of twice the capacity. -/
def grow (v : PtrVector V) : Option (PtrVector V) :=
  let room := slotsIn (2 * v.capacity)
  let kept := slotsIn v.capacity
  if kept ≤ room ∧ kept ≤ v.slots.length then
    some { v with
      slots := v.slots.take kept ++ List.replicate (room - kept) none
      capacity := 2 * v.capacity % 4294967296 }
  else none

def ensure (v : PtrVector V) (offset : ℕ) : Option (PtrVector V) :=
  if v.capacity ≤ offset then v.grow else some v

def add_at (v : PtrVector V) (index : BitVec 32) (data : Option V) : Option (PtrVector V) :=
  let offset := index.toNat
  match v.ensure offset with
  | none => none
  | some v =>
    match v.slots[offset]? with
    | none => none
    | some old =>
      let next := (offset + 1) % 4294967296
      some { v with
        slots := v.slots.set offset data
        count := if old.isNone then v.count + 1 else v.count
        end_pos := if v.end_pos < next then next else v.end_pos }

def add_back (v : PtrVector V) (data : Option V) : Option (PtrVector V) :=
  let offset := v.end_pos
  match v.ensure offset with
  | none => none
  | some v =>
    if offset < v.slots.length then
      some { v with
        slots := v.slots.set offset data
        count := v.count + 1
        end_pos := (offset + 1) % 4294967296 }
    else none

/-- The slot is read and cleared, and the count follows. -/
def clear (v : PtrVector V) (offset : ℕ) : Option (PtrVector V × Option V) :=
  (v.slots[offset]?).map fun e ↦
    ({ v with
        slots := v.slots.set offset none
        count := if e.isSome then v.count - 1 else v.count }, e)

def remove (v : PtrVector V) (index : BitVec 32) : Option (PtrVector V × ℤ × Option V) :=
  let offset := index.toNat
  if v.end_pos < offset then some (v, -1, none)
  else (v.clear offset).map fun r ↦ (r.1, 1, r.2)

/-- `offset < 0` is false of an unsigned integer, so there is no way to fail. -/
def remove_back (v : PtrVector V) : Option (PtrVector V × ℤ × Option V) :=
  let offset := (v.end_pos + 4294967295) % 4294967296
  (v.clear offset).map fun r ↦ ({ r.1 with end_pos := offset }, 1, r.2)

def peek_at (v : PtrVector V) (index : BitVec 32) : Option (ℤ × Option V) :=
  if index.toInt < 0 then none else (v.slots[index.toNat]?).map fun e ↦ (1, e)

/-- The loop of `__search` from index `i` on, with `n` turns to go. -/
def searchFrom (slots : List (Option V)) (cmp : V → ℤ) : ℕ → ℕ → Option (ℤ × Option (V × ℕ))
  | 0, _ => some (0, none)
  | n + 1, i =>
    match slots[i]? with
    | none => none
    | some none => searchFrom slots cmp n (i + 1)
    | some (some e) =>
      if cmp e < 0 then some (-1, none)
      else if cmp e = 1 then some (1, some (e, i))
      else searchFrom slots cmp n (i + 1)

def search (v : PtrVector V) (cmp : V → ℤ) : Option (ℤ × Option (V × ℕ)) :=
  searchFrom v.slots cmp v.end_pos 0

def reset (v : PtrVector V) : Option (PtrVector V) :=
  let size := slotsIn v.capacity
  if size ≤ v.slots.length then
    some { v with
      slots := List.replicate size none ++ v.slots.drop size
      count := 0
      end_pos := 0 }
  else none

inductive Call (V : Type)
  | add_at (index : BitVec 32) (data : Option V)
  | add_back (data : Option V)
  | remove (index : BitVec 32)
  | remove_back
  | peek_at (index : BitVec 32)
  | search (cmp : V → ℤ)
  | count
  | get_end_index
  | reset

inductive Answer (V : Type)
  | ret (r : ℤ)
  | element (r : ℤ) (e : Option V)
  | found (r : ℤ) (hit : Option (V × ℕ))
  deriving DecidableEq

def call (v : PtrVector V) : Call V → Option (PtrVector V × Answer V)
  | .add_at index data => (v.add_at index data).map fun v ↦ (v, .ret 1)
  | .add_back data => (v.add_back data).map fun v ↦ (v, .ret 1)
  | .remove index => (v.remove index).map fun r ↦ (r.1, .element r.2.1 r.2.2)
  | .remove_back => v.remove_back.map fun r ↦ (r.1, .element r.2.1 r.2.2)
  | .peek_at index => (v.peek_at index).map fun r ↦ (v, .element r.1 r.2)
  | .search cmp => (v.search cmp).map fun r ↦ (v, .found r.1 r.2)
  | .count => some (v, .ret v.count)
  | .get_end_index => some (v, .ret v.end_pos)
  | .reset => v.reset.map fun v ↦ (v, .ret 0)

/-- Where `add_at` puts an element: negative indices count from the end. -/
def place (n : ℕ) (index : BitVec 32) : Option ℕ :=
  if 0 ≤ index.toInt then some index.toNat
  else if 0 ≤ n + index.toInt then some (n + index.toInt).toNat
  else none

/-- What is at a position: an empty slot and a position out of range are failures. -/
def taken : Option (Option V) → ℤ × Option V
  | some (some e) => (1, some e)
  | _ => (-1, none)

/-- Whether the comparison says that the search ends at the slot. -/
def decides (cmp : V → ℤ) : Option V → Bool
  | none => false
  | some e => cmp e < 0 || cmp e = 1

/-- What the first slot that ends the search, if any, makes of it. -/
def hit (es : List (Option V)) (cmp : V → ℤ) : ℤ × Option (V × ℕ) :=
  match es.findIdx? (decides cmp) with
  | none => (0, none)
  | some i =>
    match es[i]? with
    | some (some e) => if cmp e < 0 then (-1, none) else (1, some (e, i))
    | _ => (0, none)

def putAt (es : List (Option V)) (i : ℕ) (data : Option V) : List (Option V) :=
  if i < es.length then es.set i data else es ++ List.replicate (i - es.length) none ++ [data]

/-- The vector as its callers may think of it: the slots below the end. -/
def sparse : Spec (List (Option V)) (Call V) (Answer V) where
  ok es
    | .add_at index _, .ret r => r = if (place es.length index).isSome then 1 else -1
    | .add_back _, .ret r => r = 1
    | .remove index, .element r e | .peek_at index, .element r e =>
      (r, e) = taken (es[index.toNat]?)
    | .remove_back, .element r e => (r, e) = (es.getLast?).elim (-1, none) fun e ↦ (1, e)
    | .search cmp, .found r h => (r, h) = hit es cmp
    | .count, .ret r => r = es.countP Option.isSome
    | .get_end_index, .ret r => r = es.length
    | .reset, .ret r => r = 0
    | _, _ => False
  next es
    | .add_at index data, _ => (place es.length index).elim es fun i ↦ putAt es i data
    | .add_back data, _ => es ++ [data]
    | .remove index, _ => es.set index.toNat none
    | .remove_back, _ => es.dropLast
    | .reset, _ => []
    | .peek_at _, _ | .search _, _ | .count, _ | .get_end_index, _ => es

/-- The array can be doubled: the bytes of the larger one fit an unsigned integer. -/
def Room (v : PtrVector V) : Prop := 2 * v.capacity * 8 < 4294967296

def occupied (v : PtrVector V) (i : ℕ) : Bool := (v.slots[i]?.getD none).isSome

def Regular (v : PtrVector V) : Call V → Prop
  | .add_at index data => data.isSome ∧
      (index.toNat < v.capacity ∨ index.toNat < 2 * v.capacity ∧ v.Room)
  | .add_back data => data.isSome ∧ (v.end_pos < v.capacity ∨ v.Room)
  | .remove index => v.end_pos < index.toNat ∨
      index.toNat < v.end_pos ∧ v.occupied index.toNat
  | .remove_back => 0 < v.end_pos
  | .peek_at index => index.toNat < v.end_pos ∧ v.occupied index.toNat
  | _ => True

/-- The slots below the end are `es`, the others are empty, and the bookkeeping fits. -/
structure Holds (v : PtrVector V) (es : List (Option V)) : Prop where
  slots_eq : v.slots = es ++ List.replicate (v.capacity - es.length) none
  end_eq : v.end_pos = es.length
  le_capacity : es.length ≤ v.capacity
  count_eq : v.count = es.countP Option.isSome
  capacity_pos : 0 < v.capacity
  fits : v.capacity * 8 < 4294967296

theorem slotsIn_eq {n : ℕ} (h : n * 8 < 4294967296) : slotsIn n = n := by
  rw [slotsIn]
  omega

theorem holds_init {capacity : ℕ} (h : capacity * 8 < 4294967296) :
    Holds (init capacity : PtrVector V) [] := by
  have hpos : 0 < (if capacity = 0 then 20 else capacity) := by split_ifs <;> omega
  have hfits : (if capacity = 0 then 20 else capacity) * 8 < 4294967296 := by
    split_ifs <;> omega
  refine ⟨?_, rfl, Nat.zero_le _, rfl, hpos, hfits⟩
  simp only [init, slotsIn_eq hfits, List.nil_append, List.length_nil, Nat.sub_zero]

namespace Holds

variable {v : PtrVector V} {es : List (Option V)}

theorem length_slots (hv : Holds v es) : v.slots.length = v.capacity := by
  have hle := hv.le_capacity
  rw [hv.slots_eq, List.length_append, List.length_replicate]
  omega

theorem toInt_end (hv : Holds v es) : (BitVec.ofNat 32 v.end_pos).toInt = es.length := by
  have hle := hv.le_capacity
  have hfits := hv.fits
  have hnat : (BitVec.ofNat 32 v.end_pos).toNat = es.length := by
    rw [hv.end_eq]
    exact Nat.mod_eq_of_lt (by omega)
  rw [BitVec.toInt_eq_toNat_of_lt (by omega), hnat]

theorem getElem_slots (hv : Holds v es) {i : ℕ} (hi : i < v.capacity) :
    v.slots[i]? = some (es[i]?.getD none) := by
  rw [hv.slots_eq]
  by_cases hlt : i < es.length
  · rw [List.getElem?_append_left hlt, List.getElem?_eq_getElem hlt, Option.getD_some]
  · rw [List.getElem?_append_right (by omega), List.getElem?_replicate, if_pos (by omega),
      List.getElem?_eq_none (by omega), Option.getD_none]

theorem grow (hv : Holds v es) (hroom : v.Room) :
    ∃ v', v.grow = some v' ∧ Holds v' es ∧ v'.capacity = 2 * v.capacity ∧
      v'.end_pos = v.end_pos := by
  have hle := hv.le_capacity
  have hpos := hv.capacity_pos
  rw [Room] at hroom
  have hlength := hv.length_slots
  have hroom' : slotsIn (2 * v.capacity) = 2 * v.capacity := slotsIn_eq hroom
  have hmod : 2 * v.capacity % 4294967296 = 2 * v.capacity := Nat.mod_eq_of_lt (by omega)
  have hgrow : v.grow = some { v with
      slots := v.slots.take v.capacity ++ List.replicate (2 * v.capacity - v.capacity) none
      capacity := 2 * v.capacity } := by
    rw [PtrVector.grow, hroom', slotsIn_eq hv.fits, if_pos (by omega), hmod]
  refine ⟨_, hgrow, ?_, rfl, rfl⟩
  refine ⟨?_, hv.end_eq, by show es.length ≤ 2 * v.capacity; omega, hv.count_eq,
    by show 0 < 2 * v.capacity; omega, hroom⟩
  change v.slots.take v.capacity ++ List.replicate (2 * v.capacity - v.capacity) none =
    es ++ List.replicate (2 * v.capacity - es.length) none
  rw [List.take_of_length_le (by omega), hv.slots_eq, List.append_assoc,
    List.replicate_append_replicate]
  congr 2
  omega

theorem ensure (hv : Holds v es) {offset : ℕ}
    (h : offset < v.capacity ∨ offset < 2 * v.capacity ∧ v.Room) :
    ∃ v', v.ensure offset = some v' ∧ Holds v' es ∧ offset < v'.capacity := by
  rw [PtrVector.ensure]
  split_ifs with hfull
  · obtain ⟨hlt, hroom⟩ := h.resolve_left (by omega)
    obtain ⟨v', hgrow, hv', hcapacity, -⟩ := hv.grow hroom
    exact ⟨v', hgrow, hv', by omega⟩
  · exact ⟨v, rfl, hv, by omega⟩

theorem set_slots (hv : Holds v es) {i : ℕ} (hi : i < v.capacity) (data : Option V) :
    v.slots.set i data =
      putAt es i data ++ List.replicate (v.capacity - (putAt es i data).length) none := by
  rw [hv.slots_eq, putAt]
  split_ifs with hlt
  · rw [List.set_append_left _ _ hlt, List.length_set]
  · have hle := hv.le_capacity
    rw [List.set_append_right _ _ (by omega), List.set_eq_take_append_cons_drop,
      List.length_replicate, if_pos (by omega), List.take_replicate, List.drop_replicate,
      Nat.min_eq_left (by omega)]
    simp only [List.append_assoc, List.singleton_append, List.length_append, List.length_cons,
      List.length_replicate]
    have hrest : v.capacity - es.length - (i - es.length + 1) =
        v.capacity - (es.length + (i - es.length + 1)) := by omega
    rw [List.length_nil, Nat.zero_add, hrest]

theorem length_putAt (es : List (Option V)) (i : ℕ) (data : Option V) :
    (putAt es i data).length = max es.length (i + 1) := by
  rw [putAt]
  split_ifs
  · rw [List.length_set]
    omega
  · simp only [List.length_append, List.length_replicate, List.length_singleton]
    omega

theorem count_putAt (es : List (Option V)) (i : ℕ) {data : Option V} (hdata : data.isSome) :
    (putAt es i data).countP Option.isSome =
      if (es[i]?.getD none).isNone then es.countP Option.isSome + 1
      else es.countP Option.isSome := by
  rw [putAt]
  split_ifs with hlt hnone hnone
  · rw [List.getElem?_eq_getElem hlt, Option.getD_some] at hnone
    rw [List.countP_set hlt, if_pos hdata, if_neg (by simpa using hnone)]
    omega
  · rw [List.getElem?_eq_getElem hlt, Option.getD_some] at hnone
    have hsome : es[i].isSome = true := Option.isSome_iff_ne_none.mpr (by simpa using hnone)
    have hpos : 0 < es.countP Option.isSome :=
      List.countP_pos_iff.mpr ⟨es[i], List.getElem_mem hlt, hsome⟩
    rw [List.countP_set hlt, if_pos hdata, if_pos hsome]
    omega
  · rw [List.countP_append, List.countP_append, List.countP_replicate]
    simp [hdata]
  · rw [List.getElem?_eq_none (by omega), Option.getD_none] at hnone
    simp at hnone

theorem add_at (hv : Holds v es) {index : BitVec 32} {data : Option V} (hdata : data.isSome)
    (h : index.toNat < v.capacity ∨ index.toNat < 2 * v.capacity ∧ v.Room) :
    ∃ v', v.add_at index data = some v' ∧ Holds v' (putAt es index.toNat data) := by
  obtain ⟨v', hensure, hv', hlt⟩ := hv.ensure h
  have hfits := hv'.fits
  have hmod : (index.toNat + 1) % 4294967296 = index.toNat + 1 := Nat.mod_eq_of_lt (by omega)
  have hlen := length_putAt es index.toNat data
  have hadd : v.add_at index data = some { v' with
      slots := v'.slots.set index.toNat data
      count := if (es[index.toNat]?.getD none).isNone then v'.count + 1 else v'.count
      end_pos := if v'.end_pos < index.toNat + 1 then index.toNat + 1 else v'.end_pos } := by
    rw [PtrVector.add_at, hensure]
    simp only [hv'.getElem_slots hlt, hmod]
  refine ⟨_, hadd, ?_⟩
  refine ⟨hv'.set_slots hlt data, ?_, ?_, ?_, hv'.capacity_pos, hv'.fits⟩
  · have hend := hv'.end_eq
    rw [hlen]
    change (if v'.end_pos < index.toNat + 1 then index.toNat + 1 else v'.end_pos) = _
    split_ifs <;> omega
  · have hle := hv'.le_capacity
    rw [hlen]
    change max es.length (index.toNat + 1) ≤ v'.capacity
    omega
  · rw [count_putAt es index.toNat hdata, ← hv'.count_eq]

theorem add_back (hv : Holds v es) {data : Option V} (hdata : data.isSome)
    (h : v.end_pos < v.capacity ∨ v.Room) :
    ∃ v', v.add_back data = some v' ∧ Holds v' (es ++ [data]) := by
  have hle := hv.le_capacity
  have hpos := hv.capacity_pos
  have hend := hv.end_eq
  have hroom : v.end_pos < v.capacity ∨ v.end_pos < 2 * v.capacity ∧ v.Room := by
    rcases h with h | h
    · exact .inl h
    · exact .inr ⟨by omega, h⟩
  obtain ⟨v', hensure, hv', hlt⟩ := hv.ensure hroom
  have hfits := hv'.fits
  have hput : putAt es v.end_pos data = es ++ [data] := by
    rw [putAt, if_neg (by omega), hend, Nat.sub_self]
    simp
  have hmod : (v.end_pos + 1) % 4294967296 = v.end_pos + 1 := Nat.mod_eq_of_lt (by omega)
  have hadd : v.add_back data = some { v' with
      slots := v'.slots.set v.end_pos data
      count := v'.count + 1
      end_pos := v.end_pos + 1 } := by
    rw [PtrVector.add_back, hensure]
    simp only [hv'.length_slots, if_pos hlt, hmod]
  refine ⟨_, hadd, ?_⟩
  have hset := hv'.set_slots hlt data
  rw [hput] at hset
  refine ⟨hset, ?_, ?_, ?_, hv'.capacity_pos, hv'.fits⟩
  · rw [List.length_append, ← hend]
    rfl
  · rw [List.length_append, ← hend]
    exact hlt
  · rw [List.countP_append, ← hv'.count_eq]
    simp [hdata]

theorem getElem_of_lt (hv : Holds v es) {i : ℕ} (hi : i < es.length) : v.slots[i]? = es[i]? := by
  rw [hv.slots_eq, List.getElem?_append_left hi]

theorem clear (hv : Holds v es) {i : ℕ} {e : Option V} (he : es[i]? = some e) :
    ∃ v', v.clear i = some (v', e) ∧ Holds v' (es.set i none) ∧ v'.end_pos = v.end_pos := by
  obtain ⟨hi, hget⟩ := List.getElem?_eq_some_iff.mp he
  have hset := hv.set_slots (Nat.lt_of_lt_of_le hi hv.le_capacity) none
  rw [putAt, if_pos hi] at hset
  have hclear : v.clear i = some ({ v with
      slots := v.slots.set i none
      count := if e.isSome then v.count - 1 else v.count }, e) := by
    rw [PtrVector.clear, hv.getElem_of_lt hi, he, Option.map_some]
  refine ⟨_, hclear, ?_, rfl⟩
  refine ⟨hset, ?_, ?_, ?_, hv.capacity_pos, hv.fits⟩
  · rw [List.length_set]
    exact hv.end_eq
  · rw [List.length_set]
    exact hv.le_capacity
  · rw [List.countP_set hi, hget, ← hv.count_eq]
    cases e <;> simp

theorem remove_back (hv : Holds v es) {e : Option V} (he : es.getLast? = some e) :
    ∃ v', v.remove_back = some (v', 1, e) ∧ Holds v' es.dropLast := by
  obtain ⟨rest, rfl⟩ := List.getLast?_eq_some_iff.mp he
  have hle := hv.le_capacity
  have hend := hv.end_eq
  have hfits := hv.fits
  rw [List.length_append, List.length_singleton] at hle hend
  have hoffset : (v.end_pos + 4294967295) % 4294967296 = rest.length := by omega
  have hlast : (rest ++ [e])[rest.length]? = some e := by
    rw [List.getElem?_append_right (le_refl _), Nat.sub_self, List.getElem?_cons_zero]
  obtain ⟨v', hclear, hv', -⟩ := hv.clear hlast
  have hset : (rest ++ [e]).set rest.length none = rest ++ [none] := by
    rw [List.set_append_right _ _ (le_refl _), Nat.sub_self]
    rfl
  rw [hset] at hv'
  have hle' := hv'.le_capacity
  have hcount := hv'.count_eq
  rw [List.length_append, List.length_singleton] at hle'
  refine ⟨{ v' with end_pos := rest.length }, ?_, ?_⟩
  · rw [PtrVector.remove_back, hoffset, hclear, Option.map_some]
  · rw [List.dropLast_concat]
    refine ⟨?_, rfl, by show rest.length ≤ v'.capacity; omega, ?_, hv'.capacity_pos, hv'.fits⟩
    · have hslots := hv'.slots_eq
      rw [List.append_assoc, List.length_append, List.length_singleton, List.singleton_append,
        ← List.replicate_succ] at hslots
      have hnum : v'.capacity - (rest.length + 1) + 1 = v'.capacity - rest.length := by omega
      rw [hnum] at hslots
      exact hslots
    · rw [List.countP_append] at hcount
      simpa using hcount

theorem searchFrom_eq {slots : List (Option V)} (cmp : V → ℤ) (xs : List (Option V))
    {ys zs : List (Option V)} (h : slots = xs ++ ys ++ zs) :
    searchFrom slots cmp ys.length xs.length =
      some (match ys.findIdx? (decides cmp) with
        | none => (0, none)
        | some i =>
          match ys[i]? with
          | some (some e) => if cmp e < 0 then (-1, none) else (1, some (e, xs.length + i))
          | _ => (0, none)) := by
  induction ys generalizing xs with
  | nil => rfl
  | cons y ys ih =>
    have hget : slots[xs.length]? = some y := by
      rw [h, List.append_assoc, List.getElem?_append_right (le_refl _), Nat.sub_self]
      rfl
    have hrest := ih (xs ++ [y]) (by simp [h])
    rw [List.length_append, List.length_singleton] at hrest
    have hskip : decides cmp y = false →
        (match (y :: ys).findIdx? (decides cmp) with
          | none => ((0, none) : ℤ × Option (V × ℕ))
          | some i =>
            match (y :: ys)[i]? with
            | some (some e) => if cmp e < 0 then (-1, none) else (1, some (e, xs.length + i))
            | _ => (0, none)) =
        (match ys.findIdx? (decides cmp) with
          | none => (0, none)
          | some i =>
            match ys[i]? with
            | some (some e) =>
              if cmp e < 0 then (-1, none) else (1, some (e, xs.length + 1 + i))
            | _ => (0, none)) := by
      intro hno
      rw [List.findIdx?_cons, hno]
      cases ys.findIdx? (decides cmp) with
      | none => rfl
      | some i =>
        have hadd : xs.length + (i + 1) = xs.length + 1 + i := by omega
        simp [hadd]
    cases y with
    | none =>
      rw [List.length_cons, searchFrom, hget]
      rw [hskip rfl]
      exact hrest
    | some e =>
      rw [List.length_cons, searchFrom, hget]
      by_cases hneg : cmp e < 0
      · have hyes : decides cmp (some e) = true := by simp [decides, hneg]
        simp [List.findIdx?_cons, hyes, hneg]
      · by_cases hone : cmp e = 1
        · have hyes : decides cmp (some e) = true := by simp [decides, hone]
          simp [List.findIdx?_cons, hyes, hone]
        · have hno : decides cmp (some e) = false := by simp [decides, hneg, hone]
          rw [hskip hno]
          simp only [if_neg hneg, if_neg hone]
          exact hrest

theorem search (hv : Holds v es) (cmp : V → ℤ) : v.search cmp = some (hit es cmp) := by
  rw [PtrVector.search, hv.end_eq, hit]
  have hslots : v.slots = [] ++ es ++ List.replicate (v.capacity - es.length) none := hv.slots_eq
  have hloop := searchFrom_eq cmp [] hslots
  rw [List.length_nil] at hloop
  simpa only [Nat.zero_add] using hloop

theorem reset (hv : Holds v es) : ∃ v', v.reset = some v' ∧ Holds v' [] := by
  have hlen := hv.length_slots
  have hreset : v.reset = some { v with
      slots := List.replicate v.capacity none, count := 0, end_pos := 0 } := by
    rw [PtrVector.reset, slotsIn_eq hv.fits, if_pos (by omega), List.drop_eq_nil_of_le (by omega),
      List.append_nil]
  exact ⟨_, hreset, rfl, rfl, Nat.zero_le _, rfl, hv.capacity_pos, hv.fits⟩

end Holds

section Refinement

variable {v : PtrVector V} {es : List (Option V)}

theorem place_of_lt {n : ℕ} {index : BitVec 32} (h : index.toNat < 2147483648) :
    place n index = some index.toNat := by
  have hint : index.toInt = index.toNat := BitVec.toInt_eq_toNat_of_lt (by omega)
  rw [place, if_pos (by omega)]

theorem Holds.taken_eq (hv : Holds v es) {i : ℕ} (hi : i < v.end_pos) (h : v.occupied i) :
    ∃ e, v.slots[i]? = some (some e) ∧ es[i]? = some (some e) ∧ taken es[i]? = (1, some e) := by
  have hlt : i < es.length := hv.end_eq ▸ hi
  rw [occupied, hv.getElem_of_lt hlt, List.getElem?_eq_getElem hlt, Option.getD_some,
    Option.isSome_iff_exists] at h
  obtain ⟨e, he⟩ := h
  rw [hv.getElem_of_lt hlt, List.getElem?_eq_getElem hlt, he]
  exact ⟨e, rfl, rfl, rfl⟩

theorem Holds.call (hv : Holds v es) (c : Call V) (hreg : Regular v c) :
    ∃ v' o, v.call c = some (v', o) ∧ sparse.ok es c o ∧ Holds v' (sparse.next es c o) := by
  have hfits := hv.fits
  cases c with
  | add_at index data =>
    obtain ⟨hdata, hroom⟩ := hreg
    obtain ⟨v', hadd, hv'⟩ := hv.add_at hdata hroom
    have hlt : index.toNat < 2147483648 := by
      rcases hroom with h | ⟨h, hroom⟩
      · omega
      · rw [Room] at hroom
        omega
    refine ⟨v', .ret 1, ?_, ?_, ?_⟩
    · rw [PtrVector.call, hadd, Option.map_some]
    · simp [sparse, place_of_lt hlt]
    · simpa [sparse, place_of_lt hlt] using hv'
  | add_back data =>
    obtain ⟨v', hadd, hv'⟩ := hv.add_back hreg.1 hreg.2
    refine ⟨v', .ret 1, ?_, rfl, hv'⟩
    rw [PtrVector.call, hadd, Option.map_some]
  | remove index =>
    rcases hreg with hout | ⟨hlt, hslot⟩
    · have hnone : es[index.toNat]? = none := List.getElem?_eq_none (by have := hv.end_eq; omega)
      refine ⟨v, .element (-1) none, ?_, ?_, ?_⟩
      · simp only [PtrVector.call, PtrVector.remove, if_pos hout, Option.map_some]
      · change (-1, none) = taken es[index.toNat]?
        rw [hnone]
        rfl
      · change Holds v (es.set index.toNat none)
        rw [List.set_eq_of_length_le (by have := hv.end_eq; omega)]
        exact hv
    · obtain ⟨e, -, hes, htaken⟩ := hv.taken_eq hlt hslot
      obtain ⟨v', hclear, hv', -⟩ := hv.clear hes
      refine ⟨v', .element 1 (some e), ?_, htaken.symm, hv'⟩
      have hin : ¬v.end_pos < index.toNat := by omega
      simp only [PtrVector.call, PtrVector.remove, if_neg hin, hclear, Option.map_some]
  | remove_back =>
    have hpos : 0 < v.end_pos := hreg
    have hne : es ≠ [] := by
      rintro rfl
      rw [hv.end_eq] at hpos
      exact Nat.lt_irrefl 0 hpos
    have hlast := List.getLast?_eq_some_getLast hne
    obtain ⟨v', hremove, hv'⟩ := hv.remove_back hlast
    refine ⟨v', .element 1 (es.getLast hne), ?_, ?_, hv'⟩
    · rw [PtrVector.call, hremove, Option.map_some]
    · change (1, es.getLast hne) = (es.getLast?).elim (-1, none) fun e ↦ (1, e)
      rw [hlast]
      rfl
  | peek_at index =>
    obtain ⟨hlt, hslot⟩ := hreg
    obtain ⟨e, he, -, htaken⟩ := hv.taken_eq hlt hslot
    have hint : index.toInt = index.toNat := by
      apply BitVec.toInt_eq_toNat_of_lt
      have hle := hv.le_capacity
      have hend := hv.end_eq
      omega
    refine ⟨v, .element 1 (some e), ?_, htaken.symm, hv⟩
    simp only [PtrVector.call, PtrVector.peek_at, if_neg (show ¬index.toInt < 0 by omega), he,
      Option.map_some]
  | search cmp =>
    refine ⟨v, .found (hit es cmp).1 (hit es cmp).2, ?_, rfl, hv⟩
    rw [PtrVector.call, hv.search, Option.map_some]
  | count => exact ⟨v, _, rfl, congrArg (fun n : ℕ ↦ (n : ℤ)) hv.count_eq, hv⟩
  | get_end_index => exact ⟨v, _, rfl, congrArg (fun n : ℕ ↦ (n : ℤ)) hv.end_eq, hv⟩
  | reset =>
    obtain ⟨v', hreset, hv'⟩ := hv.reset
    refine ⟨v', .ret 0, ?_, rfl, hv'⟩
    rw [PtrVector.call, hreset, Option.map_some]

/-- The elements stay where they were put, every access is to an allocated slot, and the end and
the count are what they should be. -/
theorem refines_sparse {capacity : ℕ} (hcapacity : capacity * 8 < 4294967296)
    {cs : List (Call V)}
    (hrun : Refine.Within PtrVector.call sparse Regular (init capacity) [] cs) :
    (∃ v es, Run.final (Refine.step PtrVector.call sparse) (some (init capacity), []) cs =
        (some v, es) ∧ Holds v es) ∧
      Refine.Refines PtrVector.call sparse (init capacity : PtrVector V) [] cs :=
  Refine.refines_of_simulation (I := Holds) (fun _ _ c hv hreg ↦ hv.call c hreg)
    (holds_init hcapacity) hrun

end Refinement

instance decidableRegular (v : PtrVector V) (c : Call V) : Decidable (Regular v c) := by
  unfold Regular Room
  split <;> infer_instance

instance decidableOk [DecidableEq V] (es : List (Option V)) (c : Call V) (o : Answer V) :
    Decidable (sparse.ok es c o) := by
  unfold sparse
  dsimp only
  split <;> infer_instance

theorem refines_sparse_growth :
    (∃ v es, Run.final (Refine.step PtrVector.call sparse) (some (init 2), [])
        [.add_back (some 1), .add_at 3 (some 4), .add_at 3 (some 5), .count, .remove 0,
          .search (fun e ↦ if e = 5 then 1 else 0), .remove_back, .remove 7, .get_end_index] =
        (some v, es) ∧ Holds v es) ∧
      Refine.Refines PtrVector.call sparse (init 2 : PtrVector ℕ) []
        [.add_back (some 1), .add_at 3 (some 4), .add_at 3 (some 5), .count, .remove 0,
          .search (fun e ↦ if e = 5 then 1 else 0), .remove_back, .remove 7, .get_end_index] :=
  refines_sparse (by decide) (by decide)

/-- On a new vector `remove_back` reads the slot in front of the array. -/
theorem not_refines_sparse_remove_back :
    ¬ ∀ cs : List (Call ℕ),
      Refine.Refines PtrVector.call sparse (init 0 : PtrVector ℕ) [] cs := by
  intro h
  have hrun := h [.remove_back]
  revert hrun
  decide

end PtrVector

end Libobject
