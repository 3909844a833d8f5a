import Libobject.Core.VectorReset

/-!
# Moving elements from one vector to another

`filter` moves what satisfies a condition, `add_vector` everything. An element is moved by emptying
its slot, so that no index changes and the end stays where it is. Only where the elements are
objects or strings is an empty slot passed over: elsewhere it may be the number zero.
-/

namespace Libobject

/-- The elements are addresses, so that a null slot is none of them. -/
def ValueType.isPointer : ValueType → Bool
  | .alloc_pointer | .struct_pointer | .stub_pointer | .obj_pointer | .string_pointer
  | .cstring_pointer => true
  | _ => false

/-- The types whose empty slots are passed over. -/
def ValueType.isObject : ValueType → Bool
  | .obj_pointer | .string_pointer => true
  | _ => false

namespace VectorObject

variable {V C : Type}

/-- The source, the destination and what is returned. -/
structure Moved (V : Type) where
  src : VectorObject V
  dst : VectorObject V
  ret : ℤ

/-- The loop of `__filter` from slot `i` on, with `n` turns to go. -/
def filterTurns (condition : Option V → ℤ) :
    ℕ → ℕ → VectorObject V → VectorObject V → Option (Moved V)
  | 0, _, o, out => some ⟨o, out, 1⟩
  | n + 1, i, o, out => do
    let (_, element) ← o.vector.peek_at (BitVec.ofNat 32 i)
    if o.value_type.isObject && element.isNone then filterTurns condition n (i + 1) o out
    else if condition element < 0 then return ⟨o, out, -1⟩
    else if condition element = 0 then filterTurns condition n (i + 1) o out
    else do
      let (v, _, element) ← o.vector.remove (BitVec.ofNat 32 i)
      let w ← out.vector.add_back element
      filterTurns condition n (i + 1) { o with vector := v } { out with vector := w }

/-- Without something to compare with nothing is filtered. -/
def filter (condition : Option V → C → ℤ) (cond : Option C) (o out : VectorObject V) :
    Option (Moved V) :=
  match cond with
  | none => some ⟨o, out, -1⟩
  | some cond => filterTurns (fun e ↦ condition e cond) o.vector.end_pos 0 o out

/-- The loop of `__add_vector` from slot `i` on, with `n` turns to go. -/
def addTurns : ℕ → ℕ → VectorObject V → VectorObject V → Option (Moved V)
  | 0, _, src, o => some ⟨src, o, 1⟩
  | n + 1, i, src, o => do
    let (_, element) ← src.vector.peek_at (BitVec.ofNat 32 i)
    if src.value_type.isObject && element.isNone then addTurns n (i + 1) src o
    else do
      let (v, _, element) ← src.vector.remove (BitVec.ofNat 32 i)
      let w ← o.vector.add_back element
      addTurns n (i + 1) { src with vector := v } { o with vector := w }

def add_vector (o src : VectorObject V) : Option (Moved V) :=
  addTurns src.vector.end_pos 0 src o

/-- A condition that answers, with no for zero and yes for more, and reports no error. -/
structure Predicate (V C : Type) where
  condition : Option V → C → ℤ
  nonneg : ∀ e c, 0 ≤ condition e c

def Predicate.holds (p : Predicate V C) (cond : C) (e : Option V) : Bool := 0 < p.condition e cond

/-- The slots below the end. -/
def slots (o : VectorObject V) : List (Option V) := o.vector.slots.take o.vector.end_pos

/-- What is in the slots: where the elements are no addresses, a null slot is a zero. -/
def elements (ty : ValueType) (es : List (Option V)) : List (Option V) :=
  if ty.isPointer then es.filter Option.isSome else es

/-- The destination has gained the elements that satisfy the condition, and the source has kept the
others, all of them in order. -/
def Filters (p : Predicate V C) (cond : C) (o out : VectorObject V) : Prop :=
  ∃ r, o.filter p.condition (some cond) out = some r ∧
    elements o.value_type r.dst.slots = elements o.value_type out.slots ++
      (elements o.value_type o.slots).filter (p.holds cond) ∧
    elements o.value_type r.src.slots =
      (elements o.value_type o.slots).filter fun e ↦ !p.holds cond e

/-- The destination is followed by the elements of the source, which has none left. -/
def Adds (o src : VectorObject V) : Prop :=
  ∃ r, o.add_vector src = some r ∧
    elements src.value_type r.dst.slots =
      elements src.value_type o.slots ++ elements src.value_type src.slots ∧
    elements src.value_type r.src.slots = []

/-- The array of the destination can be doubled as often as `n` more slots need. -/
def RoomFor : ℕ → ℕ → ℕ → Prop
  | _, _, 0 => True
  | capacity, len, n + 1 =>
    if len < capacity then RoomFor capacity (len + 1) n
    else 2 * capacity * 8 < 4294967296 ∧ RoomFor (2 * capacity) (len + 1) n

/-- The slot is not passed over. -/
def taken (ty : ValueType) (e : Option V) : Bool := !(ty.isObject && e.isNone)

/-- The loop that both are: the slots for which `moves` says so are moved. -/
def moveTurns (moves : Option V → Bool) :
    ℕ → ℕ → VectorObject V → VectorObject V → Option (Moved V)
  | 0, _, src, dst => some ⟨src, dst, 1⟩
  | n + 1, i, src, dst => do
    let (_, element) ← src.vector.peek_at (BitVec.ofNat 32 i)
    if moves element then do
      let (v, _, element) ← src.vector.remove (BitVec.ofNat 32 i)
      let w ← dst.vector.add_back element
      moveTurns moves n (i + 1) { src with vector := v } { dst with vector := w }
    else moveTurns moves n (i + 1) src dst

end VectorObject

/-- The bookkeeping of a vector that need not count its elements. -/
structure PtrVector.Sound {V : Type} (v : PtrVector V) : Prop where
  length_eq : v.slots.length = v.capacity
  end_le : v.end_pos ≤ v.capacity
  capacity_pos : 0 < v.capacity
  fits : v.capacity * 8 < 4294967296

namespace PtrVector

variable {V : Type} {v : PtrVector V} {es : List (Option V)}

theorem Holds.sound (hv : Holds v es) : Sound v :=
  ⟨hv.length_slots, hv.end_eq.trans_le hv.le_capacity, hv.capacity_pos, hv.fits⟩

namespace Sound

theorem grow (hv : Sound v) (hroom : v.Room) :
    ∃ v', v.grow = some v' ∧ Sound v' ∧ v'.slots.take v.end_pos = v.slots.take v.end_pos ∧
      v'.capacity = 2 * v.capacity ∧ v'.end_pos = v.end_pos := by
  have hend := hv.end_le
  have hpos := hv.capacity_pos
  have hlength := hv.length_eq
  rw [Room] at hroom
  have hmod : 2 * v.capacity % 4294967296 = 2 * v.capacity := Nat.mod_eq_of_lt (by omega)
  have hgrow : v.grow = some { v with
      slots := v.slots.take v.capacity ++ List.replicate (2 * v.capacity - v.capacity) none
      capacity := 2 * v.capacity } := by
    rw [PtrVector.grow, slotsIn_eq hroom, slotsIn_eq hv.fits, if_pos (by omega), hmod]
  have hall : v.slots.take v.capacity = v.slots := List.take_of_length_le hlength.le
  rw [hall] at hgrow
  refine ⟨_, hgrow, ⟨?_, ?_, ?_, hroom⟩, ?_, rfl, rfl⟩
  · rw [List.length_append, List.length_replicate]
    dsimp only
    omega
  · show v.end_pos ≤ 2 * v.capacity
    omega
  · show 0 < 2 * v.capacity
    omega
  · exact List.take_append_of_le_length (by omega)

theorem not_grow (hv : Sound v) (hroom : ¬v.Room) : v.grow = none := by
  have hfits := hv.fits
  have hpos := hv.capacity_pos
  rw [Room] at hroom
  have hsmall : slotsIn (2 * v.capacity) < v.capacity := by
    rw [slotsIn]
    omega
  rw [PtrVector.grow, slotsIn_eq hfits, if_neg (by omega)]

theorem add_back (hv : Sound v) (data : Option V) (h : v.end_pos < v.capacity ∨ v.Room) :
    ∃ v', v.add_back data = some v' ∧ Sound v' ∧
      v'.slots.take v'.end_pos = v.slots.take v.end_pos ++ [data] ∧
      v'.end_pos = v.end_pos + 1 ∧
      v'.capacity = if v.end_pos < v.capacity then v.capacity else 2 * v.capacity := by
  obtain ⟨u, hensure, hu, htake, hend, hlt, hcapacity⟩ :
      ∃ u, v.ensure v.end_pos = some u ∧ Sound u ∧
        u.slots.take v.end_pos = v.slots.take v.end_pos ∧ u.end_pos = v.end_pos ∧
        v.end_pos < u.capacity ∧
        u.capacity = if v.end_pos < v.capacity then v.capacity else 2 * v.capacity := by
    by_cases hin : v.end_pos < v.capacity
    · exact ⟨v, if_neg (by omega), hv, rfl, rfl, hin, (if_pos hin).symm⟩
    · obtain ⟨u, hgrow, hu, htake, hcapacity, hend⟩ := hv.grow (h.resolve_left hin)
      have hle := hv.end_le
      have hpos := hv.capacity_pos
      refine ⟨u, ?_, hu, htake, hend, by omega, by rw [if_neg hin, hcapacity]⟩
      rw [PtrVector.ensure, if_pos (by omega), hgrow]
  have hfits := hu.fits
  have hlength := hu.length_eq
  have hmod : (v.end_pos + 1) % 4294967296 = v.end_pos + 1 := Nat.mod_eq_of_lt (by omega)
  have hadd : v.add_back data = some { u with
      slots := u.slots.set v.end_pos data
      count := u.count + 1
      end_pos := v.end_pos + 1 } := by
    rw [PtrVector.add_back, hensure]
    simp only [hlength, if_pos hlt, hmod]
  refine ⟨_, hadd, ⟨?_, hlt, hu.capacity_pos, hu.fits⟩, ?_, rfl, hcapacity⟩
  · rw [List.length_set]
    exact hlength
  · rw [← htake]
    dsimp only
    rw [List.take_add_one, List.getElem?_set_self (by omega), List.take_set_of_le le_rfl]
    rfl

theorem not_add_back (hv : Sound v) (data : Option V) (h : ¬(v.end_pos < v.capacity ∨ v.Room)) :
    v.add_back data = none := by
  rw [not_or] at h
  have hgrow := hv.not_grow h.2
  have hensure : v.ensure v.end_pos = none := by
    rw [PtrVector.ensure, if_pos (by omega), hgrow]
  rw [PtrVector.add_back, hensure]

theorem remove (hv : Sound v) {i : ℕ} {e : Option V}
    (he : (v.slots.take v.end_pos)[i]? = some e) :
    v.peek_at (BitVec.ofNat 32 i) = some (1, e) ∧
      ∃ v', v.remove (BitVec.ofNat 32 i) = some (v', 1, e) ∧ Sound v' ∧
        v'.end_pos = v.end_pos ∧
        v'.slots.take v'.end_pos = (v.slots.take v.end_pos).set i none := by
  have hend := hv.end_le
  have hfits := hv.fits
  have hlength := hv.length_eq
  obtain ⟨hi, -⟩ := List.getElem?_eq_some_iff.1 he
  rw [List.length_take] at hi
  have hslot : v.slots[i]? = some e := by
    rwa [List.getElem?_take_of_lt (by omega)] at he
  have hnat : (BitVec.ofNat 32 i).toNat = i := Nat.mod_eq_of_lt (by omega)
  have hint : (BitVec.ofNat 32 i).toInt = i := by
    rw [BitVec.toInt_eq_toNat_of_lt (by omega), hnat]
  constructor
  · rw [PtrVector.peek_at, hint, if_neg (by omega), hnat, hslot]
    rfl
  · refine ⟨{ v with
        slots := v.slots.set i none
        count := if e.isSome then v.count - 1 else v.count }, ?_,
        ⟨?_, hend, hv.capacity_pos, hfits⟩,
      rfl, ?_⟩
    · rw [PtrVector.remove, hnat]
      rw [if_neg (by omega), PtrVector.clear, hslot]
      rfl
    · rw [List.length_set]
      exact hlength
    · exact List.take_set

end Sound

end PtrVector

namespace VectorObject

variable {V C : Type}

section Loop

variable {moves : Option V → Bool} {src dst : VectorObject V}

theorem roomFor_succ {v : PtrVector V} {n : ℕ} :
    RoomFor v.capacity v.end_pos (n + 1) ↔
      (v.end_pos < v.capacity ∨ v.Room) ∧
        RoomFor (if v.end_pos < v.capacity then v.capacity else 2 * v.capacity)
          (v.end_pos + 1) n := by
  rw [RoomFor, PtrVector.Room]
  by_cases hlt : v.end_pos < v.capacity
  · rw [if_pos hlt, if_pos hlt]
    exact ⟨fun h ↦ ⟨.inl hlt, h⟩, fun h ↦ h.2⟩
  · rw [if_neg hlt, if_neg hlt]
    exact ⟨fun h ↦ ⟨.inr h.1, h.2⟩, fun h ↦ ⟨h.1.resolve_left hlt, h.2⟩⟩

/-- The slots that are moved are emptied, and stand behind the others in the destination; where the
array cannot be made large enough, what happens is undefined. -/
theorem moveTurns_eq {xs ys : List (Option V)} (hsrc : src.vector.Sound)
    (hslots : src.slots = xs ++ ys)
    (hdst : dst.vector.Sound) :
    (RoomFor dst.vector.capacity dst.vector.end_pos (ys.filter moves).length →
        ∃ r, moveTurns moves ys.length xs.length src dst = some r ∧
          r.src.slots = xs ++ ys.map (fun e ↦ if moves e then none else e) ∧
          r.dst.slots = dst.slots ++ ys.filter moves ∧ r.ret = 1) ∧
      (¬RoomFor dst.vector.capacity dst.vector.end_pos (ys.filter moves).length →
        moveTurns moves ys.length xs.length src dst = none) := by
  induction ys generalizing xs src dst with
  | nil =>
    refine ⟨fun _ ↦ ⟨_, rfl, hslots, ?_, rfl⟩, fun h ↦ absurd trivial h⟩
    exact (List.append_nil _).symm
  | cons y ys ih =>
    have hget : (src.vector.slots.take src.vector.end_pos)[xs.length]? = some y := by
      have hy : src.slots[xs.length]? = some y := by
        rw [hslots, List.getElem?_append_right le_rfl, Nat.sub_self]
        rfl
      exact hy
    obtain ⟨hpeek, v, hremove, hv, -, hset⟩ := hsrc.remove hget
    rw [List.length_cons, moveTurns, hpeek]
    simp only [Option.bind_eq_bind, Option.bind_some]
    by_cases hmoves : moves y = true
    · have hset' : ({ src with vector := v } : VectorObject V).slots = xs ++ [none] ++ ys := by
        change v.slots.take v.end_pos = _
        change src.vector.slots.take src.vector.end_pos = _ at hslots
        rw [hset, hslots, List.set_append_right _ _ le_rfl, Nat.sub_self, List.set_cons_zero,
          List.append_assoc, List.singleton_append]
      have hlen : (xs ++ [(none : Option V)]).length = xs.length + 1 := List.length_append
      rw [if_pos hmoves, hremove, List.filter_cons_of_pos hmoves, List.length_cons, roomFor_succ]
      simp only [Option.bind_some]
      by_cases hroom : dst.vector.end_pos < dst.vector.capacity ∨ dst.vector.Room
      · obtain ⟨w, hadd, hw, hshow, hend, hcapacity⟩ := hdst.add_back y hroom
        obtain ⟨hfits, hwild⟩ := @ih { src with vector := v } { dst with vector := w } _ hv hset' hw
        rw [hlen] at hfits hwild
        simp only [hend, hcapacity] at hfits hwild
        rw [hadd]
        simp only [Option.bind_some]
        constructor
        · intro h
          obtain ⟨r, hr, hsrc', hdst', hret⟩ := hfits h.2
          refine ⟨r, hr, ?_, ?_, hret⟩
          · rw [hsrc', List.map_cons, if_pos hmoves, List.append_assoc, List.singleton_append]
          · have hgained : ({ dst with vector := w } : VectorObject V).slots = dst.slots ++ [y] :=
              hshow
            rw [hdst', hgained, List.append_assoc, List.singleton_append]
        · intro h
          exact hwild fun hrest ↦ h ⟨hroom, hrest⟩
      · rw [hdst.not_add_back y hroom]
        exact ⟨fun h ↦ absurd h.1 hroom, fun _ ↦ rfl⟩
    · have hslots' : src.slots = xs ++ [y] ++ ys := by
        rw [hslots, List.append_assoc, List.singleton_append]
      have hlen : (xs ++ [y]).length = xs.length + 1 := List.length_append
      have hrest := ih hsrc hslots' hdst
      rw [hlen] at hrest
      rw [if_neg hmoves, List.filter_cons_of_neg hmoves, List.map_cons, if_neg hmoves]
      rw [List.append_assoc, List.singleton_append] at hrest
      exact hrest

theorem addTurns_eq (n i : ℕ) (src dst : VectorObject V) :
    addTurns n i src dst = moveTurns (taken src.value_type) n i src dst := by
  induction n generalizing i src dst with
  | zero => rfl
  | succ n ih =>
    rw [addTurns, moveTurns]
    cases hpeek : src.vector.peek_at (BitVec.ofNat 32 i) with
    | none => rfl
    | some m =>
      obtain ⟨k, e⟩ := m
      simp only [Option.bind_eq_bind, Option.bind_some]
      by_cases hskip : (src.value_type.isObject && e.isNone) = true
      · have htaken : ¬taken src.value_type e = true := by simp [taken, hskip]
        rw [if_pos hskip, if_neg htaken]
        exact ih (i + 1) src dst
      · have htaken : taken src.value_type e = true := by
          rw [taken, Bool.eq_false_of_not_eq_true hskip, Bool.not_false]
        rw [if_neg hskip, if_pos htaken]
        simp only [ih]

theorem filterTurns_eq {condition : Option V → ℤ} (hcondition : ∀ e, 0 ≤ condition e) (n i : ℕ)
    (src dst : VectorObject V) :
    filterTurns condition n i src dst =
      moveTurns (fun e ↦ taken src.value_type e && decide (0 < condition e)) n i src dst := by
  induction n generalizing i src dst with
  | zero => rfl
  | succ n ih =>
    rw [filterTurns, moveTurns]
    cases hpeek : src.vector.peek_at (BitVec.ofNat 32 i) with
    | none => rfl
    | some m =>
      obtain ⟨k, e⟩ := m
      have hnonneg : ¬condition e < 0 := Int.not_lt.2 (hcondition e)
      simp only [Option.bind_eq_bind, Option.bind_some, if_neg hnonneg]
      by_cases hskip : (src.value_type.isObject && e.isNone) = true
      · have htaken : taken src.value_type e = false := by simp [taken, hskip]
        rw [if_pos hskip, if_neg (by simp [htaken])]
        exact ih (i + 1) src dst
      · have htaken : taken src.value_type e = true := by
          rw [taken, Bool.eq_false_of_not_eq_true hskip, Bool.not_false]
        have hmoves : (taken src.value_type e && decide (0 < condition e)) = true ↔
            0 < condition e := by
          rw [htaken, Bool.true_and, decide_eq_true_eq]
        have hle := hcondition e
        rw [if_neg hskip]
        by_cases hzero : condition e = 0
        · rw [if_pos hzero, if_neg fun h ↦ (hmoves.1 h).ne' hzero]
          exact ih (i + 1) src dst
        · rw [if_neg hzero, if_pos (hmoves.2 (by omega))]
          simp only [ih]

end Loop

section Contents

variable {ty : ValueType} {moves p : Option V → Bool} {es : List (Option V)}

theorem elements_of_pointer (h : ty.isPointer = true) (es : List (Option V)) :
    elements ty es = es.filter Option.isSome := if_pos h

theorem elements_of_not (h : ¬ty.isPointer = true) (es : List (Option V)) : elements ty es = es :=
  if_neg h

theorem isPointer_of_isObject (h : ty.isObject = true) : ty.isPointer = true := by
  cases ty <;> first | rfl | cases h

/-- An element is moved exactly if `p` says so. -/
def MovesElements (p moves : Option V → Bool) : Prop := ∀ e, moves (some e) = p (some e)

theorem elements_moved (hp : ty.isPointer = true) (hmoves : MovesElements p moves) :
    elements ty (es.filter moves) = (elements ty es).filter p := by
  rw [elements_of_pointer hp, elements_of_pointer hp, List.filter_filter, List.filter_filter]
  apply List.filter_congr
  intro e _
  cases e with
  | none => simp
  | some e => simp [hmoves e]

theorem elements_left (hp : ty.isPointer = true) (hmoves : MovesElements p moves) :
    elements ty (es.map fun e ↦ if moves e then none else e) =
      (elements ty es).filter fun e ↦ !p e := by
  rw [elements_of_pointer hp, elements_of_pointer hp, List.filter_filter]
  induction es with
  | nil => rfl
  | cons e es ih =>
    rw [List.map_cons, List.filter_cons, List.filter_cons, ih]
    cases e with
    | none => simp
    | some e => cases hm : moves (some e) <;> simp [← hmoves e, hm]

theorem elements_append (xs ys : List (Option V)) :
    elements ty (xs ++ ys) = elements ty xs ++ elements ty ys := by
  by_cases hp : ty.isPointer = true
  · simp only [elements_of_pointer hp, List.filter_append]
  · simp only [elements_of_not hp]

end Contents

section Spec

variable {moves p : Option V → Bool} {src dst : VectorObject V}

/-- The destination can be made large enough, and what is not an address is not moved: its slot
would be left with a zero. -/
def Movable (moves : Option V → Bool) (src dst : VectorObject V) : Prop :=
  RoomFor dst.vector.capacity dst.vector.end_pos (src.slots.filter moves).length ∧
    (src.value_type.isPointer = true ∨ src.slots.filter moves = [])

theorem moves_iff (hsrc : src.vector.Sound) (hdst : dst.vector.Sound)
    (hmoves : MovesElements p moves)
    (hnull : ¬src.value_type.isPointer = true → ∀ e, moves e = p e) :
    (∃ r, moveTurns moves src.vector.end_pos 0 src dst = some r ∧
        elements src.value_type r.dst.slots = elements src.value_type dst.slots ++
          (elements src.value_type src.slots).filter p ∧
        elements src.value_type r.src.slots =
          (elements src.value_type src.slots).filter fun e ↦ !p e) ↔
      Movable moves src dst := by
  have hlen : src.slots.length = src.vector.end_pos := by
    rw [slots, List.length_take, hsrc.length_eq]
    exact min_eq_left hsrc.end_le
  obtain ⟨hfits, hwild⟩ := @moveTurns_eq V moves src dst [] src.slots hsrc rfl hdst
  rw [hlen, List.length_nil] at hfits hwild
  constructor
  · rintro ⟨r, hr, -, hleft⟩
    have hroom :
        RoomFor dst.vector.capacity dst.vector.end_pos (src.slots.filter moves).length := by
      by_contra hnot
      rw [hwild hnot] at hr
      cases hr
    refine ⟨hroom, ?_⟩
    by_cases hp : src.value_type.isPointer = true
    · exact .inl hp
    · obtain ⟨r', hr', hsrc', -⟩ := hfits hroom
      cases Option.some.inj (hr.symm.trans hr')
      rw [elements_of_not hp, elements_of_not hp, hsrc', List.nil_append] at hleft
      have hcount := congrArg List.length hleft
      rw [List.length_map] at hcount
      have hall := List.filter_eq_self.1 (List.filter_sublist.eq_of_length hcount.symm)
      refine .inr (List.filter_eq_nil_iff.2 fun e he hmove ↦ ?_)
      have hkept := hall e he
      rw [← hnull hp e, hmove] at hkept
      cases hkept
  · rintro ⟨hroom, hp⟩
    obtain ⟨r, hr, hsrc', hdst', -⟩ := hfits hroom
    refine ⟨r, hr, ?_⟩
    rw [hsrc', hdst', List.nil_append, elements_append]
    by_cases hpointer : src.value_type.isPointer = true
    · exact ⟨congrArg _ (elements_moved hpointer hmoves), elements_left hpointer hmoves⟩
    · have hnil := hp.resolve_left hpointer
      have hno := List.filter_eq_nil_iff.1 hnil
      have hmap : (src.slots.map fun e ↦ if moves e then none else e) = src.slots :=
        List.map_congr_left (g := id) (fun e he ↦ if_neg (hno e he)) |>.trans (List.map_id _)
      have hkeep : src.slots.filter (fun e ↦ !p e) = src.slots := by
        apply List.filter_eq_self.2
        intro e he
        have hfalse := hno e he
        rw [hnull hpointer e] at hfalse
        simpa using hfalse
      have hgain : src.slots.filter p = [] := by
        apply List.filter_eq_nil_iff.2
        intro e he
        rw [← hnull hpointer e]
        exact hno e he
      rw [hmap, elements_of_not hpointer, elements_of_not hpointer, elements_of_not hpointer, hnil,
        hkeep, hgain]
      exact ⟨rfl, rfl⟩

/-- The slots that `filter` moves. -/
def wanted (p : Predicate V C) (cond : C) (ty : ValueType) (e : Option V) : Bool :=
  taken ty e && p.holds cond e

theorem taken_some (ty : ValueType) (e : V) : taken ty (some e) = true := by
  rw [taken, Option.isNone_some, Bool.and_false, Bool.not_false]

theorem taken_of_not {ty : ValueType} (h : ¬ty.isPointer = true) (e : Option V) :
    taken ty e = true := by
  have hobject : ty.isObject = false :=
    Bool.eq_false_of_not_eq_true fun hobject ↦ h (isPointer_of_isObject hobject)
  rw [taken, hobject, Bool.false_and, Bool.not_false]

theorem filters_iff (hsrc : src.vector.Sound) (hdst : dst.vector.Sound) (p : Predicate V C)
    (cond : C) :
    Filters p cond src dst ↔ Movable (wanted p cond src.value_type) src dst := by
  have hloop : src.filter p.condition (some cond) dst =
      moveTurns (wanted p cond src.value_type) src.vector.end_pos 0 src dst :=
    filterTurns_eq (fun e ↦ p.nonneg e cond) _ _ _ _
  rw [Filters, hloop]
  apply moves_iff hsrc hdst
  · intro e
    rw [wanted, taken_some, Bool.true_and]
  · intro hp e
    rw [wanted, taken_of_not hp, Bool.true_and]

theorem adds_iff (hsrc : src.vector.Sound) (hdst : dst.vector.Sound) :
    Adds dst src ↔ Movable (taken src.value_type) src dst := by
  have hmoves := @moves_iff V (taken src.value_type) (fun _ ↦ true) src dst hsrc hdst
    (taken_some _) taken_of_not
  simp only [List.filter_true, Bool.not_true, List.filter_false] at hmoves
  rw [Adds, add_vector, addTurns_eq]
  exact hmoves

/-- Elements that are addresses are moved as they should wherever the destination can be made large
enough; a vector of numbers is left with a zero for each of them. -/
theorem filter_add_vector_iff (hsrc : src.vector.Sound) (hdst : dst.vector.Sound)
    (p : Predicate V C) (cond : C) :
    (Filters p cond src dst ↔ Movable (wanted p cond src.value_type) src dst) ∧
      (Adds dst src ↔ Movable (taken src.value_type) src dst) :=
  ⟨filters_iff hsrc hdst p cond, adds_iff hsrc hdst⟩

/-- The number in the slot is larger; a null slot is a zero. -/
def larger : Predicate ℤ ℤ where
  condition e cond := if cond < e.getD 0 then 1 else 0
  nonneg e cond := by
    split_ifs
    · exact Int.one_nonneg
    · exact le_rfl

/-- A vector with room for these. -/
def ofSlots (ty : ValueType) (es : List (Option ℤ)) : VectorObject ℤ where
  vector := ⟨es ++ [none], es.length + 1, es.countP Option.isSome, es.length⟩
  trustee_flag := 0
  value_type := ty
  class_name := none
  value_free_callback := false

theorem sound_ofSlots (ty : ValueType) (es : List (Option ℤ)) (h : es.length < 1000) :
    (ofSlots ty es).vector.Sound := by
  refine ⟨?_, ?_, ?_, ?_⟩
  · exact List.length_append
  · exact Nat.le_succ _
  · exact Nat.succ_pos _
  · show (es.length + 1) * 8 < 4294967296
    omega

theorem filter_add_vector_strings :
    Filters larger 1 (ofSlots .string_pointer [some 1, none, some 2, some 3])
        (ofSlots .string_pointer [some 4]) ∧
      Adds (ofSlots .string_pointer [some 4])
        (ofSlots .string_pointer [some 1, none, some 2, some 3]) := by
  have hiff := filter_add_vector_iff
    (sound_ofSlots .string_pointer [some 1, none, some 2, some 3] (by decide))
    (sound_ofSlots .string_pointer [some 4] (by decide)) larger 1
  have htwo : RoomFor 2 1 2 := by simp [RoomFor]
  have hthree : RoomFor 2 1 3 := by simp [RoomFor]
  exact ⟨hiff.1.2 ⟨htwo, .inl rfl⟩, hiff.2.2 ⟨hthree, .inl rfl⟩⟩

/-- Three numbers larger than zero are taken out, and are zeros afterwards. -/
theorem not_filter :
    ¬Filters larger 0 (ofSlots .int16_t [some 900, some 2, some 3, some (-58)])
      (ofSlots .int16_t []) := by
  rintro ⟨r, hr, -, hleft⟩
  have hzeros : r.src.slots = [none, none, none, some (-58)] := by
    cases hr
    rfl
  rw [hzeros] at hleft
  revert hleft
  decide

end Spec

end VectorObject

end Libobject
