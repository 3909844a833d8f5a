import Libobject.Core.Vector
import Mathlib.Data.List.ReduceOption

/-!
# Giving back the elements of a vector

A vector that is a trustee of its elements gives them back in the way of their type. `reset` does so
with all of them. `reset_from` counts the slots it has emptied, and does not count those it leaves.
-/

namespace Libobject

inductive ValueType
  | undefined
  | int8_t
  | uint8_t
  | int16_t
  | uint16_t
  | int32_t
  | uint32_t
  | int64_t
  | uint64_t
  | float_t
  | alloc_pointer
  | struct_pointer
  | stub_pointer
  | obj_pointer
  | string_pointer
  | cstring_pointer
  | max_type
  deriving DecidableEq

/-- `value_free_callback` is whether there is one. -/
structure VectorObject (V : Type) where
  vector : PtrVector V
  trustee_flag : ℤ
  value_type : ValueType
  class_name : Option (List UInt8)
  value_free_callback : Bool

namespace VectorObject

variable {V : Type}

/-- How an element is given back. -/
inductive Release
  | destroy
  | mem_free
  | free_method (class_name : List UInt8)
  | callback
  deriving DecidableEq

/-- What the type asks for, if anything. A class without the method `free` is a failure; `hasFree`
tells which classes have it. -/
def release (hasFree : List UInt8 → Bool) (o : VectorObject V) : Option (Option Release) :=
  match o.value_type with
  | .obj_pointer | .string_pointer => some (some .destroy)
  | .alloc_pointer => some (some .mem_free)
  | .struct_pointer =>
    match o.class_name with
    | some name => if hasFree name then some (some (.free_method name)) else none
    | none => if o.value_free_callback then some (some .callback) else some (some .mem_free)
  | _ => some none

/-- The object, the elements that have been given back, and what is returned. -/
structure Reset (V : Type) where
  object : VectorObject V
  released : List (V × Release)
  ret : ℤ

/-- The entries for an element. -/
def entry (e : V) (w : Option Release) : List (V × Release) := w.toList.map fun w ↦ (e, w)

/-- The loop of `__reset` from slot `i` on, with `n` turns to go. -/
def resetTurns (hasFree : List UInt8 → Bool) (o : VectorObject V) :
    ℕ → ℕ → List (V × Release) → Option (Reset V)
  | 0, _, released => o.vector.reset.map fun v ↦ ⟨{ o with vector := v }, released, 0⟩
  | n + 1, i, released =>
    if o.trustee_flag ≠ 1 then
      o.vector.reset.map fun v ↦ ⟨{ o with vector := v }, released, 0⟩
    else do
      let (_, element) ← o.vector.peek_at (BitVec.ofNat 32 i)
      match element with
      | none => resetTurns hasFree o n (i + 1) released
      | some e =>
        match o.release hasFree with
        | none => return ⟨o, released, -1⟩
        | some w => resetTurns hasFree o n (i + 1) (released ++ entry e w)

def reset (hasFree : List UInt8 → Bool) (o : VectorObject V) : Option (Reset V) :=
  o.resetTurns hasFree o.vector.end_pos 0 []

/-- The end is put at `index`. -/
def cutAt (o : VectorObject V) (index : BitVec 32) : VectorObject V :=
  { o with vector := { o.vector with end_pos := index.toNat } }

/-- The loop of `__reset_from` with `n` turns to go; a slot that is skipped is not counted by `i`.
-/
def resetFromTurns (hasFree : List UInt8 → Bool) (index : BitVec 32) :
    ℕ → ℕ → VectorObject V → List (V × Release) → Option (Reset V)
  | 0, _, o, released => some ⟨o.cutAt index, released, 0⟩
  | n + 1, i, o, released =>
    if o.trustee_flag ≠ 1 then some ⟨o.cutAt index, released, 0⟩
    else if (i : ℤ) < index.toInt then resetFromTurns hasFree index n i o released
    else do
      let (v, _, element) ← o.vector.remove (BitVec.ofNat 32 i)
      match element with
      | none => resetFromTurns hasFree index n (i + 1) { o with vector := v } released
      | some e =>
        match o.release hasFree with
        | none => return ⟨{ o with vector := v }, released, -1⟩
        | some w =>
          resetFromTurns hasFree index n (i + 1) { o with vector := v }
            (released ++ entry e w)

def reset_from (hasFree : List UInt8 → Bool) (o : VectorObject V) (index : BitVec 32) :
    Option (Reset V) :=
  if (BitVec.ofNat 32 o.vector.end_pos).toInt ≤ index.toInt then some ⟨o, [], 0⟩
  else resetFromTurns hasFree index o.vector.end_pos 0 o []

/-- What is due to an element: nothing, where the vector is no trustee. -/
def due (hasFree : List UInt8 → Bool) (o : VectorObject V) : Option (Option Release) :=
  if o.trustee_flag = 1 then o.release hasFree else some none

/-- The entries of elements that are given back one after the other, if they can be. -/
def givenBack (w : Option (Option Release)) (xs : List V) : Option (List (V × Release)) :=
  if xs = [] then some [] else w.map fun w ↦ xs.flatMap fun e ↦ entry e w

/-- The elements from `index` on are given back, each once, and the rest is as it was. -/
structure ResetsFrom (hasFree : List UInt8 → Bool) (o : VectorObject V) (es : List (Option V))
    (index : BitVec 32) (r : Reset V) : Prop where
  below : ∀ i : ℕ, (i : ℤ) < index.toInt → r.object.vector.slots[i]? = o.vector.slots[i]?
  released : some r.released =
    givenBack (o.due hasFree) (es.drop index.toInt.toNat).reduceOption
  end_eq : (r.object.vector.end_pos : ℤ) = min index.toInt es.length
  count_eq : r.object.vector.count = (es.take index.toInt.toNat).countP Option.isSome

/-- Nothing is left to do, or all is given back, by a vector that can do so. -/
def Resettable (hasFree : List UInt8 → Bool) (o : VectorObject V) (es : List (Option V))
    (index : BitVec 32) : Prop :=
  es.length ≤ index.toInt ∨ 0 ≤ index.toInt ∧
    ((es.drop index.toInt.toNat).reduceOption = [] ∨
      index = 0 ∧ o.trustee_flag = 1 ∧ o.release hasFree ≠ none)

section Reset

variable {hasFree : List UInt8 → Bool} {o : VectorObject V} {es : List (Option V)}

theorem givenBack_cons {w : Option Release} (e : V) (xs : List V) :
    givenBack (some w) (e :: xs) = (givenBack (some w) xs).map fun log ↦ entry e w ++ log := by
  rw [givenBack, if_neg (List.cons_ne_nil e xs), givenBack]
  by_cases hnil : xs = []
  · subst hnil
    rfl
  · rw [if_neg hnil]
    rfl

theorem resetTurns_untrusted (h : o.trustee_flag ≠ 1) (n i : ℕ) (released : List (V × Release)) :
    resetTurns hasFree o n i released =
      o.vector.reset.map fun v ↦ ⟨{ o with vector := v }, released, 0⟩ := by
  cases n with
  | zero => rfl
  | succ n => exact if_pos h

theorem resetTurns_eq (hv : o.vector.Holds es) (htrustee : o.trustee_flag = 1)
    {xs ys : List (Option V)} (hes : es = xs ++ ys) (released : List (V × Release)) :
    (∀ rs, givenBack (o.release hasFree) ys.reduceOption = some rs →
      ∃ v, resetTurns hasFree o ys.length xs.length released =
          some ⟨{ o with vector := v }, released ++ rs, 0⟩ ∧ v.Holds []) ∧
    (givenBack (o.release hasFree) ys.reduceOption = none →
      resetTurns hasFree o ys.length xs.length released = some ⟨o, released, -1⟩) := by
  induction ys generalizing xs released with
  | nil =>
    obtain ⟨v, hreset, hv'⟩ := hv.reset
    constructor
    · rintro _ ⟨⟩
      exact ⟨v, by rw [List.length_nil, resetTurns, hreset, List.append_nil, Option.map_some], hv'⟩
    · rintro ⟨⟩
  | cons y ys ih =>
    have hes' : es = xs ++ [y] ++ ys := by rw [hes, List.append_assoc, List.singleton_append]
    have hlen : (xs ++ [y]).length = xs.length + 1 := List.length_append
    have hpeek : o.vector.peek_at (BitVec.ofNat 32 xs.length) = some (1, y) := by
      have hlt : xs.length < es.length := by rw [hes, List.length_append, List.length_cons]; omega
      have hle := hv.le_capacity
      have hfits := hv.fits
      have hnat : (BitVec.ofNat 32 xs.length).toNat = xs.length := Nat.mod_eq_of_lt (by omega)
      have hint : (BitVec.ofNat 32 xs.length).toInt = xs.length := by
        rw [BitVec.toInt_eq_toNat_of_lt (by omega), hnat]
      rw [PtrVector.peek_at, hint, if_neg (by omega), hnat, hv.getElem_of_lt hlt, hes,
        List.getElem?_append_right le_rfl, Nat.sub_self]
      rfl
    rw [List.length_cons, resetTurns, if_neg (not_not_intro htrustee), hpeek]
    simp only [Option.bind_eq_bind, Option.bind_some]
    cases y with
    | none =>
      rw [List.reduceOption_cons_of_none, ← hlen]
      exact ih hes' released
    | some e =>
      cases hw : o.release hasFree with
      | none =>
        constructor
        · rintro _ ⟨⟩
        · exact fun _ ↦ rfl
      | some w =>
        constructor
        · intro rs hrs
          rw [List.reduceOption_cons_of_some, givenBack_cons] at hrs
          obtain ⟨log, hlog, rfl⟩ := Option.map_eq_some_iff.mp hrs
          obtain ⟨v, hloop, hv'⟩ := (ih hes' (released ++ entry e w)).1 log (hw ▸ hlog)
          rw [hlen, List.append_assoc] at hloop
          exact ⟨v, hloop, hv'⟩
        · rintro ⟨⟩

/-- Every element is given back once, as its type asks for, and nothing is left; or nothing has
happened, where there is an element whose class has no method for it. -/
theorem reset_spec (hv : o.vector.Holds es) :
    (∀ rs, givenBack (o.due hasFree) es.reduceOption = some rs →
      ∃ v, o.reset hasFree = some ⟨{ o with vector := v }, rs, 0⟩ ∧ v.Holds []) ∧
    (givenBack (o.due hasFree) es.reduceOption = none →
      o.reset hasFree = some ⟨o, [], -1⟩) := by
  rw [due, reset, hv.end_eq]
  split
  · next htrustee => exact resetTurns_eq hv htrustee (List.nil_append es).symm []
  · next htrustee =>
      obtain ⟨v, hreset, hv'⟩ := hv.reset
      have hnone (xs : List V) : givenBack (some none) xs = some [] := by
        rw [givenBack]
        split
        · rfl
        · exact congrArg some (List.flatMap_eq_nil_iff.mpr fun _ _ ↦ rfl)
      rw [hnone]
      constructor
      · rintro _ ⟨⟩
        exact ⟨v, by rw [resetTurns_untrusted htrustee, hreset, Option.map_some], hv'⟩
      · rintro ⟨⟩

end Reset

section ResetFrom

variable {hasFree : List UInt8 → Bool} {index : BitVec 32} {o : VectorObject V}
  {es : List (Option V)}

/-- Where the index is not behind a slot and what is in the slots can be given back, they are
emptied one by one. -/
theorem resetFromTurns_eq (htrustee : o.trustee_flag = 1) {w : Option Release} {i : ℕ}
    {ys : List (Option V)} (hw : ys.reduceOption = [] ∨ o.release hasFree = some w)
    (hindex : index.toInt ≤ i) {v : PtrVector V} (hv : v.Holds (List.replicate i none ++ ys))
    (released : List (V × Release)) :
    ∃ v', resetFromTurns hasFree index ys.length i { o with vector := v } released =
        some ⟨({ o with vector := v' } : VectorObject V).cutAt index,
          released ++ ys.reduceOption.flatMap fun e ↦ entry e w, 0⟩ ∧
      v'.Holds (List.replicate (i + ys.length) none) := by
  induction ys generalizing i v released with
  | nil =>
    rw [List.append_nil] at hv
    refine ⟨v, ?_, hv⟩
    rw [List.length_nil, resetFromTurns, List.reduceOption_nil, List.flatMap_nil,
      List.append_nil]
  | cons y ys ih =>
    have hget : (List.replicate i none ++ y :: ys)[i]? = some y := by
      rw [List.getElem?_append_right (by simp)]
      simp
    obtain ⟨v', hclear, hv', -⟩ := hv.clear hget
    have hset : (List.replicate i none ++ y :: ys).set i none =
        List.replicate (i + 1) none ++ ys := by
      rw [List.set_append_right _ _ (by simp), List.length_replicate, Nat.sub_self,
        List.set_cons_zero, List.replicate_succ', List.append_assoc, List.singleton_append]
    rw [hset] at hv'
    have hlt : i < 4294967296 := by
      have hle := hv.le_capacity
      have hfits := hv.fits
      rw [List.length_append, List.length_replicate] at hle
      omega
    have hend : ¬v.end_pos < i := by
      rw [hv.end_eq, List.length_append, List.length_replicate]
      omega
    have hremove : v.remove (BitVec.ofNat 32 i) = some (v', 1, y) := by
      have hnat : (BitVec.ofNat 32 i).toNat = i := Nat.mod_eq_of_lt hlt
      rw [PtrVector.remove, hnat]
      rw [if_neg hend, hclear, Option.map_some]
    have hskip : ¬(i : ℤ) < index.toInt := by omega
    have hindex' : index.toInt ≤ (i + 1 : ℕ) := by omega
    have hnum : i + (y :: ys).length = i + 1 + ys.length := by
      rw [List.length_cons]
      omega
    rw [List.length_cons, resetFromTurns]
    rw [if_neg (not_not_intro htrustee), if_neg hskip, hremove]
    simp only [Option.bind_eq_bind, Option.bind_some]
    cases y with
    | none =>
      obtain ⟨v'', hloop, hv''⟩ := ih hw hindex' hv' released
      rw [← hnum] at hv''
      exact ⟨v'', hloop, hv''⟩
    | some e =>
      rw [List.reduceOption_cons_of_some] at hw
      have hsame := hw.resolve_left (List.cons_ne_nil _ _)
      obtain ⟨v'', hloop, hv''⟩ := ih (.inr hsame) hindex' hv' (released ++ entry e w)
      rw [← hnum] at hv''
      refine ⟨v'', ?_, hv''⟩
      change ({ o with vector := v } : VectorObject V).release hasFree = some w at hsame
      rw [hsame]
      dsimp only
      rw [hloop, List.reduceOption_cons_of_some, List.flatMap_cons, List.append_assoc]

theorem resetFromTurns_skip (hindex : 0 < index.toInt) (n : ℕ) (released : List (V × Release)) :
    resetFromTurns hasFree index n 0 o released = some ⟨o.cutAt index, released, 0⟩ := by
  induction n with
  | zero => rfl
  | succ n ih =>
    rw [resetFromTurns]
    by_cases htrustee : o.trustee_flag ≠ 1
    · rw [if_pos htrustee]
    · rw [if_neg htrustee, if_pos (by exact_mod_cast hindex), ih]

theorem resetFromTurns_not_trustee (htrustee : o.trustee_flag ≠ 1) (n i : ℕ)
    (released : List (V × Release)) :
    resetFromTurns hasFree index n i o released = some ⟨o.cutAt index, released, 0⟩ := by
  cases n with
  | zero => rfl
  | succ n => rw [resetFromTurns, if_pos htrustee]

theorem countP_isSome (xs : List (Option V)) : xs.countP Option.isSome =
    xs.reduceOption.length := by
  induction xs with
  | nil => rfl
  | cons x xs ih =>
    cases x with
    | none => simpa using ih
    | some e => simpa using ih

theorem count_take (hv : o.vector.Holds es) (n : ℕ) :
    o.vector.count = (es.take n).countP Option.isSome + (es.drop n).reduceOption.length := by
  rw [hv.count_eq, ← countP_isSome, ← List.countP_append, List.take_append_drop]

theorem givenBack_nil (w : Option (Option Release)) : givenBack w ([] : List V) = some [] :=
  if_pos rfl

theorem resetsFrom_cutAt (hv : o.vector.Holds es) (hpos : 0 ≤ index.toInt)
    (hlt : index.toInt < es.length) :
    ResetsFrom hasFree o es index ⟨o.cutAt index, [], 0⟩ ↔
      (es.drop index.toInt.toNat).reduceOption = [] := by
  have hcount := count_take hv index.toInt.toNat
  constructor
  · intro h
    have heq : o.vector.count = (es.take index.toInt.toNat).countP Option.isSome := h.count_eq
    rw [← List.length_eq_zero_iff]
    omega
  · intro hnil
    rw [hnil, List.length_nil, Nat.add_zero] at hcount
    refine ⟨fun _ _ ↦ rfl, ?_, ?_, hcount⟩
    · rw [hnil, givenBack_nil]
    · have hnat : (index.toNat : ℤ) = index.toInt := by
        have hint := BitVec.toInt_eq_toNat_cond index
        have hbound := index.isLt
        split_ifs at hint <;> omega
      rw [min_eq_left hlt.le]
      exact hnat

theorem reset_from_of_end_le (hv : o.vector.Holds es) (hle : es.length ≤ index.toInt) :
    ∃ r, o.reset_from hasFree index = some r ∧ ResetsFrom hasFree o es index r := by
  refine ⟨⟨o, [], 0⟩, if_pos (by rw [hv.toInt_end]; exact hle), fun _ _ ↦ rfl, ?_, ?_, ?_⟩
  · rw [List.drop_eq_nil_of_le (by omega), List.reduceOption_nil, givenBack_nil]
  · rw [min_eq_right hle, hv.end_eq]
  · rw [List.take_of_length_le (by omega)]
    exact hv.count_eq

theorem reset_from_of_lt (hv : o.vector.Holds es) (hlt : index.toInt < es.length) :
    o.reset_from hasFree index = resetFromTurns hasFree index es.length 0 o [] := by
  rw [reset_from, hv.toInt_end, if_neg (by omega), hv.end_eq]

theorem reset_from_zero (hv : o.vector.Holds es) (hne : es ≠ []) (htrustee : o.trustee_flag = 1)
    {w : Option Release} (hw : es.reduceOption = [] ∨ o.release hasFree = some w) :
    ∃ r, o.reset_from hasFree 0 = some r ∧ ResetsFrom hasFree o es 0 r := by
  have hpos := List.length_pos_of_ne_nil hne
  have hzero : (0 : BitVec 32).toInt = 0 := by decide
  obtain ⟨v', hloop, hv'⟩ :=
    @resetFromTurns_eq V hasFree 0 o htrustee w 0 es hw (by decide) o.vector hv []
  rw [List.nil_append] at hloop
  rw [reset_from_of_lt hv (by omega)]
  refine ⟨_, hloop, fun i hi ↦ ?_, ?_, ?_, ?_⟩
  · rw [hzero] at hi
    omega
  · have hdue : o.due hasFree = o.release hasFree := if_pos htrustee
    rw [hzero, Int.toNat_zero, List.drop_zero, hdue]
    rcases hw with hnil | hw
    · rw [hnil, givenBack_nil]
      rfl
    · rw [hw, givenBack]
      split_ifs with hnil
      · rw [hnil]
        rfl
      · rfl
  · rw [hzero, min_eq_left (Int.natCast_nonneg _)]
    rfl
  · have hcount := hv'.count_eq
    rw [List.countP_replicate] at hcount
    exact hcount

/-- Resetting from an index does what it should exactly if there is nothing to give back from there
on, or the whole vector is reset, by a trustee that has a way to give its elements back. -/
theorem reset_from_iff (hv : o.vector.Holds es) :
    (∃ r, o.reset_from hasFree index = some r ∧ ResetsFrom hasFree o es index r) ↔
      Resettable hasFree o es index := by
  by_cases hle : es.length ≤ index.toInt
  · exact ⟨fun _ ↦ .inl hle, fun _ ↦ reset_from_of_end_le hv hle⟩
  · have hlt : index.toInt < es.length := by omega
    by_cases hneg : index.toInt < 0
    · constructor
      · rintro ⟨r, -, hr⟩
        have hend := hr.end_eq
        rw [min_eq_left hlt.le] at hend
        omega
      · rintro (h | ⟨h, -⟩)
        · exact absurd h hle
        · exact absurd h (Int.not_le.2 hneg)
    · have hpos : 0 ≤ index.toInt := Int.not_lt.1 hneg
      by_cases hzero : index = 0 ∧ o.trustee_flag = 1
      · obtain ⟨rfl, htrustee⟩ := hzero
        have hne : es ≠ [] := by
          intro hnil
          rw [hnil] at hlt
          exact hneg hlt
        have hdrop : es.drop (0 : BitVec 32).toInt.toNat = es := List.drop_zero
        constructor
        · rintro ⟨r, -, hr⟩
          refine .inr ⟨hpos, ?_⟩
          rw [hdrop]
          by_cases hnil : es.reduceOption = []
          · exact .inl hnil
          · refine .inr ⟨rfl, htrustee, fun hnone ↦ ?_⟩
            have hreleased := hr.released
            rw [hdrop, due, if_pos htrustee, hnone, givenBack, if_neg hnil] at hreleased
            cases hreleased
        · rintro (h | ⟨-, hnil | ⟨-, -, hw⟩⟩)
          · exact absurd h hle
          · rw [hdrop] at hnil
            exact reset_from_zero (w := none) hv hne htrustee (.inl hnil)
          · obtain ⟨w, hw⟩ := Option.ne_none_iff_exists'.1 hw
            exact reset_from_zero hv hne htrustee (.inr hw)
      · have hcut : o.reset_from hasFree index = some ⟨o.cutAt index, [], 0⟩ := by
          rw [reset_from_of_lt hv hlt]
          by_cases htrustee : o.trustee_flag = 1
          · apply resetFromTurns_skip
            have hne : index.toInt ≠ 0 := fun h ↦
              hzero ⟨BitVec.eq_of_toInt_eq h, htrustee⟩
            omega
          · exact resetFromTurns_not_trustee htrustee _ _ _
        have hiff := @resetsFrom_cutAt V hasFree index o es hv hpos hlt
        constructor
        · rintro ⟨r, hr, hreset⟩
          rw [hcut] at hr
          cases hr
          exact .inr ⟨hpos, .inl (hiff.1 hreset)⟩
        · rintro (h | ⟨-, hnil | ⟨h0, htrustee, -⟩⟩)
          · exact absurd h hle
          · exact ⟨_, hcut, hiff.2 hnil⟩
          · exact absurd ⟨h0, htrustee⟩ hzero

end ResetFrom

/-- Two numbers and a hole. -/
def withHole : VectorObject ℕ := ⟨⟨[some 1, none, some 2], 3, 2, 3⟩, 1, .alloc_pointer, none, false⟩

theorem holds_withHole : withHole.vector.Holds [some 1, none, some 2] :=
  ⟨rfl, rfl, le_rfl, rfl, by decide, by decide⟩

theorem reset_withHole :
    ∃ v, withHole.reset (fun _ ↦ true) =
      some ⟨{ withHole with vector := v }, [(1, .mem_free), (2, .mem_free)], 0⟩ ∧ v.Holds [] :=
  (reset_spec holds_withHole).1 _ rfl

theorem reset_from_withHole :
    ∃ r, withHole.reset_from (fun _ ↦ true) 0 = some r ∧
      ResetsFrom (fun _ ↦ true) withHole [some 1, none, some 2] 0 r :=
  (reset_from_iff holds_withHole).2 (.inr ⟨by decide, .inr ⟨rfl, rfl, by decide⟩⟩)

/-- The number behind the index is left where it is, and is still counted. -/
theorem not_reset_from :
    ¬∃ r, withHole.reset_from (fun _ ↦ true) 1 = some r ∧
      ResetsFrom (fun _ ↦ true) withHole [some 1, none, some 2] 1 r := by
  rintro ⟨r, hr, hreset⟩
  have hcut : withHole.reset_from (fun _ ↦ true) 1 = some ⟨withHole.cutAt 1, [], 0⟩ := rfl
  rw [hcut] at hr
  cases hr
  exact absurd hreset.count_eq (by decide)

end VectorObject

end Libobject
