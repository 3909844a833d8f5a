import Libobject.Core.RbTreeMap
import Mathlib.Data.List.Induction
import Mathlib.Data.List.Pairwise
import Mathlib.Data.List.Perm.Basic

/-!
# The interval tree

The intervals are kept in a map whose keys lie inside them. A search descends the tree of the map:
at each node it goes to the left of the interval, to its right, or ends there. The bounds of an
interval are of type `long`, and the map takes them for addresses when it compares them.
-/

namespace Libobject

open Std

namespace IntervalTree

/-- `interval_tree_node_t`; the value is an address. -/
structure Interval where
  start : BitVec 64
  end_ : BitVec 64
  value : BitVec 64
  deriving DecidableEq

def integer_key_cmp_func (key1 key2 : BitVec 64) : Ordering :=
  if key1 > key2 then .gt else if key1 < key2 then .lt else .eq

theorem integer_key_cmp_func_eq :
    integer_key_cmp_func = compareOn BitVec.toNat := by
  funext key1 key2
  rw [integer_key_cmp_func, compareOn]
  simp only [GT.gt, BitVec.lt_def]
  rcases Nat.lt_trichotomy key1.toNat key2.toNat with h | h | h
  · rw [if_neg (by omega), if_pos h, Nat.compare_eq_lt.mpr h]
  · rw [if_neg (by omega), if_neg (by omega), Nat.compare_eq_eq.mpr h]
  · rw [if_pos h, Nat.compare_eq_gt.mpr h]

instance : TransCmp integer_key_cmp_func := integer_key_cmp_func_eq ▸ inferInstance

theorem key_lt {a b : BitVec 64} : integer_key_cmp_func a b = .lt ↔ a.toNat < b.toNat := by
  rw [integer_key_cmp_func_eq]
  exact Nat.compare_eq_lt

theorem key_gt {a b : BitVec 64} : integer_key_cmp_func a b = .gt ↔ b.toNat < a.toNat := by
  rw [integer_key_cmp_func_eq]
  exact Nat.compare_eq_gt

theorem key_isLE {a b : BitVec 64} :
    (integer_key_cmp_func a b).isLE ↔ a.toNat ≤ b.toNat := by
  exact Ordering.isLE_iff_ne_gt.trans ((not_congr key_gt).trans Nat.not_lt)

abbrev IntervalMap := RbTreeMap integer_key_cmp_func Interval

def add (rb : Rebalance (BitVec 64 × Interval)) (tree : IntervalMap) (key : BitVec 64)
    (value : Interval) : IntervalMap := RbTreeMap.add rb tree key value

/-- The descent from a node. -/
def searchFrom (key : BitVec 64) : Tree Color (BitVec 64 × Interval) → Option Interval
  | .leaf => none
  | .node _ rb_left mnode rb_right =>
    let value := mnode.2
    let result1 := integer_key_cmp_func key value.start
    let result2 := integer_key_cmp_func key value.end_
    if result1 = .lt then searchFrom key rb_left
    else if result2 = .gt then searchFrom key rb_right
    else some value

def search (tree : IntervalMap) (key : BitVec 64) : Option Interval := searchFrom key tree.root

/-! ## The descent as a search -/

/-- On which side of an interval the key lies, as the descent takes it. -/
def side (key : BitVec 64) (e : BitVec 64 × Interval) : Ordering :=
  if integer_key_cmp_func key e.2.start = .lt then .lt
  else if integer_key_cmp_func key e.2.end_ = .gt then .gt
  else .eq

theorem side_spec (key : BitVec 64) (e : BitVec 64 × Interval) :
    side key e = .lt ∧ key.toNat < e.2.start.toNat ∨
    side key e = .gt ∧ e.2.start.toNat ≤ key.toNat ∧ e.2.end_.toNat < key.toNat ∨
    side key e = .eq ∧ e.2.start.toNat ≤ key.toNat ∧ key.toNat ≤ e.2.end_.toNat := by
  simp only [side, key_lt, key_gt]
  split_ifs with hlt hgt
  · exact .inl ⟨rfl, hlt⟩
  · exact .inr (.inl ⟨rfl, Nat.not_lt.mp hlt, hgt⟩)
  · exact .inr (.inr ⟨rfl, Nat.not_lt.mp hlt, Nat.not_lt.mp hgt⟩)

theorem side_lt {key : BitVec 64} {e : BitVec 64 × Interval} :
    side key e = .lt ↔ key.toNat < e.2.start.toNat := by
  rcases side_spec key e with ⟨h, hk⟩ | ⟨h, hk⟩ | ⟨h, hk⟩ <;> simp [h] <;> omega

theorem side_gt {key : BitVec 64} {e : BitVec 64 × Interval} :
    side key e = .gt ↔ e.2.start.toNat ≤ key.toNat ∧ e.2.end_.toNat < key.toNat := by
  rcases side_spec key e with ⟨h, hk⟩ | ⟨h, hk⟩ | ⟨h, hk⟩ <;> simp [h] <;> omega

theorem side_eq {key : BitVec 64} {e : BitVec 64 × Interval} :
    side key e = .eq ↔ e.2.start.toNat ≤ key.toNat ∧ key.toNat ≤ e.2.end_.toNat := by
  rcases side_spec key e with ⟨h, hk⟩ | ⟨h, hk⟩ | ⟨h, hk⟩ <;> simp [h] <;> omega

theorem searchFrom_eq (key : BitVec 64) (t : Tree Color (BitVec 64 × Interval)) :
    searchFrom key t = (t.find (side key)).bind fun i ↦ t.inorder[i]?.map Prod.snd := by
  induction t with
  | leaf => rfl
  | node tag l e r ihl ihr =>
    rw [searchFrom, Tree.find, Tree.inorder_node, side]
    by_cases hlt : integer_key_cmp_func key e.2.start = .lt
    · rw [if_pos hlt, if_pos hlt, ihl]
      cases hfind : l.find (side key) with
      | none => rfl
      | some i =>
        obtain ⟨a, ha, -⟩ := Tree.find_some hfind
        obtain ⟨hi, -⟩ := List.getElem?_eq_some_iff.mp ha
        simp only [Option.bind_some, List.getElem?_append_left hi]
    · rw [if_neg hlt, if_neg hlt]
      by_cases hgt : integer_key_cmp_func key e.2.end_ = .gt
      · rw [if_pos hgt, if_pos hgt, ihr]
        cases r.find (side key) with
        | none => rfl
        | some i =>
          have hle : l.inorder.length ≤ i + (l.inorder.length + 1) := by omega
          have hsub : i + (l.inorder.length + 1) - l.inorder.length = i + 1 := by omega
          simp only [Option.map_some, Option.bind_some, List.getElem?_append_right hle, hsub,
            List.getElem?_cons_succ]
      · rw [if_neg hgt, if_neg hgt]
        simp

theorem search_some {tree : IntervalMap} {key : BitVec 64} {i : Interval}
    (h : search tree key = some i) :
    i ∈ tree.entries.map Prod.snd ∧ i.start.toNat ≤ key.toNat ∧ key.toNat ≤ i.end_.toNat := by
  rw [search, searchFrom_eq] at h
  obtain ⟨n, hn, hi⟩ := Option.bind_eq_some_iff.mp h
  obtain ⟨e, he, hside⟩ := Tree.find_some hn
  obtain rfl : e.2 = i := by simpa [he] using hi
  exact ⟨List.mem_map_of_mem (List.mem_of_getElem? he), side_eq.mp hside⟩

theorem search_none {tree : IntervalMap} {key : BitVec 64}
    (hin : Tree.InOrder (side key) tree.entries) (h : search tree key = none) {i : Interval}
    (hi : i ∈ tree.entries.map Prod.snd) :
    ¬(i.start.toNat ≤ key.toNat ∧ key.toNat ≤ i.end_.toNat) := by
  rw [search, searchFrom_eq] at h
  have hfind : tree.root.find (side key) = none := by
    cases hf : tree.root.find (side key) with
    | none => rfl
    | some n =>
      obtain ⟨e, he, -⟩ := Tree.find_some hf
      simp [hf, he] at h
  obtain ⟨e, he, rfl⟩ := List.mem_map.mp hi
  intro hinside
  exact Tree.find_none hin hfind e he (side_eq.mpr hinside)

/-! ## Intervals of signed numbers -/

namespace Interval

def Contains (i : Interval) (key : BitVec 64) : Prop :=
  i.start.toInt ≤ key.toInt ∧ key.toInt ≤ i.end_.toInt

def Apart (i j : Interval) : Prop := ∀ key, ¬(i.Contains key ∧ j.Contains key)

/-- The interval begins below zero and ends above. -/
def Spans (i : Interval) : Prop := i.start.toInt < 0 ∧ 0 ≤ i.end_.toInt

instance (i : Interval) (key : BitVec 64) : Decidable (i.Contains key) :=
  inferInstanceAs (Decidable (_ ∧ _))

instance (i : Interval) : Decidable i.Spans := inferInstanceAs (Decidable (_ ∧ _))

theorem apart_of_lt {i j : Interval} (h : i.end_.toInt < j.start.toInt) : i.Apart j := by
  rintro key ⟨⟨-, hi⟩, ⟨hj, -⟩⟩
  omega

instance : Std.Symm Apart := ⟨fun _ _ h key hkey ↦ h key hkey.symm⟩

theorem contains_iff {i : Interval} {key : BitVec 64} (hkey : i.Contains key) (h : ¬i.Spans)
    (q : BitVec 64) : i.Contains q ↔ i.start.toNat ≤ q.toNat ∧ q.toNat ≤ i.end_.toNat := by
  simp only [Contains, Spans, BitVec.toInt_eq_toNat_cond] at *
  have hs := i.start.isLt
  have he := i.end_.isLt
  have hq := q.isLt
  split_ifs at * <;> omega

theorem not_reached {i : Interval} (h : i.Spans) (q : BitVec 64) :
    ¬(i.start.toNat ≤ q.toNat ∧ q.toNat ≤ i.end_.toNat) := by
  simp only [Spans, BitVec.toInt_eq_toNat_cond] at h
  have hs := i.start.isLt
  split_ifs at h <;> omega

end Interval

/-- Keys inside their intervals, and no two intervals that share a point. -/
structure Sound (ins : List (BitVec 64 × Interval)) : Prop where
  inside : ∀ e ∈ ins, e.2.Contains e.1
  apart : ins.Pairwise fun e e' ↦ e.2.Apart e'.2

theorem Sound.perm {ins ins' : List (BitVec 64 × Interval)} (h : Sound ins)
    (hp : List.Perm ins' ins) : Sound ins' :=
  ⟨fun e he ↦ h.inside e (hp.subset he),
    (hp.pairwise_iff fun hab ↦ Std.Symm.symm _ _ hab).mpr h.apart⟩

theorem Sound.inOrder {es : List (BitVec 64 × Interval)} (h : Sound es)
    (hspan : ∀ e ∈ es, ¬e.2.Spans) (hsorted : Sorted integer_key_cmp_func es) (q : BitVec 64) :
    Tree.InOrder (side q) es := by
  apply List.Pairwise.imp_of_mem _ (hsorted.and h.apart)
  rintro a b ha hb ⟨hle, hapart⟩
  have hab : a.1.toNat ≤ b.1.toNat := key_isLE.mp hle
  have hca := Interval.contains_iff (h.inside a ha) (hspan a ha)
  have hcb := Interval.contains_iff (h.inside b hb) (hspan b hb)
  have hka := (hca a.1).mp (h.inside a ha)
  have hkb := (hcb b.1).mp (h.inside b hb)
  constructor
  · intro hlt
    rw [side_lt] at hlt ⊢
    by_contra hge
    -- The start of the interval in front would lie in the one behind.
    exact hapart a.2.start ⟨(hca _).mpr (by omega), (hcb _).mpr (by omega)⟩
  · intro hgt
    rw [side_gt] at hgt ⊢
    refine ⟨by omega, ?_⟩
    by_contra hle'
    exact hapart b.2.end_ ⟨(hca _).mpr (by omega), (hcb _).mpr (by omega)⟩

/-! ## Insertions in any order -/

def inserted (rb : Rebalance (BitVec 64 × Interval)) (ins : List (BitVec 64 × Interval)) :
    IntervalMap := ins.foldl (fun tree e ↦ add rb tree e.1 e.2) RbTreeMap.empty

theorem entries_inserted (rb : Rebalance (BitVec 64 × Interval))
    (ins : List (BitVec 64 × Interval)) : List.Perm (inserted rb ins).entries ins := by
  induction ins using List.reverseRecOn with
  | nil => exact List.Perm.refl []
  | append_singleton ins e ih =>
    have hadd : inserted rb (ins ++ [e]) = add rb (inserted rb ins) e.1 e.2 := by
      simp [inserted]
    rw [hadd]
    apply (RbTreeMap.entries_add rb (inserted rb ins) e.1 e.2).trans
    exact (ih.cons e).trans (List.perm_append_singleton e ins).symm

/-- The search answers for every key with the interval that contains it, if there is one. -/
def Finds (rb : Rebalance (BitVec 64 × Interval)) (ins : List (BitVec 64 × Interval)) : Prop :=
  ∀ key i, search (inserted rb ins) key = some i ↔ i ∈ ins.map Prod.snd ∧ i.Contains key

theorem finds_of_not_spans {ins : List (BitVec 64 × Interval)}
    (rb : Rebalance (BitVec 64 × Interval)) (h : Sound ins) (hspan : ∀ e ∈ ins, ¬e.2.Spans) :
    Finds rb ins := by
  have hperm := entries_inserted rb ins
  have hmem (i : Interval) :
      i ∈ (inserted rb ins).entries.map Prod.snd ↔ i ∈ ins.map Prod.snd :=
    (hperm.map Prod.snd).mem_iff
  have hreads {i : Interval} (hi : i ∈ ins.map Prod.snd) (q : BitVec 64) :
      i.Contains q ↔ i.start.toNat ≤ q.toNat ∧ q.toNat ≤ i.end_.toNat := by
    obtain ⟨e, he, rfl⟩ := List.mem_map.mp hi
    exact Interval.contains_iff (h.inside e he) (hspan e he) q
  have hin (q : BitVec 64) : Tree.InOrder (side q) (inserted rb ins).entries :=
    (h.perm hperm).inOrder (fun e he ↦ hspan e (hperm.subset he)) (inserted rb ins).sorted q
  -- Two intervals that contain a point are one.
  have huniq {i j : Interval} (hi : i ∈ ins.map Prod.snd) (hj : j ∈ ins.map Prod.snd)
      (q : BitVec 64) (hiq : i.Contains q) (hjq : j.Contains q) : i = j := by
    have hp : (ins.map Prod.snd).Pairwise Interval.Apart := List.pairwise_map.mpr h.apart
    by_contra hne
    exact hp.forall hi hj hne q ⟨hiq, hjq⟩
  intro q i
  constructor
  · intro hs
    obtain ⟨hi, hq⟩ := search_some hs
    exact ⟨(hmem i).mp hi, (hreads ((hmem i).mp hi) q).mpr hq⟩
  · rintro ⟨hi, hq⟩
    cases hs : search (inserted rb ins) q with
    | none =>
      exact absurd ((hreads hi q).mp hq) (search_none (hin q) hs ((hmem i).mpr hi))
    | some j =>
      obtain ⟨hj, hjq⟩ := search_some hs
      have hj' := (hmem j).mp hj
      rw [huniq hj' hi q ((hreads hj' q).mpr hjq) hq]

/-- The search finds what it should exactly where no interval reaches from below zero to above. -/
theorem finds_iff {ins : List (BitVec 64 × Interval)} (rb : Rebalance (BitVec 64 × Interval))
    (h : Sound ins) : Finds rb ins ↔ ∀ e ∈ ins, ¬e.2.Spans := by
  constructor
  · intro hf e he hspan
    have hstart : e.2.Contains e.2.start := by
      obtain ⟨hs, hend⟩ := h.inside e he
      exact ⟨Int.le_refl _, Int.le_trans hs hend⟩
    have hfound := (hf e.2.start e.2).mpr ⟨List.mem_map_of_mem he, hstart⟩
    obtain ⟨-, hreached⟩ := search_some hfound
    exact Interval.not_reached hspan _ hreached
  · exact finds_of_not_spans rb h

/-- Three intervals with keys at the start, in the middle and at the end. -/
def tens : List (BitVec 64 × Interval) := [(15, ⟨10, 19, 1⟩), (0, ⟨0, 9, 0⟩), (39, ⟨30, 39, 3⟩)]

theorem sound_tens : Sound tens := by
  refine ⟨by decide, ?_⟩
  have h01 : Interval.Apart ⟨10, 19, 1⟩ ⟨0, 9, 0⟩ :=
    Std.Symm.symm _ _ (Interval.apart_of_lt (by decide))
  have h02 : Interval.Apart ⟨10, 19, 1⟩ ⟨30, 39, 3⟩ := Interval.apart_of_lt (by decide)
  have h12 : Interval.Apart ⟨0, 9, 0⟩ ⟨30, 39, 3⟩ := Interval.apart_of_lt (by decide)
  simp only [tens, List.pairwise_cons, List.forall_mem_cons]
  exact ⟨⟨h01, h02, by simp⟩, ⟨h12, by simp⟩, by simp, List.Pairwise.nil⟩

theorem finds_tens : Finds (.small _) tens :=
  (finds_iff (.small _) sound_tens).mpr (by decide)

/-- An interval from -5 to 10 holds 3, and the search does not find it there. -/
theorem not_finds : ∃ ins, Sound ins ∧ ¬Finds (.small _) ins := by
  let i : Interval := ⟨-5, 10, 0⟩
  refine ⟨[(0, i)], ⟨by decide, List.pairwise_singleton _ _⟩, ?_⟩
  intro h
  have hfound : search (inserted (.small _) [(0, i)]) 3 = some i :=
    (h 3 i).mpr ⟨by decide, by decide⟩
  have hnone : search (inserted (.small _) [(0, i)]) 3 = none := by decide
  rw [hnone] at hfound
  cases hfound

end IntervalTree

end Libobject
