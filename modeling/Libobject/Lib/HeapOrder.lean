import Mathlib.Data.List.Basic
import Mathlib.Order.Defs.Unbundled

/-!
# Binary heaps in lists

The element at `j` stands below the one at `(j - 1) / 2`, and in a heap none comes before the one
above it. While an element is on its way up or down the order may fail at the element only, and
those above it and below it are in order with each other.
-/

namespace Libobject

namespace HeapOrder

variable {α : Type*} (le : α → α → Prop)

/-- The element at `i` does not come behind the one at `j`, where there are both. -/
def InOrder (xs : List α) (i j : ℕ) : Prop := ∀ a b, xs[i]? = some a → xs[j]? = some b → le a b

def Ordered (xs : List α) : Prop := ∀ j, 0 < j → InOrder le xs ((j - 1) / 2) j

/-- The elements around `i` are in order without it. -/
def Around (xs : List α) (i : ℕ) : Prop :=
  0 < i → ∀ j, 0 < j → (j - 1) / 2 = i → InOrder le xs ((i - 1) / 2) j

/-- All but the element at `i` are in order with the one above. -/
structure Rising (xs : List α) (i : ℕ) : Prop where
  others : ∀ j, 0 < j → j ≠ i → InOrder le xs ((j - 1) / 2) j
  around : Around le xs i

/-- All but the element at `i` are in order with the ones below. -/
structure Sinking (xs : List α) (i : ℕ) : Prop where
  others : ∀ j, 0 < j → (j - 1) / 2 ≠ i → InOrder le xs ((j - 1) / 2) j
  around : Around le xs i

variable {le} {xs : List α} {i j : ℕ} {a b : α}

theorem inOrder_iff (ha : xs[i]? = some a) (hb : xs[j]? = some b) : InOrder le xs i j ↔ le a b := by
  refine ⟨fun h ↦ h a b ha hb, fun h a' b' ha' hb' ↦ ?_⟩
  cases ha.symm.trans ha'
  cases hb.symm.trans hb'
  exact h

theorem getElem?_exchange (ha : xs[i]? = some a) (hb : xs[j]? = some b) (k : ℕ) :
    ((xs.set i b).set j a)[k]? = if k = j then some a else if k = i then some b else xs[k]? := by
  obtain ⟨hi, -⟩ := List.getElem?_eq_some_iff.1 ha
  obtain ⟨hj, -⟩ := List.getElem?_eq_some_iff.1 hb
  rw [List.getElem?_set, List.getElem?_set, List.length_set]
  grind

theorem perm_exchange (ha : xs[i]? = some a) (hb : xs[j]? = some b) :
    ((xs.set i b).set j a).Perm xs := by
  obtain ⟨hi, rfl⟩ := List.getElem?_eq_some_iff.1 ha
  obtain ⟨hj, rfl⟩ := List.getElem?_eq_some_iff.1 hb
  exact List.set_set_perm hi hj

theorem Rising.ordered (h : Rising le xs i) (hi : i = 0 ∨ InOrder le xs ((i - 1) / 2) i) :
    Ordered le xs := by
  intro j hj
  by_cases hji : j = i
  · subst hji
    exact hi.resolve_left (by omega)
  · exact h.others j hj hji

theorem Rising.exchange [IsTrans α le] (h : Rising le xs i) (hi : 0 < i) (ha : xs[i]? = some a)
    (hb : xs[(i - 1) / 2]? = some b) (hle : le a b) :
    Rising le ((xs.set i b).set ((i - 1) / 2) a) ((i - 1) / 2) := by
  have hget := getElem?_exchange ha hb
  have htrans (x y z : α) (hxy : le x y) (hyz : le y z) : le x z := IsTrans.trans _ _ _ hxy hyz
  constructor
  · intro j hj hne x y hx hy
    rw [hget] at hx hy
    rw [if_neg hne] at hy
    by_cases hji : j = i
    · subst hji
      rw [if_pos rfl] at hx hy
      cases hx
      cases hy
      exact hle
    rw [if_neg hji] at hy
    by_cases hp : (j - 1) / 2 = (i - 1) / 2
    · rw [if_pos hp] at hx
      cases hx
      exact htrans _ _ _ hle (h.others j hj hji b y (by rw [hp]; exact hb) hy)
    rw [if_neg hp] at hx
    by_cases hq : (j - 1) / 2 = i
    · rw [if_pos hq] at hx
      cases hx
      exact h.around hi j hj hq b y hb hy
    · rw [if_neg hq] at hx
      exact h.others j hj hji x y hx hy
  · intro hp j hj hjp x y hx hy
    rw [hget] at hx hy
    rw [if_neg (by omega), if_neg (by omega)] at hx
    rw [if_neg (by omega)] at hy
    have hxb : le x b := h.others ((i - 1) / 2) hp (by omega) x b hx hb
    by_cases hji : j = i
    · rw [if_pos hji] at hy
      cases hy
      exact hxb
    · rw [if_neg hji] at hy
      exact htrans _ _ _ hxb (h.others j hj hji b y (by rw [hjp]; exact hb) hy)

theorem Sinking.ordered (h : Sinking le xs i)
    (hi : ∀ j, 0 < j → (j - 1) / 2 = i → InOrder le xs i j) : Ordered le xs := by
  intro j hj
  by_cases hji : (j - 1) / 2 = i
  · rw [hji]
    exact hi j hj hji
  · exact h.others j hj hji

theorem Sinking.exchange [IsTrans α le] (h : Sinking le xs i) {c : ℕ} (hc : 0 < c)
    (hci : (c - 1) / 2 = i) (ha : xs[i]? = some a) (hb : xs[c]? = some b) (hle : le b a)
    (hleast : ∀ j, 0 < j → (j - 1) / 2 = i → ∀ y, xs[j]? = some y → le b y) :
    Sinking le ((xs.set i b).set c a) c := by
  have hget := getElem?_exchange ha hb
  have hne : i ≠ c := by omega
  constructor
  · intro j hj hjc x y hx hy
    rw [hget] at hx hy
    rw [if_neg hjc] at hx
    by_cases hi : (j - 1) / 2 = i
    · rw [if_pos hi] at hx
      cases hx
      by_cases hj' : j = c
      · rw [if_pos hj'] at hy
        cases hy
        exact hle
      · rw [if_neg hj', if_neg (by omega)] at hy
        exact hleast j hj hi _ hy
    rw [if_neg hi] at hx
    rw [if_neg (by omega)] at hy
    by_cases hj' : j = i
    · rw [if_pos hj'] at hy
      cases hy
      subst hj'
      exact h.around hj c hc hci x b hx hb
    · rw [if_neg hj'] at hy
      exact h.others j hj hi x y hx hy
  · intro _ j hj hjc x y hx hy
    rw [hget] at hx hy
    rw [if_neg (by omega), if_pos hci] at hx
    rw [if_neg (by omega), if_neg (by omega)] at hy
    cases hx
    exact h.others j hj (by omega) b y (by rw [hjc]; exact hb) hy

theorem Ordered.sinking_root (h : Ordered le xs) (a : α) : Sinking le (xs.set 0 a) 0 where
  others j hj hup b c hb hc := by
    rw [List.getElem?_set_ne (Ne.symm hup)] at hb
    rw [List.getElem?_set_ne (Nat.ne_of_lt hj)] at hc
    exact h j hj b c hb hc
  around h0 := absurd h0 (Nat.lt_irrefl 0)

theorem Ordered.root_le [Std.Total le] [IsTrans α le] (h : Ordered le xs) (ha : xs[0]? = some a)
    {j : ℕ} {b : α} (hb : xs[j]? = some b) : le a b := by
  induction j using Nat.strongRecOn generalizing b with
  | ind j ih =>
    rcases Nat.eq_zero_or_pos j with rfl | hj
    · cases ha.symm.trans hb
      exact (Std.Total.total a a).elim id id
    · obtain ⟨hlt, -⟩ := List.getElem?_eq_some_iff.1 hb
      have hup : xs[(j - 1) / 2]? = some xs[(j - 1) / 2] := List.getElem?_eq_getElem (by omega)
      exact IsTrans.trans _ _ _ (ih _ (by omega) hup) (h j hj _ _ hup hb)

theorem Ordered.sublist_left {ys : List α} (h : Ordered le (xs ++ ys)) : Ordered le xs := by
  intro j hj x y hx hy
  obtain ⟨hlt, -⟩ := List.getElem?_eq_some_iff.1 hy
  obtain ⟨hlt', -⟩ := List.getElem?_eq_some_iff.1 hx
  apply h j hj x y
  · rwa [List.getElem?_append_left hlt']
  · rwa [List.getElem?_append_left hlt]

end HeapOrder

end Libobject
