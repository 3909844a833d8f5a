import Mathlib.Data.Set.Insert
import Mathlib.Logic.Function.Basic

/-!
# Leases of addresses

An allocator hands out the addresses of a set `pool` to clients. `table` is the set of addresses
it has recorded as given out and `held i` is the address that client `i` uses. A client may also
come by an address on its own; the allocator then knows nothing of it.

`Exclusive` is what keeps two clients apart, and `Tight` says that nothing is recorded in vain.
-/

namespace Libobject.Lease

variable {ι α : Type*} [DecidableEq ι]

/-- No two clients hold one address, and a pool address that is held is recorded. -/
structure Exclusive (pool : Set α) (table : Set α) (held : ι → Option α) : Prop where
  inj : ∀ {i j : ι} {a : α}, held i = some a → held j = some a → i = j
  recorded : ∀ {i : ι} {a : α}, held i = some a → a ∈ pool → a ∈ table

/-- Every recorded address is held by some client. -/
def Tight (table : Set α) (held : ι → Option α) : Prop := ∀ a ∈ table, ∃ i, held i = some a

/-- The table after client `i` gave its address back. -/
def returned (table : Set α) (held : ι → Option α) (i : ι) : Set α :=
  {a | a ∈ table ∧ held i ≠ some a}

variable {pool table : Set α} {held : ι → Option α} {i : ι} {a : α}

omit [DecidableEq ι] in
theorem exclusive_empty : Exclusive pool ∅ (fun _ : ι ↦ (none : Option α)) where
  inj := by simp
  recorded := by simp

omit [DecidableEq ι] in
theorem Exclusive.not_held (h : Exclusive pool table held) (hpool : a ∈ pool) (ha : a ∉ table)
    (j : ι) : held j ≠ some a :=
  fun hj ↦ ha (h.recorded hj hpool)

theorem Exclusive.take {table' : Set α} (h : Exclusive pool table held)
    (hfree : ∀ j, j ≠ i → held j ≠ some a) (hsub : table ⊆ table') (ha : a ∈ pool → a ∈ table') :
    Exclusive pool table' (Function.update held i (some a)) where
  inj := by
    have hown : ∀ {j k : ι} {b : α}, Function.update held i (some a) j = some b →
        Function.update held i (some a) k = some b → j = i → k = i := by
      rintro j k b hj hk rfl
      by_contra hki
      rw [Function.update_self, Option.some.injEq] at hj
      rw [Function.update_of_ne hki] at hk
      exact hfree k hki (hj ▸ hk)
    intro j k b hj hk
    by_cases hji : j = i
    · exact hji.trans (hown hj hk hji).symm
    · have hki : k ≠ i := fun hki ↦ hji (hown hk hj hki)
      rw [Function.update_of_ne hji] at hj
      rw [Function.update_of_ne hki] at hk
      exact h.inj hj hk
  recorded := by
    intro j b hj hb
    rcases eq_or_ne j i with rfl | hji
    · simp only [Function.update_self, Option.some.injEq] at hj
      subst hj
      exact ha hb
    · rw [Function.update_of_ne hji] at hj
      exact hsub (h.recorded hj hb)

theorem Exclusive.give (h : Exclusive pool table held) (hpool : a ∈ pool) (ha : a ∉ table) :
    Exclusive pool (insert a table) (Function.update held i (some a)) :=
  h.take (fun j _ ↦ h.not_held hpool ha j) (Set.subset_insert a table)
    (fun _ ↦ Set.mem_insert a table)

theorem Tight.give (h : Tight table held) (hi : held i = none) :
    Tight (insert a table) (Function.update held i (some a)) := by
  rintro b (rfl | hb)
  · exact ⟨i, by simp⟩
  · obtain ⟨j, hj⟩ := h b hb
    have hji : j ≠ i := by
      rintro rfl
      simp [hi] at hj
    exact ⟨j, by rw [Function.update_of_ne hji, hj]⟩

theorem Exclusive.drop {table' : Set α} (h : Exclusive pool table held)
    (hsub : returned table held i ⊆ table') :
    Exclusive pool table' (Function.update held i none) where
  inj := by
    intro j k b hj hk
    have hji : j ≠ i := by rintro rfl; simp at hj
    have hki : k ≠ i := by rintro rfl; simp at hk
    rw [Function.update_of_ne hji] at hj
    rw [Function.update_of_ne hki] at hk
    exact h.inj hj hk
  recorded := by
    intro j b hj hb
    have hji : j ≠ i := by rintro rfl; simp at hj
    rw [Function.update_of_ne hji] at hj
    exact hsub ⟨h.recorded hj hb, fun hi ↦ hji (h.inj hj hi)⟩

theorem Tight.drop (h : Tight table held) :
    Tight (returned table held i) (Function.update held i none) := by
  rintro b ⟨hb, hne⟩
  obtain ⟨j, hj⟩ := h b hb
  have hji : j ≠ i := by
    rintro rfl
    exact hne hj
  exact ⟨j, by rw [Function.update_of_ne hji, hj]⟩

theorem Tight.take (h : Tight table held) (hi : held i = none) :
    Tight table (Function.update held i (some a)) := by
  intro b hb
  obtain ⟨j, hj⟩ := h b hb
  have hji : j ≠ i := by
    rintro rfl
    simp [hi] at hj
  exact ⟨j, by rw [Function.update_of_ne hji, hj]⟩

end Libobject.Lease
