import Mathlib.Data.List.Pairwise
import Mathlib.Logic.Function.Basic
import Mathlib.Data.Nat.Basic
import Libobject.Core.RbTreeMap

/-!
# Maps that point to what they own

The values of the map are pointers to blocks that the owner of the map allocates and frees itself,
and the key of an entry is a text inside its block. A call is `none` where it touches a block that
is not live; a comparison of keys may touch the block of any entry.
-/

namespace Libobject

open Std

structure OwnedMap {K : Type*} (cmp : K → K → Ordering) (V : Type*) where
  map : RbTreeMap cmp ℕ
  heap : List (Option V)

namespace OwnedMap

variable {K V : Type*} {cmp : K → K → Ordering}

def empty : OwnedMap cmp V := ⟨.empty, []⟩

/-- The live block at an address. -/
def load (m : OwnedMap cmp V) (a : ℕ) : Option V := m.heap[a]?.join

def entries (m : OwnedMap cmp V) : List (K × ℕ) := m.map.entries

def keysLive (m : OwnedMap cmp V) : Bool := m.entries.all fun e ↦ (m.load e.2).isSome

def search (m : OwnedMap cmp V) (k : K) : Option (Option ℕ) :=
  if m.keysLive then some (m.map.search k) else none

/-- A new block is filled and added under its key. -/
def insert [TransCmp cmp] (rb : Rebalance (K × ℕ)) (m : OwnedMap cmp V) (k : K) (v : V) :
    Option (OwnedMap cmp V) :=
  if m.keysLive then some ⟨m.map.add rb k m.heap.length, m.heap ++ [some v]⟩ else none

def store (m : OwnedMap cmp V) (a : ℕ) (v : V) : Option (OwnedMap cmp V) :=
  if (m.load a).isSome then some { m with heap := m.heap.set a (some v) } else none

def del (rb : Rebalance (K × ℕ)) (m : OwnedMap cmp V) (k : K) : Option (OwnedMap cmp V) :=
  if m.keysLive then some { m with map := m.map.del rb k } else none

def free (m : OwnedMap cmp V) (a : ℕ) : Option (OwnedMap cmp V) :=
  if (m.load a).isSome then some { m with heap := m.heap.set a none } else none

/-- An entry is deleted by its key and its block is freed behind that. -/
def erase (rb : Rebalance (K × ℕ)) (m : OwnedMap cmp V) (k : K) (a : ℕ) :
    Option (OwnedMap cmp V) :=
  (m.del rb k).bind (·.free a)

/-! ## The function that a map represents -/

/-- Two entries with different keys and different blocks. -/
def Apart (d e : K × ℕ) : Prop := d.1 ≠ e.1 ∧ d.2 ≠ e.2

theorem Apart.symm {d e : K × ℕ} (h : Apart d e) : Apart e d := ⟨h.1.symm, h.2.symm⟩

instance : Std.Symm (@Apart K) := ⟨fun _ _ ↦ Apart.symm⟩

/-- No key and no block stands in two entries, the live blocks are those of the entries, and the
entries are those of the function. -/
structure Represents (m : OwnedMap cmp V) (f : K → Option V) : Prop where
  distinct : m.entries.Pairwise Apart
  value : ∀ e ∈ m.entries, ∃ v, m.load e.2 = some v ∧ f e.1 = some v
  entry : ∀ k v, f k = some v → ∃ a, (k, a) ∈ m.entries
  owned : ∀ a v, m.load a = some v → ∃ k, (k, a) ∈ m.entries

variable {m : OwnedMap cmp V} {f : K → Option V} {k : K} {a : ℕ} {v w : V}

theorem represents_empty : Represents (empty : OwnedMap cmp V) (fun _ ↦ none) where
  distinct := List.Pairwise.nil
  value := by simp [entries, empty]
  entry := by simp
  owned := by simp [load, empty]

theorem load_lt (h : m.load a = some v) : a < m.heap.length := by
  by_contra hge
  rw [load, List.getElem?_eq_none (by omega)] at h
  cases h

theorem mem_insert [TransCmp cmp] {rb : Rebalance (K × ℕ)} {m' : OwnedMap cmp V}
    (h : m.insert rb k v = some m') : (k, m.heap.length) ∈ m'.entries := by
  rw [insert] at h
  split at h
  · obtain rfl := Option.some.inj h
    exact (RbTreeMap.entries_add rb m.map k m.heap.length).mem_iff.mpr List.mem_cons_self
  · cases h

theorem load_set (h : m.load a = some v) (o : Option V) (b : ℕ) :
    (⟨m.map, m.heap.set a o⟩ : OwnedMap cmp V).load b = if b = a then o else m.load b := by
  have ha := load_lt h
  by_cases hb : b = a
  · subst hb
    simp [load, ha]
  · simp [load, hb, List.getElem?_set_ne (Ne.symm hb)]

namespace Represents

theorem keysLive (h : Represents m f) : m.keysLive = true := by
  rw [OwnedMap.keysLive, List.all_eq_true]
  intro e he
  obtain ⟨v, hv, -⟩ := h.value e he
  simp [hv]

theorem key_eq (h : Represents m f) {d e : K × ℕ} (hd : d ∈ m.entries) (he : e ∈ m.entries)
    (ha : d.2 = e.2) : d = e := by
  by_contra hne
  exact (h.distinct.forall hd he hne).2 ha

theorem addr_eq (h : Represents m f) {d e : K × ℕ} (hd : d ∈ m.entries) (he : e ∈ m.entries)
    (hk : d.1 = e.1) : d = e := by
  by_contra hne
  exact (h.distinct.forall hd he hne).1 hk

theorem search [TransCmp cmp] [LawfulEqCmp cmp] (h : Represents m f) (k : K) :
    (m.search k = some none ∧ f k = none) ∨
      ∃ a v, m.search k = some (some a) ∧ (k, a) ∈ m.entries ∧ m.load a = some v ∧
        f k = some v := by
  rw [OwnedMap.search, if_pos h.keysLive]
  cases hs : m.map.search k with
  | none =>
    refine Or.inl ⟨rfl, ?_⟩
    by_contra hne
    obtain ⟨v, hv⟩ := Option.ne_none_iff_exists'.mp hne
    obtain ⟨a, ha⟩ := h.entry k v hv
    exact RbTreeMap.search_none hs (k, a) ha ReflCmp.compare_self
  | some a =>
    obtain ⟨k', heq, hmem⟩ := RbTreeMap.search_some hs
    obtain rfl := LawfulEqCmp.eq_of_compare heq
    obtain ⟨v, hload, hv⟩ := h.value (k, a) hmem
    exact Or.inr ⟨a, v, rfl, hmem, hload, hv⟩

variable [DecidableEq K]

theorem insert [TransCmp cmp] (rb : Rebalance (K × ℕ)) (h : Represents m f) (hk : f k = none)
    (v : V) :
    ∃ m', m.insert rb k v = some m' ∧ Represents m' (Function.update f k (some v)) := by
  have hnew : ∀ e ∈ m.entries, e.1 ≠ k ∧ e.2 < m.heap.length := by
    intro e he
    obtain ⟨w, hload, hw⟩ := h.value e he
    refine ⟨?_, load_lt hload⟩
    rintro rfl
    rw [hk] at hw
    cases hw
  have hperm := RbTreeMap.entries_add rb m.map k m.heap.length
  have hmem : ∀ {e : K × ℕ}, e ∈ (m.map.add rb k m.heap.length).entries ↔
      e = (k, m.heap.length) ∨ e ∈ m.entries := fun {e} ↦ hperm.mem_iff.trans List.mem_cons
  have hload : ∀ b, (⟨m.map.add rb k m.heap.length, m.heap ++ [some v]⟩ : OwnedMap cmp V).load b =
      if b = m.heap.length then some v else m.load b := by
    intro b
    by_cases hb : b = m.heap.length
    · subst hb
      simp [load]
    · rcases Nat.lt_or_gt_of_ne hb with hlt | hgt
      · simp [load, hb, List.getElem?_append_left hlt]
      · have hlen : (m.heap ++ [some v]).length ≤ b := by
          rw [List.length_append, List.length_singleton]
          exact hgt
        simp [load, hb, List.getElem?_eq_none hlen, List.getElem?_eq_none (Nat.le_of_lt hgt)]
  refine ⟨⟨m.map.add rb k m.heap.length, m.heap ++ [some v]⟩, by
    rw [OwnedMap.insert, if_pos h.keysLive], ?_, ?_, ?_, ?_⟩
  · apply (hperm.pairwise_iff Apart.symm).mpr
    apply List.pairwise_cons.mpr
    refine ⟨fun e he ↦ ?_, h.distinct⟩
    obtain ⟨hne, hlt⟩ := hnew e he
    exact ⟨hne.symm, Nat.ne_of_gt hlt⟩
  · intro e he
    rcases hmem.mp he with rfl | he
    · exact ⟨v, by rw [hload, if_pos rfl], Function.update_self k (some v) f⟩
    · obtain ⟨hne, hlt⟩ := hnew e he
      rw [hload, if_neg (Nat.ne_of_lt hlt), Function.update_of_ne hne]
      exact h.value e he
  · intro k' w hw
    by_cases hk' : k' = k
    · exact ⟨m.heap.length, hmem.mpr (Or.inl (by rw [hk']))⟩
    · rw [Function.update_of_ne hk'] at hw
      obtain ⟨a, ha⟩ := h.entry k' w hw
      exact ⟨a, hmem.mpr (Or.inr ha)⟩
  · intro b w hb
    rw [hload] at hb
    split at hb
    · next heq => exact ⟨k, hmem.mpr (Or.inl (by rw [heq]))⟩
    · obtain ⟨k', hk'⟩ := h.owned b w hb
      exact ⟨k', hmem.mpr (Or.inr hk')⟩

theorem store (h : Represents m f) (hmem : (k, a) ∈ m.entries) (v : V) :
    ∃ m', m.store a v = some m' ∧ Represents m' (Function.update f k (some v)) := by
  obtain ⟨w, hload, -⟩ := h.value (k, a) hmem
  refine ⟨⟨m.map, m.heap.set a (some v)⟩, by simp [OwnedMap.store, hload], h.distinct, ?_, ?_, ?_⟩
  · intro e he
    rw [load_set hload]
    by_cases hea : e.2 = a
    · obtain rfl := h.key_eq he hmem hea
      exact ⟨v, if_pos rfl, Function.update_self k (some v) f⟩
    · have hek : e.1 ≠ k := fun hek ↦ hea (congrArg Prod.snd (h.addr_eq he hmem hek))
      rw [if_neg hea, Function.update_of_ne hek]
      exact h.value e he
  · intro k' w' hw'
    by_cases hk' : k' = k
    · exact ⟨a, hk' ▸ hmem⟩
    · rw [Function.update_of_ne hk'] at hw'
      exact h.entry k' w' hw'
  · intro b w' hb
    rw [load_set hload] at hb
    by_cases hba : b = a
    · exact ⟨k, hba ▸ hmem⟩
    · rw [if_neg hba] at hb
      exact h.owned b w' hb

theorem erase [TransCmp cmp] [LawfulEqCmp cmp] (rb : Rebalance (K × ℕ)) (h : Represents m f)
    (hs : m.search k = some (some a)) :
    ∃ m', m.erase rb k a = some m' ∧ Represents m' (Function.update f k none) := by
  have hfind : m.map.search k = some a := by simpa [OwnedMap.search, h.keysLive] using hs
  obtain ⟨k', heq, hperm⟩ := RbTreeMap.entries_del rb hfind
  obtain rfl := LawfulEqCmp.eq_of_compare heq
  have hmem : (k, a) ∈ m.entries := hperm.mem_iff.mpr List.mem_cons_self
  have hcons : ((k, a) :: (m.map.del rb k).entries).Pairwise Apart :=
    (hperm.pairwise_iff Apart.symm).mp h.distinct
  obtain ⟨hother, hrest⟩ := List.pairwise_cons.mp hcons
  have hkeep : ∀ {e : K × ℕ}, e ∈ m.entries → e.1 ≠ k ∨ e.2 ≠ a →
      e ∈ (m.map.del rb k).entries := by
    intro e he hne
    rcases List.mem_cons.mp (hperm.mem_iff.mp he) with rfl | he
    · rcases hne with hne | hne <;> exact (hne rfl).elim
    · exact he
  obtain ⟨w, hload, -⟩ := h.value (k, a) hmem
  have hload' : (⟨m.map.del rb k, m.heap⟩ : OwnedMap cmp V).load a = some w := hload
  refine ⟨⟨m.map.del rb k, m.heap.set a none⟩, ?_, hrest, ?_, ?_, ?_⟩
  · rw [OwnedMap.erase, OwnedMap.del, if_pos h.keysLive, Option.bind_some, OwnedMap.free]
    exact if_pos (by rw [hload']; rfl)
  · intro e he
    obtain ⟨hk, ha⟩ := hother e he
    rw [load_set hload', if_neg ha.symm, Function.update_of_ne hk.symm]
    exact h.value e (hperm.mem_iff.mpr (List.mem_cons_of_mem _ he))
  · intro k' w' hw'
    by_cases hk' : k' = k
    · rw [hk', Function.update_self] at hw'
      cases hw'
    · rw [Function.update_of_ne hk'] at hw'
      obtain ⟨b, hb⟩ := h.entry k' w' hw'
      exact ⟨b, hkeep hb (Or.inl hk')⟩
  · intro b w' hb
    rw [load_set hload'] at hb
    by_cases hba : b = a
    · rw [if_pos hba] at hb
      cases hb
    · rw [if_neg hba] at hb
      obtain ⟨k', hk'⟩ := h.owned b w' hb
      exact ⟨k', hkeep hk' (Or.inr hba)⟩

end Represents

end OwnedMap

end Libobject
