import Mathlib.Data.Set.Card
import Mathlib.Logic.Function.Basic
import Mathlib.Logic.Relation

/-!
# Forests of parent links

A forest is given by the parent of every node that has one. A node is below the nodes on its way
up and below itself; no node is properly below itself. What stands below a node changes by the
subtree that is hung in or taken out.
-/

namespace Libobject.Forest

open Relation

variable {α : Type*} (parent : α → Option α)

def Edge (a b : α) : Prop := parent b = some a

/-- `b` is `a` or stands under it. -/
def Below : α → α → Prop := ReflTransGen (Edge parent)

def Acyclic : Prop := ∀ a b, Edge parent a b → ¬Below parent b a

variable {parent} {parent' : α → Option α} {a b c p r x : α}

namespace Below

theorem refl (a : α) : Below parent a a := ReflTransGen.refl

theorem trans (hab : Below parent a b) (hbc : Below parent b c) : Below parent a c :=
  ReflTransGen.trans hab hbc

theorem tail (hab : Below parent a b) (hbc : parent c = some b) : Below parent a c :=
  ReflTransGen.tail hab hbc

theorem mono (h : ∀ a b, parent b = some a → parent' b = some a) (hab : Below parent a b) :
    Below parent' a b :=
  ReflTransGen.mono h _ _ hab

theorem eq_or_tail (h : Below parent a x) :
    x = a ∨ ∃ b, parent x = some b ∧ Below parent a b := by
  rcases ReflTransGen.cases_tail h with h | ⟨b, hb, hx⟩
  · exact .inl h
  · exact .inr ⟨b, hx, hb⟩

theorem eq_or_head (h : Below parent a x) :
    a = x ∨ ∃ b, parent b = some a ∧ Below parent b x :=
  ReflTransGen.cases_head h

theorem eq_of_top (htop : parent x = none) (h : Below parent a x) : x = a := by
  rcases h.eq_or_tail with h | ⟨b, hb, -⟩
  · exact h
  · rw [htop] at hb
    cases hb

theorem total (ha : Below parent a x) (hb : Below parent b x) :
    Below parent a b ∨ Below parent b a := by
  induction ha with
  | refl => exact .inr hb
  | tail ha hlink ih =>
    rcases hb.eq_or_tail with rfl | ⟨y, hy, hby⟩
    · exact .inl (ReflTransGen.tail ha hlink)
    · cases hlink.symm.trans hy
      exact ih hby

end Below

namespace Acyclic

theorem mono (hp : Acyclic parent) (h : ∀ a b, parent' b = some a → parent b = some a) :
    Acyclic parent' :=
  fun a b hedge hbelow ↦ hp a b (h a b hedge) (hbelow.mono h)

theorem siblings (hp : Acyclic parent) (hb : parent b = some a) (hc : parent c = some a)
    (hne : b ≠ c) (hbx : Below parent b x) : ¬Below parent c x := by
  intro hcx
  rcases hbx.total hcx with h | h
  · rcases h.eq_or_tail with h | ⟨y, hy, hby⟩
    · exact hne h.symm
    · cases hc.symm.trans hy
      exact hp a b hb hby
  · rcases h.eq_or_tail with h | ⟨y, hy, hcy⟩
    · exact hne h
    · cases hb.symm.trans hy
      exact hp a c hc hcy

end Acyclic

section Attach

variable [DecidableEq α]

theorem update_of_ne {q : Option α} (hne : x ≠ c) : Function.update parent c q x = parent x :=
  Function.update_of_ne hne q parent

theorem update_self {q : Option α} : Function.update parent c q c = q :=
  Function.update_self c q parent

theorem below_attach (hc : parent c = none) :
    Below (Function.update parent c (some p)) a x ↔
      Below parent a x ∨ Below parent a p ∧ Below parent c x := by
  have hmono : ∀ a b, parent b = some a → Function.update parent c (some p) b = some a := by
    intro a b h
    rwa [update_of_ne]
    rintro rfl
    rw [hc] at h
    cases h
  constructor
  · intro h
    induction h with
    | refl => exact .inl (.refl a)
    | @tail b x _ hlink ih =>
      by_cases hx : x = c
      · subst hx
        rw [Edge, update_self] at hlink
        cases hlink
        refine .inr ⟨?_, .refl x⟩
        rcases ih with h | h
        · exact h
        · exact h.1
      · rw [Edge, update_of_ne hx] at hlink
        rcases ih with h | h
        · exact .inl (h.tail hlink)
        · exact .inr ⟨h.1, h.2.tail hlink⟩
  · rintro (h | ⟨hap, hcx⟩)
    · exact h.mono hmono
    · exact ((hap.mono hmono).tail update_self).trans (hcx.mono hmono)

theorem acyclic_attach (hp : Acyclic parent) (hc : parent c = none) (hcp : ¬Below parent c p) :
    Acyclic (Function.update parent c (some p)) := by
  intro a b hedge hbelow
  rw [below_attach hc] at hbelow
  by_cases hb : b = c
  · subst hb
    rw [Edge, update_self] at hedge
    cases hedge
    rcases hbelow with h | h
    · exact hcp h
    · exact hcp h.1
  · rw [Edge, update_of_ne hb] at hedge
    rcases hbelow with h | h
    · exact hp a b hedge h
    · exact hcp ((h.2.tail hedge).trans h.1)

theorem card_attach (hr : parent r = none) (hc : parent c = none) (hne : r ≠ c)
    (hrp : Below parent r p) (hfin : {x | Below parent r x}.Finite)
    (hfin' : {x | Below parent c x}.Finite) :
    {x | Below (Function.update parent c (some p)) r x}.ncard =
      {x | Below parent r x}.ncard + {x | Below parent c x}.ncard := by
  have hsplit : {x | Below (Function.update parent c (some p)) r x} =
      {x | Below parent r x} ∪ {x | Below parent c x} := by
    ext x
    rw [Set.mem_ofPred_eq, below_attach hc, Set.mem_union, Set.mem_ofPred_eq, Set.mem_ofPred_eq]
    constructor
    · rintro (h | h)
      · exact .inl h
      · exact .inr h.2
    · rintro (h | h)
      · exact .inl h
      · exact .inr ⟨hrp, h⟩
  rw [hsplit, Set.ncard_union_eq _ hfin hfin']
  rw [Set.disjoint_left]
  intro x hrx hcx
  rcases Below.total hrx hcx with h | h
  · exact hne (h.eq_of_top hc).symm
  · exact hne (h.eq_of_top hr)

theorem below_detach (hp : Acyclic parent) (hc : Below parent r c) (hne : r ≠ c) :
    Below (Function.update parent c none) r x ↔ Below parent r x ∧ ¬Below parent c x := by
  constructor
  · intro h
    induction h with
    | refl =>
      refine ⟨.refl r, ?_⟩
      intro hcr
      rcases hc.eq_or_head with h | ⟨b, hb, hbc⟩
      · exact hne h
      · exact hp r b hb (hbc.trans hcr)
    | @tail b x _ hlink ih =>
      have hx : x ≠ c := by
        rintro rfl
        rw [Edge, update_self] at hlink
        cases hlink
      rw [Edge, update_of_ne hx] at hlink
      refine ⟨ih.1.tail hlink, ?_⟩
      intro hcx
      rcases hcx.eq_or_tail with h | ⟨y, hy, hcy⟩
      · exact hx h
      · cases hlink.symm.trans hy
        exact ih.2 hcy
  · rintro ⟨hrx, hcx⟩
    induction hrx with
    | refl => exact .refl r
    | @tail b x hrb hlink ih =>
      have hx : x ≠ c := by
        rintro rfl
        exact hcx (.refl x)
      have hlink' : Function.update parent c none x = some b := by
        rw [update_of_ne hx]
        exact hlink
      exact (ih fun hcb ↦ hcx (hcb.tail hlink)).tail hlink'

theorem below_detach_self (hp : Acyclic parent) :
    Below (Function.update parent c none) c x ↔ Below parent c x := by
  constructor
  · apply Below.mono
    intro a b h
    by_cases hb : b = c
    · subst hb
      rw [update_self] at h
      cases h
    · rwa [update_of_ne hb] at h
  · intro h
    induction h with
    | refl => exact .refl c
    | @tail b x hcb hlink ih =>
      apply ih.tail
      rw [update_of_ne]
      · exact hlink
      · rintro rfl
        exact hp b x hlink hcb

theorem acyclic_detach (hp : Acyclic parent) : Acyclic (Function.update parent c none) := by
  apply hp.mono
  intro a b h
  by_cases hb : b = c
  · subst hb
    rw [update_self] at h
    cases h
  · rwa [update_of_ne hb] at h

theorem card_detach (hp : Acyclic parent) (hc : Below parent r c) (hne : r ≠ c)
    (hfin : {x | Below parent r x}.Finite) :
    {x | Below (Function.update parent c none) r x}.ncard + {x | Below parent c x}.ncard =
      {x | Below parent r x}.ncard := by
  have hsplit : {x | Below (Function.update parent c none) r x} =
      {x | Below parent r x} \ {x | Below parent c x} := by
    ext x
    rw [Set.mem_ofPred_eq, below_detach hp hc hne]
    rfl
  have hsub : {x | Below parent c x} ⊆ {x | Below parent r x} := fun x h ↦ hc.trans h
  rw [hsplit]
  exact Set.ncard_sdiff_add_ncard_of_subset hsub hfin

end Attach

section Cut

theorem below_cut (ht : ∀ x, Below parent c x → parent' x = none)
    (hkeep : ∀ x, ¬Below parent c x → parent' x = parent x) (hr : ¬Below parent c r)
    (hc : parent c = none) :
    Below parent' r x ↔ Below parent r x := by
  have hmono : ∀ a b, parent' b = some a → parent b = some a := by
    intro a b h
    by_cases hcb : Below parent c b
    · rw [ht b hcb] at h
      cases h
    · rwa [hkeep b hcb] at h
  refine ⟨fun h ↦ h.mono hmono, ?_⟩
  intro h
  have hnot : ∀ y, Below parent r y → ¬Below parent c y := by
    intro y hry hcy
    rcases hry.total hcy with h | h
    · exact hr (h.eq_of_top hc ▸ .refl c)
    · exact hr h
  induction h with
  | refl => exact .refl r
  | @tail b x hrb hlink ih =>
    refine ih.tail ?_
    rw [hkeep x (hnot x (ReflTransGen.tail hrb hlink))]
    exact hlink

end Cut

end Libobject.Forest
