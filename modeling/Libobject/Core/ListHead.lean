import Mathlib.Data.List.Chain
import Mathlib.Data.List.Nodup
import Mathlib.Logic.Function.Basic

/-!
# Circular doubly linked lists in memory

The cells of `list.h`: each has a next and a previous pointer and whatever the node around it
holds. Pointers are numbers, and touching a cell that is not allocated is undefined. The pointers
of an unlinked cell are the poison values, where no cell is ever allocated.
-/

namespace Libobject

structure Cells (D : Type) where
  live : ℕ → Bool
  next : ℕ → ℕ
  prev : ℕ → ℕ
  data : ℕ → Option D

def LIST_POISON1 : ℕ := 1

def LIST_POISON2 : ℕ := 2

namespace Cells

variable {D : Type}

def getNext (h : Cells D) (p : ℕ) : Option ℕ := if h.live p then some (h.next p) else none

def getPrev (h : Cells D) (p : ℕ) : Option ℕ := if h.live p then some (h.prev p) else none

/-- The payload of the node around the cell; a list head has none. -/
def getData (h : Cells D) (p : ℕ) : Option D := if h.live p then h.data p else none

def setNext (h : Cells D) (p v : ℕ) : Option (Cells D) :=
  if h.live p then some { h with next := Function.update h.next p v } else none

def setPrev (h : Cells D) (p v : ℕ) : Option (Cells D) :=
  if h.live p then some { h with prev := Function.update h.prev p v } else none

/-- A new node; its pointers are still whatever the memory held. -/
def alloc (h : Cells D) (p : ℕ) (d : D) : Cells D :=
  { h with live := Function.update h.live p true, data := Function.update h.data p (some d) }

def free (h : Cells D) (p : ℕ) : Option (Cells D) :=
  if h.live p then some { h with live := Function.update h.live p false } else none

def list_add (h : Cells D) (n prev next : ℕ) : Option (Cells D) := do
  let h ← h.setPrev next n
  let h ← h.setNext n next
  let h ← h.setPrev n prev
  h.setNext prev n

def list_add_after (h : Cells D) (n head : ℕ) : Option (Cells D) := do
  let next ← h.getNext head
  h.list_add n head next

def list_add_before (h : Cells D) (n head : ℕ) : Option (Cells D) := do
  let prev ← h.getPrev head
  h.list_add n prev head

def list_del (h : Cells D) (e : ℕ) : Option (Cells D) := do
  let prev ← h.getPrev e
  let next ← h.getNext e
  let h ← h.setPrev next prev
  let h ← h.setNext prev next
  let h ← h.setNext e LIST_POISON1
  h.setPrev e LIST_POISON2

def Linked (h : Cells D) (p q : ℕ) : Prop := h.next p = q ∧ h.prev q = p

/-- The cells `c` follow each other both ways; the first and the last one may be the same. -/
structure Ring (h : Cells D) (c : List ℕ) : Prop where
  chain : c.IsChain h.Linked
  live : ∀ p ∈ c, h.live p = true
  sources : c.dropLast.Nodup
  targets : c.tail.Nodup

theorem dropLast_split (xs ys : List ℕ) (p q : ℕ) :
    (xs ++ p :: q :: ys).dropLast = xs ++ p :: (q :: ys).dropLast := by
  rw [List.dropLast_append_of_ne_nil (by simp), List.dropLast_cons_of_ne_nil (by simp)]

theorem tail_split (xs ys : List ℕ) (p : ℕ) :
    (xs ++ p :: ys).tail = (xs ++ [p]).tail ++ ys := by
  cases xs <;> simp

theorem chain_frame {h h' : Cells D} {c : List ℕ} (hnext : ∀ p ∈ c.dropLast, h'.next p = h.next p)
    (hprev : ∀ q ∈ c.tail, h'.prev q = h.prev q) (hc : c.IsChain h.Linked) :
    c.IsChain h'.Linked := by
  induction c with
  | nil => exact List.IsChain.nil
  | cons p c ih =>
    cases c with
    | nil => exact List.IsChain.singleton p
    | cons q c =>
      rw [List.isChain_cons_cons] at hc ⊢
      obtain ⟨⟨hpq, hqp⟩, hrest⟩ := hc
      refine ⟨⟨?_, ?_⟩, ih ?_ ?_ hrest⟩
      · rw [hnext p (by simp), hpq]
      · rw [hprev q (by simp), hqp]
      · intro x hx
        exact hnext x (by simp [hx])
      · intro x hx
        exact hprev x (List.mem_of_mem_tail hx)

namespace Ring

variable {h : Cells D} {xs ys : List ℕ} {p q n e : ℕ}

theorem getNext (hr : Ring h (xs ++ p :: q :: ys)) : h.getNext p = some q := by
  have hlink := (List.isChain_append_cons_cons.mp hr.chain).2.1.1
  rw [Cells.getNext, if_pos (hr.live p (by simp)), hlink]

theorem getPrev (hr : Ring h (xs ++ p :: q :: ys)) : h.getPrev q = some p := by
  have hlink := (List.isChain_append_cons_cons.mp hr.chain).2.1.2
  rw [Cells.getPrev, if_pos (hr.live q (by simp)), hlink]

theorem unshared (hr : Ring h (xs ++ p :: q :: ys)) :
    p ∉ xs ∧ p ∉ (q :: ys).dropLast ∧ q ∉ (xs ++ [p]).tail ∧ q ∉ ys := by
  have hs := hr.sources
  have ht := hr.targets
  rw [dropLast_split, List.nodup_middle, List.nodup_cons, List.mem_append, not_or] at hs
  rw [tail_split, List.nodup_middle, List.nodup_cons, List.mem_append, not_or] at ht
  exact ⟨hs.1.1, hs.1.2, ht.1.1, ht.1.2⟩

theorem insert (hr : Ring h (xs ++ p :: q :: ys)) (hn : n ∉ xs ++ p :: q :: ys)
    (hlive : h.live n = true) :
    ∃ h', h.list_add n p q = some h' ∧ Ring h' (xs ++ p :: n :: q :: ys) ∧
      h'.live = h.live ∧ h'.data = h.data := by
  obtain ⟨hpx, hpy, hqx, hqy⟩ := hr.unshared
  have hp : h.live p = true := hr.live p (by simp)
  have hq : h.live q = true := hr.live q (by simp)
  have hnp : n ≠ p := by rintro rfl; exact hn (by simp)
  have hnq : n ≠ q := by rintro rfl; exact hn (by simp)
  have hnx : n ∉ xs := fun hx ↦ hn (by simp [hx])
  have hny : n ∉ ys := fun hy ↦ hn (by simp [hy])
  have hadd : h.list_add n p q = some { h with
      next := Function.update (Function.update h.next n q) p n
      prev := Function.update (Function.update h.prev q n) n p } := by
    simp [list_add, setPrev, setNext, hp, hq, hlive]
  refine ⟨_, hadd, ?_, rfl, rfl⟩
  obtain ⟨hleft, -, hright⟩ := List.isChain_append_cons_cons.mp hr.chain
  refine ⟨?_, ?_, ?_, ?_⟩
  · rw [List.isChain_append_cons_cons, List.isChain_cons_cons]
    refine ⟨?_, ⟨?_, ?_⟩, ⟨?_, ?_⟩, ?_⟩
    · apply chain_frame ?_ ?_ hleft
      · intro a ha
        rw [List.dropLast_concat] at ha
        have hap : a ≠ p := by rintro rfl; exact hpx ha
        have han : a ≠ n := by rintro rfl; exact hnx ha
        simp [hap, han]
      · intro b hb
        have hbq : b ≠ q := by rintro rfl; exact hqx hb
        have hbn : b ≠ n := by
          rintro rfl
          have := List.mem_of_mem_tail hb
          simp [hnx, hnp] at this
        simp [hbq, hbn]
    · simp
    · simp
    · simp [hnp]
    · simp [hnq.symm]
    · apply chain_frame ?_ ?_ hright
      · intro a ha
        have hap : a ≠ p := by rintro rfl; exact hpy ha
        have han : a ≠ n := by
          rintro rfl
          have := (List.dropLast_sublist _).subset ha
          simp [hnq, hny] at this
        simp [hap, han]
      · intro b hb
        rw [List.tail_cons] at hb
        have hbq : b ≠ q := by rintro rfl; exact hqy hb
        have hbn : b ≠ n := by rintro rfl; exact hny hb
        simp [hbq, hbn]
  · intro a ha
    by_cases han : a = n
    · rw [han]; exact hlive
    · exact hr.live a (by simpa [han] using ha)
  · have hs := hr.sources
    rw [dropLast_split] at hs
    rw [dropLast_split, List.dropLast_cons_of_ne_nil (by simp), List.append_cons,
      List.nodup_middle, List.nodup_cons, List.append_assoc, List.singleton_append]
    refine ⟨?_, hs⟩
    intro hmem
    apply hn
    rw [← List.dropLast_append_getLast (l := xs ++ p :: q :: ys) (by simp), dropLast_split]
    exact List.mem_append_left _ hmem
  · have ht := hr.targets
    rw [tail_split] at ht
    rw [tail_split, List.nodup_middle, List.nodup_cons]
    refine ⟨?_, ht⟩
    intro hmem
    rw [← tail_split] at hmem
    exact hn (List.mem_of_mem_tail hmem)

theorem erase (hr : Ring h (xs ++ p :: e :: q :: ys)) :
    ∃ h', h.list_del e = some h' ∧ Ring h' (xs ++ p :: q :: ys) ∧
      h'.live = h.live ∧ h'.data = h.data := by
  obtain ⟨hpx, hpy, hex, hey⟩ := hr.unshared
  have hr' : Ring h ((xs ++ [p]) ++ e :: q :: ys) := by simpa using hr
  obtain ⟨hep, heq, hqx, hqy⟩ := hr'.unshared
  have hp : h.live p = true := hr.live p (by simp)
  have he : h.live e = true := hr.live e (by simp)
  have hq : h.live q = true := hr.live q (by simp)
  have hpe : p ≠ e := by rintro rfl; exact hep (by simp)
  have hqe : q ≠ e := by rintro rfl; exact hey (by simp)
  have hprev := hr.getPrev
  have hnext := hr'.getNext
  have hdel : h.list_del e = some { h with
      next := Function.update (Function.update h.next p q) e LIST_POISON1
      prev := Function.update (Function.update h.prev q p) e LIST_POISON2 } := by
    simp [list_del, hprev, hnext, setPrev, setNext, hp, hq, he]
  refine ⟨_, hdel, ?_, rfl, rfl⟩
  obtain ⟨hleft, -, hright⟩ := List.isChain_append_cons_cons.mp hr.chain
  rw [List.isChain_cons_cons] at hright
  refine ⟨?_, ?_, ?_, ?_⟩
  · rw [List.isChain_append_cons_cons]
    refine ⟨?_, ⟨?_, ?_⟩, ?_⟩
    · apply chain_frame ?_ ?_ hleft
      · intro a ha
        rw [List.dropLast_concat] at ha
        have hap : a ≠ p := by rintro rfl; exact hpx ha
        have hae : a ≠ e := by rintro rfl; exact hep (by simp [ha])
        simp [hap, hae]
      · intro b hb
        have hbe : b ≠ e := by rintro rfl; exact hex hb
        have hbq : b ≠ q := by
          rintro rfl
          apply hqx
          rw [List.append_assoc, List.singleton_append, tail_split]
          exact List.mem_append_left _ hb
        simp [hbe, hbq]
    · simp [hpe]
    · simp [hqe]
    · apply chain_frame ?_ ?_ hright.2
      · intro a ha
        have hap : a ≠ p := by
          rintro rfl
          exact hpy (by simp [ha])
        have hae : a ≠ e := by rintro rfl; exact heq ha
        simp [hap, hae]
      · intro b hb
        rw [List.tail_cons] at hb
        have hbe : b ≠ e := by rintro rfl; exact hey (by simp [hb])
        have hbq : b ≠ q := by rintro rfl; exact hqy hb
        simp [hbe, hbq]
  · intro a ha
    apply hr.live a
    simp only [List.mem_append, List.mem_cons] at ha ⊢
    tauto
  · have hs := hr.sources
    rw [dropLast_split, List.dropLast_cons_of_ne_nil (by simp), List.append_cons,
      List.nodup_middle, List.nodup_cons, List.append_assoc, List.singleton_append] at hs
    rw [dropLast_split]
    exact hs.2
  · have ht := hr.targets
    rw [tail_split, List.nodup_middle, List.nodup_cons] at ht
    rw [tail_split]
    exact ht.2

theorem of_links {h' : Cells D} {c : List ℕ} (hr : h.Ring c)
    (hnext : h'.next = h.next) (hprev : h'.prev = h.prev) (hlive : ∀ p ∈ c, h'.live p = true) :
    h'.Ring c := by
  refine ⟨Cells.chain_frame ?_ ?_ hr.chain, hlive, hr.sources, hr.targets⟩
  · intro p _
    rw [hnext]
  · intro q _
    rw [hprev]

end Ring

end Cells

end Libobject
