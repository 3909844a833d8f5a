import Mathlib.Data.List.Pairwise
import Mathlib.Data.Nat.Basic
import Mathlib.Order.Basic
import Mathlib.Tactic.SplitIfs

/-!
# Lines of blocks

A line of places is cut into blocks of given lengths; a place is known by its block and its place in
it, and places are in the order of these two. An interval is tiled by intervals that lie one behind
the other, none of which goes over the bounds of a block.
-/

namespace Libobject

/-- The lengths of the blocks. -/
structure Ruler where
  len : ℕ → ℕ
  pos : ∀ k, 0 < len k

namespace Ruler

variable (b : Ruler)

def start : ℕ → ℕ
  | 0 => 0
  | k + 1 => start k + b.len k

/-- The block of the place `d` behind the start of the block `k`, and where it lies in it. -/
def locateFrom (k d : ℕ) : ℕ × ℕ :=
  if d < b.len k then (k, d) else locateFrom (k + 1) (d - b.len k)
termination_by d
decreasing_by
  have hpos := b.pos k
  omega

def locate (d : ℕ) : ℕ × ℕ := b.locateFrom 0 d

theorem locateFrom_spec (k d : ℕ) :
    b.start (b.locateFrom k d).1 + (b.locateFrom k d).2 = b.start k + d ∧
      (b.locateFrom k d).2 < b.len (b.locateFrom k d).1 := by
  induction k, d using locateFrom.induct b with
  | case1 k d h =>
    rw [locateFrom, if_pos h]
    exact ⟨rfl, h⟩
  | case2 k d h ih =>
    rw [locateFrom, if_neg h]
    refine ⟨ih.1.trans ?_, ih.2⟩
    rw [start]
    omega

theorem start_locate (d : ℕ) : b.start (b.locate d).1 + (b.locate d).2 = d := by
  have h := (b.locateFrom_spec 0 d).1
  rwa [start, Nat.zero_add] at h

theorem locate_lt (d : ℕ) : (b.locate d).2 < b.len (b.locate d).1 := (b.locateFrom_spec 0 d).2

variable {b}

theorem start_mono {k k' : ℕ} (h : k ≤ k') : b.start k ≤ b.start k' := by
  induction h with
  | refl => exact Nat.le_refl _
  | step _ ih => exact ih.trans (Nat.le_add_right _ _)

theorem lt_of_block_lt {k k' r : ℕ} (hr : r < b.len k) (h : k < k') (r' : ℕ) :
    b.start k + r < b.start k' + r' := by
  have hnext : b.start (k + 1) ≤ b.start k' := start_mono h
  rw [start] at hnext
  omega

theorem compare_place {k k' r r' : ℕ} (hr : r < b.len k) (hr' : r' < b.len k') :
    compare (b.start k + r) (b.start k' + r') = (compare k k').then (compare r r') := by
  rcases Nat.lt_trichotomy k k' with h | rfl | h
  · rw [Nat.compare_eq_lt.mpr h, Nat.compare_eq_lt.mpr (lt_of_block_lt hr h r')]
    rfl
  · rw [Nat.compare_eq_eq.mpr (rfl : k = k), Ordering.eq_then]
    rcases Nat.lt_trichotomy r r' with h | rfl | h
    · rw [Nat.compare_eq_lt.mpr h, Nat.compare_eq_lt.mpr (by omega)]
    · rw [Nat.compare_eq_eq.mpr (rfl : r = r), Nat.compare_eq_eq.mpr rfl]
    · rw [Nat.compare_eq_gt.mpr h, Nat.compare_eq_gt.mpr (by omega)]
  · rw [Nat.compare_eq_gt.mpr h, Nat.compare_eq_gt.mpr (lt_of_block_lt hr' h r)]
    rfl

theorem locate_place {k r : ℕ} (hr : r < b.len k) : b.locate (b.start k + r) = (k, r) := by
  have hspec := b.start_locate (b.start k + r)
  have hlt := b.locate_lt (b.start k + r)
  have hcmp := compare_place hlt hr
  rw [hspec, Nat.compare_eq_eq.mpr rfl] at hcmp
  obtain ⟨hk, hr'⟩ := Ordering.then_eq_eq.mp hcmp.symm
  exact Prod.ext (Nat.compare_eq_eq.mp hk) (Nat.compare_eq_eq.mp hr')

end Ruler

theorem compare_digit {n q q' r r' : ℕ} (hr : r < n) (hr' : r' < n) :
    compare (q * n + r) (q' * n + r') = (compare q q').then (compare r r') := by
  let b : Ruler := ⟨fun _ ↦ n, fun _ ↦ Nat.zero_lt_of_lt hr⟩
  have hstart (k : ℕ) : b.start k = k * n := by
    induction k with
    | zero => exact (Nat.zero_mul n).symm
    | succ k ih => rw [Ruler.start, ih, Nat.succ_mul]
  have h := @Ruler.compare_place b q q' r r' hr hr'
  rwa [hstart, hstart] at h

/-! ## Tilings -/

/-- The intervals `ps` are consecutive and without a common place, each lies in one piece for
`same`, and together they are the interval from `s` to `e`. -/
structure Tiles (same : ℕ → ℕ → Prop) (s e : ℕ) (ps : List (ℕ × ℕ)) : Prop where
  first : ps.head?.map Prod.fst = some s
  proper : ∀ p ∈ ps, p.1 ≤ p.2 ∧ same p.1 p.2
  consecutive : ps.IsChain fun p q ↦ q.1 = p.2 + 1
  apart : ps.Pairwise fun p q ↦ p.2 < q.1
  covers : ∀ t, s ≤ t ∧ t ≤ e ↔ ∃ p ∈ ps, p.1 ≤ t ∧ t ≤ p.2

namespace Tiles

variable {same : ℕ → ℕ → Prop} {s m e : ℕ} {ps : List (ℕ × ℕ)}

theorem single (h : s ≤ e) (hsame : same s e) : Tiles same s e [(s, e)] where
  first := rfl
  proper := by simpa using ⟨h, hsame⟩
  consecutive := by simp
  apart := by simp
  covers := by simp

theorem le (h : Tiles same s e ps) : s ≤ e := by
  cases ps with
  | nil => cases h.first
  | cons p ps =>
    obtain rfl : p.1 = s := Option.some.inj h.first
    have hp := (h.proper p List.mem_cons_self).1
    exact ((h.covers p.1).mpr ⟨p, List.mem_cons_self, Nat.le_refl _, hp⟩).2

theorem cons (h : Tiles same (m + 1) e ps) (hle : s ≤ m) (hsame : same s m) :
    Tiles same s e ((s, m) :: ps) where
  first := rfl
  proper := by
    intro p hp
    rcases List.mem_cons.mp hp with rfl | hp
    · exact ⟨hle, hsame⟩
    · exact h.proper p hp
  consecutive := by
    cases ps with
    | nil => simp
    | cons p ps =>
      obtain hp : p.1 = m + 1 := Option.some.inj h.first
      exact List.isChain_cons_cons.mpr ⟨hp, h.consecutive⟩
  apart := by
    refine List.pairwise_cons.mpr ⟨fun p hp ↦ ?_, h.apart⟩
    have hin := (h.covers p.1).mpr ⟨p, hp, Nat.le_refl _, (h.proper p hp).1⟩
    exact Nat.lt_of_succ_le hin.1
  covers := by
    intro t
    have hcovers := h.covers t
    have hme := h.le
    simp only [List.mem_cons, exists_eq_or_imp, ← hcovers]
    omega

theorem mem_le (h : Tiles same s e ps) {p : ℕ × ℕ} (hp : p ∈ ps) : p.1 ≤ e :=
  ((h.covers p.1).mpr ⟨p, hp, Nat.le_refl _, (h.proper p hp).1⟩).2

end Tiles

end Libobject
