import Mathlib.Order.WellFounded
import Mathlib.Tactic.Push

/-!
# Machines that end, go on or do something undefined

A machine whose moves are fixed by its state either ends or not. It ends if every state on the way
is good, where a good state ends or goes on to a smaller one, and from a bad state there is no end.
-/

namespace Libobject

/-- What a machine does in a state. `wild` is a move that is undefined. -/
inductive Move (S R : Type*)
  | next (s : S)
  | done (r : R)
  | wild

def Move.isWild {S R : Type*} : Move S R → Bool
  | .wild => true
  | _ => false

namespace Machine

variable {S R : Type*} (move : S → Move S R)

/-- The state after `n` moves, or where the machine stopped before. -/
def after : ℕ → S → Move S R
  | 0, s => .next s
  | n + 1, s =>
    match move s with
    | .next t => after n t
    | .done r => .done r
    | .wild => .wild

def Reaches (s t : S) : Prop := ∃ n, after move n s = .next t

/-- The machine ends, without an undefined move. -/
def Ends (s : S) : Prop := ∃ n r, after move n s = .done r

/-- Every move on the way leads to a state that is related to the one before. -/
def Always (P : S → S → Prop) (s : S) : Prop :=
  ∀ t u, Reaches move s t → move t = .next u → P t u

variable {move} {s t : S}

theorem after_succ_of_next (h : move s = .next t) (n : ℕ) :
    after move (n + 1) s = after move n t := by
  rw [after, h]

theorem reaches_self (s : S) : Reaches move s s := ⟨0, rfl⟩

theorem Reaches.head {u : S} (h : move s = .next t) (ht : Reaches move t u) : Reaches move s u := by
  obtain ⟨n, hn⟩ := ht
  exact ⟨n + 1, (after_succ_of_next h n).trans hn⟩

theorem Reaches.cases_head {u : S} (h : Reaches move s u) :
    u = s ∨ ∃ t, move s = .next t ∧ Reaches move t u := by
  obtain ⟨n, hn⟩ := h
  cases n with
  | zero => exact .inl (Move.next.inj hn).symm
  | succ n =>
    cases hmove : move s with
    | next t => exact .inr ⟨t, rfl, n, (after_succ_of_next hmove n).symm.trans hn⟩
    | done r =>
      rw [after, hmove] at hn
      cases hn
    | wild =>
      rw [after, hmove] at hn
      cases hn

theorem Reaches.keeps {P : S → Prop} (h : Reaches move s t)
    (hnext : ∀ s t, P s → move s = .next t → P t) (hs : P s) : P t := by
  obtain ⟨n, hn⟩ := h
  induction n generalizing s with
  | zero =>
    cases hn
    exact hs
  | succ n ih =>
    cases hmove : move s with
    | next u => exact ih (hnext s u hs hmove) ((after_succ_of_next hmove n).symm.trans hn)
    | done r =>
      rw [after, hmove] at hn
      cases hn
    | wild =>
      rw [after, hmove] at hn
      cases hn

theorem always_of_done {P : S → S → Prop} {r : R} (h : move s = .done r) : Always move P s := by
  intro t u ht hu
  rcases ht.cases_head with rfl | ⟨v, hv, -⟩
  · rw [h] at hu
    cases hu
  · rw [h] at hv
    cases hv

theorem always_iff_of_next {P : S → S → Prop} (h : move s = .next t) :
    Always move P s ↔ P s t ∧ Always move P t := by
  constructor
  · intro hs
    exact ⟨hs s t (reaches_self s) h, fun u v hu hv ↦ hs u v (hu.head h) hv⟩
  · rintro ⟨hfirst, ht⟩ u v hu hv
    rcases hu.cases_head with rfl | ⟨t', ht', hu'⟩
    · rw [h] at hv
      cases hv
      exact hfirst
    · rw [h] at ht'
      cases ht'
      exact ht u v hu' hv

theorem ends_of_done {r : R} (h : move s = .done r) : Ends move s := ⟨1, r, by rw [after, h]⟩

theorem done_iff_of_next {r : R} (h : move s = .next t) :
    (∃ n, after move n s = .done r) ↔ ∃ n, after move n t = .done r := by
  constructor
  · rintro ⟨n, hn⟩
    cases n with
    | zero => cases hn
    | succ n => exact ⟨n, (after_succ_of_next h n).symm.trans hn⟩
  · rintro ⟨n, hn⟩
    exact ⟨n + 1, (after_succ_of_next h n).trans hn⟩

theorem done_iff_of_reaches {r : R} (h : Reaches move s t) :
    (∃ n, after move n s = .done r) ↔ ∃ n, after move n t = .done r := by
  obtain ⟨k, hk⟩ := h
  induction k generalizing s with
  | zero =>
    obtain rfl : s = t := Move.next.inj hk
    exact Iff.rfl
  | succ k ih =>
    cases hmove : move s with
    | next u =>
      rw [done_iff_of_next hmove]
      exact ih ((after_succ_of_next hmove k).symm.trans hk)
    | done r' =>
      rw [after, hmove] at hk
      cases hk
    | wild =>
      rw [after, hmove] at hk
      cases hk

theorem ends_iff_of_next (h : move s = .next t) : Ends move s ↔ Ends move t := by
  constructor
  · rintro ⟨n, r, hn⟩
    obtain ⟨m, hm⟩ := (done_iff_of_next h).mp ⟨n, hn⟩
    exact ⟨m, r, hm⟩
  · rintro ⟨n, r, hn⟩
    obtain ⟨m, hm⟩ := (done_iff_of_next h).mpr ⟨n, hn⟩
    exact ⟨m, r, hm⟩

theorem done_unique {n m : ℕ} {r r' : R} (h : after move n s = .done r)
    (h' : after move m s = .done r') : r = r' := by
  induction n generalizing s m with
  | zero => cases h
  | succ n ih =>
    cases m with
    | zero => cases h'
    | succ m =>
      rw [after] at h h'
      cases hmove : move s with
      | next t =>
        rw [hmove] at h h'
        exact ih h h'
      | done r₀ =>
        rw [hmove] at h h'
        cases h
        cases h'
        rfl
      | wild =>
        rw [hmove] at h
        cases h

theorem not_ends_of_wild (h : move s = .wild) : ¬Ends move s := by
  rintro ⟨n, r, hn⟩
  cases n with
  | zero => cases hn
  | succ n =>
    rw [after, h] at hn
    cases hn

theorem not_ends_of_isWild {n : ℕ} (h : (after move n s).isWild = true) : ¬Ends move s := by
  induction n generalizing s with
  | zero => cases h
  | succ n ih =>
    cases hmove : move s with
    | next t =>
      rw [ends_iff_of_next hmove]
      rw [after_succ_of_next hmove] at h
      exact ih h
    | done r =>
      rw [after, hmove] at h
      cases h
    | wild => exact not_ends_of_wild hmove

theorem last_of_done {P : S → Prop} (hnext : ∀ s t, P s → move s = .next t → P t) (hs : P s)
    {n : ℕ} {r : R} (h : after move n s = .done r) : ∃ t, P t ∧ move t = .done r := by
  induction n generalizing s with
  | zero => cases h
  | succ n ih =>
    cases hmove : move s with
    | next t => exact ih (hnext s t hs hmove) ((after_succ_of_next hmove n).symm.trans h)
    | done r' =>
      rw [after, hmove] at h
      cases h
      exact ⟨s, hs, hmove⟩
    | wild =>
      rw [after, hmove] at h
      cases h

theorem not_ends_of_invariant {P : S → Prop} (hdone : ∀ s r, P s → move s ≠ .done r)
    (hnext : ∀ s t, P s → move s = .next t → P t) (hs : P s) : ¬Ends move s := by
  rintro ⟨n, r, hn⟩
  obtain ⟨t, ht, hmove⟩ := last_of_done hnext hs hn
  exact hdone t r ht hmove

theorem not_ends_of_forever {P : S → Prop} (hP : ∀ s, P s → ∃ t, move s = .next t ∧ P t)
    (hs : P s) : ¬Ends move s := by
  refine not_ends_of_invariant (fun s r h hdone ↦ ?_) (fun s t h hmove ↦ ?_) hs
  · obtain ⟨t, hmove, -⟩ := hP s h
    rw [hdone] at hmove
    cases hmove
  · obtain ⟨t', hmove', ht'⟩ := hP s h
    rw [hmove] at hmove'
    cases hmove'
    exact ht'

theorem ends_iff {α : Type*} [Preorder α] [WellFoundedLT α] (size : S → α) {Inv Good : S → Prop}
    (hgood : ∀ s, Inv s → Good s → (∃ r, move s = .done r) ∨
      ∃ t, move s = .next t ∧ Inv t ∧ size t < size s)
    (hbad : ∀ s, Inv s → ¬Good s → ¬Ends move s) (hs : Inv s) :
    Ends move s ↔ ∀ t, Reaches move s t → Good t := by
  constructor
  · rintro ⟨n, r, hn⟩
    induction n generalizing s with
    | zero => cases hn
    | succ n ih =>
      have hself : Good s := by
        by_contra hnot
        exact hbad s hs hnot ⟨n + 1, r, hn⟩
      intro u hu
      rcases hu.cases_head with rfl | ⟨t, hmove, htu⟩
      · exact hself
      · rcases hgood s hs hself with ⟨r', hdone⟩ | ⟨t', hmove', ht', -⟩
        · rw [hmove] at hdone
          cases hdone
        · rw [hmove] at hmove'
          cases hmove'
          exact ih ht' ((after_succ_of_next hmove n).symm.trans hn) u htu
  · intro h
    generalize ha : size s = a
    induction a using WellFoundedLT.induction generalizing s with
    | ind a ih =>
      subst ha
      rcases hgood s hs (h s (reaches_self s)) with ⟨r, hdone⟩ | ⟨t, hmove, ht, hlt⟩
      · exact ends_of_done hdone
      · rw [ends_iff_of_next hmove]
        exact ih (size t) hlt ht (fun u hu ↦ h u (hu.head hmove)) rfl

/-! ## Machines that move alike -/

section Similar

variable {T : Type*} {move' : T → Move T R} {Rel : S → T → Prop}

/-- From related states both machines end with the same result, or do something undefined, or go on
to related states. -/
def Similar (move : S → Move S R) (move' : T → Move T R) (Rel : S → T → Prop) : Prop :=
  ∀ s t, Rel s t → (∃ r, move s = .done r ∧ move' t = .done r) ∨
    (move s = .wild ∧ move' t = .wild) ∨
      ∃ s' t', move s = .next s' ∧ move' t = .next t' ∧ Rel s' t'

variable {t : T}

theorem Similar.after_eq_done_iff (h : Similar move move' Rel) (hst : Rel s t) (n : ℕ) {r : R} :
    after move n s = .done r ↔ after move' n t = .done r := by
  induction n generalizing s t with
  | zero => exact iff_of_false (fun h ↦ by cases h) fun h ↦ by cases h
  | succ n ih =>
    rw [after, after]
    rcases h s t hst with ⟨r', hs, ht⟩ | ⟨hs, ht⟩ | ⟨s', t', hs, ht, hst'⟩
    · rw [hs, ht]
      exact ⟨fun h ↦ congrArg Move.done (Move.done.inj h),
        fun h ↦ congrArg Move.done (Move.done.inj h)⟩
    · rw [hs, ht]
      exact iff_of_false (fun h ↦ by cases h) fun h ↦ by cases h
    · rw [hs, ht]
      exact ih hst'

theorem Similar.done_iff (h : Similar move move' Rel) (hst : Rel s t) {r : R} :
    (∃ n, after move n s = .done r) ↔ ∃ n, after move' n t = .done r :=
  exists_congr fun n ↦ h.after_eq_done_iff hst n

theorem Similar.ends_iff (h : Similar move move' Rel) (hst : Rel s t) :
    Ends move s ↔ Ends move' t :=
  exists_congr fun n ↦ exists_congr fun _ ↦ h.after_eq_done_iff hst n

theorem Similar.reaches (h : Similar move move' Rel) (hst : Rel s t) {u : S}
    (hu : Reaches move s u) : ∃ v, Rel u v := by
  obtain ⟨n, hn⟩ := hu
  induction n generalizing s t with
  | zero =>
    obtain rfl : s = u := Move.next.inj hn
    exact ⟨t, hst⟩
  | succ n ih =>
    rw [after] at hn
    rcases h s t hst with ⟨r, hs, -⟩ | ⟨hs, -⟩ | ⟨s', t', hs, -, hst'⟩
    · rw [hs] at hn
      cases hn
    · rw [hs] at hn
      cases hn
    · rw [hs] at hn
      exact ih hst' hn

end Similar

end Machine

end Libobject
