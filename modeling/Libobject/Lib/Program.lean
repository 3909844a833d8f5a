import Libobject.Lib.Machine

/-!
# Programs made of operations

A program performs one operation after another and goes on with what each of them gives, until it
returns or fails. An operation may be undefined. A program keeps a guard if each operation that it
can come to has it, whatever the ones before have given within what is known of them.
-/

namespace Libobject

inductive Program (O : Type) (Res : O → Type) (α : Type)
  | ret (a : α)
  | fail
  | op (o : O) (k : Res o → Program O Res α)

namespace Program

variable {O : Type} {Res : O → Type} {α β : Type}

/-- The program `f` goes on with what is returned. -/
def andThen : Program O Res α → (α → Program O Res β) → Program O Res β
  | ret a, f => f a
  | fail, _ => fail
  | op o k, f => op o fun r ↦ (k r).andThen f

instance : Monad (Program O Res) where
  pure := ret
  bind := andThen

def perform (o : O) : Program O Res (Res o) := op o ret

/-- The program fails unless `c` holds. -/
def require (c : Prop) [Decidable c] : Program O Res Unit := if c then ret () else fail

/-- One operation; a program that has failed has no result. -/
def move (eval : ∀ o, Option (Res o)) : Program O Res α → Move (Program O Res α) (Option α)
  | ret a => .done (some a)
  | fail => .done none
  | op o k =>
    match eval o with
    | none => .wild
    | some r => .next (k r)

section Ends

variable {eval : ∀ o, Option (Res o)} {m : Program O Res α}

theorem ends_iff :
    Machine.Ends (move eval) m ↔
      ∀ o k, Machine.Reaches (move eval) m (op o k) → (eval o).isSome := by
  induction m with
  | ret a =>
    refine ⟨fun _ o k h ↦ ?_, fun _ ↦ Machine.ends_of_done rfl⟩
    rcases h.cases_head with heq | ⟨t, ht, -⟩
    · cases heq
    · cases ht
  | fail =>
    refine ⟨fun _ o k h ↦ ?_, fun _ ↦ Machine.ends_of_done rfl⟩
    rcases h.cases_head with heq | ⟨t, ht, -⟩
    · cases heq
    · cases ht
  | op o k ih =>
    cases heval : eval o with
    | none =>
      have hwild : move eval (op o k) = .wild := by rw [move, heval]
      constructor
      · exact fun h ↦ absurd h (Machine.not_ends_of_wild hwild)
      · intro h
        have hsome := h o k (Machine.reaches_self _)
        rw [heval] at hsome
        cases hsome
    | some r =>
      have hnext : move eval (op o k) = .next (k r) := by rw [move, heval]
      rw [Machine.ends_iff_of_next hnext, ih r]
      constructor
      · intro h o' k' hreach
        rcases hreach.cases_head with heq | ⟨t, ht, htail⟩
        · cases heq
          rw [heval]
          rfl
        · rw [hnext] at ht
          cases ht
          exact h o' k' htail
      · exact fun h o' k' hreach ↦ h o' k' (hreach.head hnext)

end Ends

/-- Each operation has the guard `P`, if those before have given what `R` says, and what is returned
has `Q`. -/
def Keeps (P : O → Prop) (R : ∀ o, Res o → Prop) : Program O Res α → (α → Prop) → Prop
  | ret a, Q => Q a
  | fail, _ => True
  | op o k, Q => P o ∧ ∀ r, R o r → Keeps P R (k r) Q

section Rules

variable {P : O → Prop} {R : ∀ o, Res o → Prop} {m : Program O Res α} {Q : α → Prop}

theorem keeps_pure {a : α} (h : Q a) : Keeps P R (pure a) Q := h

theorem keeps_fail : Keeps P R (fail : Program O Res α) Q := trivial

theorem keeps_perform {o : O} {Q : Res o → Prop} (hP : P o) (hQ : ∀ r, R o r → Q r) :
    Keeps P R (perform o) Q := ⟨hP, hQ⟩

theorem keeps_require {c : Prop} [Decidable c] {Q : Unit → Prop} (h : c → Q ()) :
    Keeps P R (require c) Q := by
  rw [require]
  split_ifs with hc
  · exact h hc
  · trivial

theorem Keeps.mono {Q' : α → Prop} (h : Keeps P R m Q) (hQ : ∀ a, Q a → Q' a) :
    Keeps P R m Q' := by
  induction m with
  | ret a => exact hQ a h
  | fail => trivial
  | op o k ih => exact ⟨h.1, fun r hr ↦ ih r (h.2 r hr)⟩

theorem Keeps.bind {f : α → Program O Res β} {Q' : β → Prop} (h : Keeps P R m Q)
    (hf : ∀ a, Q a → Keeps P R (f a) Q') : Keeps P R (m >>= f) Q' := by
  induction m with
  | ret a => exact hf a h
  | fail => trivial
  | op o k ih => exact ⟨h.1, fun r hr ↦ ih r (h.2 r hr)⟩

theorem keeps_ite {c : Prop} [Decidable c] {m' : Program O Res α} (h : c → Keeps P R m Q)
    (h' : ¬c → Keeps P R m' Q) : Keeps P R (if c then m else m') Q := by
  split_ifs with hc
  · exact h hc
  · exact h' hc

theorem Keeps.guard {eval : ∀ o, Option (Res o)} (hR : ∀ o r, eval o = some r → R o r)
    (h : Keeps P R m Q) {o : O} {k : Res o → Program O Res α}
    (hreach : Machine.Reaches (move eval) m (op o k)) : P o := by
  induction m with
  | ret a =>
    rcases hreach.cases_head with heq | ⟨t, ht, -⟩
    · cases heq
    · cases ht
  | fail =>
    rcases hreach.cases_head with heq | ⟨t, ht, -⟩
    · cases heq
    · cases ht
  | op o' k' ih =>
    rcases hreach.cases_head with heq | ⟨t, ht, htail⟩
    · cases heq
      exact h.1
    · cases heval : eval o' with
      | none =>
        rw [move, heval] at ht
        cases ht
      | some r =>
        rw [move, heval] at ht
        cases ht
        exact ih r (h.2 r (hR o' r heval)) htail

end Rules

end Program

end Libobject
