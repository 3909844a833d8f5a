import Mathlib.Data.List.Basic
import Mathlib.Logic.Basic

/-!
# Runs of a state machine

A machine is a total step function. A run is the list of events it was fed; what is said of a
run is said of every step it takes, so that a condition on the steps and a property of the steps
have the same form and an invariant carries one over to the other.
-/

namespace Libobject.Run

variable {S E : Type*} (step : S → E → S)

/-- The state that the events `es` lead to. -/
def final (s : S) (es : List E) : S := es.foldl step s

/-- Every step of the run of `es` from `s` satisfies `Q before event after`. -/
def Steps (Q : S → E → S → Prop) : S → List E → Prop
  | _, [] => True
  | s, e :: es => Q s e (step s e) ∧ Steps Q (step s e) es

variable {step} {Q R : S → E → S → Prop}

@[simp] theorem steps_nil (s : S) : Steps step Q s [] := trivial

@[simp] theorem steps_cons (s : S) (e : E) (es : List E) :
    Steps step Q s (e :: es) ↔ Q s e (step s e) ∧ Steps step Q (step s e) es := Iff.rfl

theorem final_append (s : S) (es es' : List E) :
    final step s (es ++ es') = final step (final step s es) es' :=
  List.foldl_append

theorem steps_append {s : S} {es es' : List E} :
    Steps step Q s (es ++ es') ↔ Steps step Q s es ∧ Steps step Q (final step s es) es' := by
  induction es generalizing s with
  | nil => exact (and_iff_right trivial).symm
  | cons e es ih => exact (and_congr_right' ih).trans and_assoc.symm

instance decidableSteps [∀ s e t, Decidable (Q s e t)] :
    (s : S) → (es : List E) → Decidable (Steps step Q s es)
  | _, [] => inferInstanceAs (Decidable True)
  | s, e :: es =>
    have := decidableSteps (step s e) es
    inferInstanceAs (Decidable (_ ∧ _))

theorem Steps.of_invariant {I : S → Prop} {s : S} {es : List E} (hs : I s)
    (hstep : ∀ s e, I s → R s e (step s e) → I (step s e) ∧ Q s e (step s e))
    (hrun : Steps step R s es) : I (final step s es) ∧ Steps step Q s es := by
  induction es generalizing s with
  | nil => exact ⟨hs, trivial⟩
  | cons e es ih =>
    obtain ⟨hI, hQ⟩ := hstep s e hs hrun.1
    obtain ⟨hfinal, hrest⟩ := ih hI hrun.2
    exact ⟨hfinal, hQ, hrest⟩

/-- Where the invariant makes a step good exactly if it meets the condition, the runs of good steps
are those within the condition. -/
theorem steps_iff_of_invariant {I : S → Prop}
    (hiff : ∀ s e, I s → (Q s e (step s e) ↔ R s e (step s e)))
    (hstep : ∀ s e, I s → R s e (step s e) → I (step s e)) {s : S} {es : List E} (hs : I s) :
    Steps step Q s es ↔ Steps step R s es := by
  induction es generalizing s with
  | nil => rfl
  | cons e es ih =>
    rw [steps_cons, steps_cons, hiff s e hs]
    exact and_congr_right fun hR ↦ ih (hstep s e hs hR)

theorem Steps.mono (h : ∀ s e t, Q s e t → R s e t) {s : S} {es : List E}
    (hrun : Steps step Q s es) : Steps step R s es := by
  induction es generalizing s with
  | nil => trivial
  | cons e es ih => exact ⟨h _ _ _ hrun.1, ih hrun.2⟩

theorem Steps.of_forall (h : ∀ s e t, Q s e t) (s : S) (es : List E) : Steps step Q s es := by
  induction es generalizing s with
  | nil => trivial
  | cons e es ih => exact ⟨h _ _ _, ih _⟩

end Libobject.Run
