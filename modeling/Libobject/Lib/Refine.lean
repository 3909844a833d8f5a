import Libobject.Lib.Run

/-!
# Refinement along a run

A program answers calls and may run into undefined behaviour; what it is for is said by a
specification, which allows some answers and tells how its own state goes on after one. The two
run side by side on the same calls, and the program refines the specification on a run if it is
defined at every call and its answer is allowed.
-/

namespace Libobject

/-- Which answers are allowed in a state and what the state becomes after one. -/
structure Spec (A E O : Type*) where
  ok : A → E → O → Prop
  next : A → E → O → A

namespace Refine

variable {C A E O : Type*} (call : C → E → Option (C × O)) (spec : Spec A E O)

/-- The program, `none` once its behaviour is undefined, beside the specification. -/
def step (s : Option C × A) (e : E) : Option C × A :=
  match s.1 with
  | none => (none, s.2)
  | some c =>
    match call c e with
    | none => (none, s.2)
    | some (c', o) => (some c', spec.next s.2 e o)

/-- The call is defined and its answer is allowed. -/
def Agrees (s : Option C × A) (e : E) : Prop := ∃ c ∈ s.1, ∃ r ∈ call c e, spec.ok s.2 e r.2

/-- The program's state before the call satisfies the condition. -/
def Meets (cond : C → E → Prop) (s : Option C × A) (e : E) : Prop := ∀ c ∈ s.1, cond c e

instance decidableAgrees [∀ a e o, Decidable (spec.ok a e o)] (s : Option C × A) (e : E) :
    Decidable (Agrees call spec s e) :=
  inferInstanceAs (Decidable (∃ c ∈ s.1, ∃ r ∈ call c e, spec.ok s.2 e r.2))

instance decidableMeets {cond : C → E → Prop} [∀ c e, Decidable (cond c e)] (s : Option C × A)
    (e : E) : Decidable (Meets cond s e) :=
  inferInstanceAs (Decidable (∀ c ∈ s.1, cond c e))

/-- Every call of the run meets the condition. -/
def Within (cond : C → E → Prop) (c : C) (a : A) (es : List E) : Prop :=
  Run.Steps (step call spec) (fun s e _ ↦ Meets cond s e) (some c, a) es

/-- The program agrees with the specification at every call of the run. -/
def Refines (c : C) (a : A) (es : List E) : Prop :=
  Run.Steps (step call spec) (fun s e _ ↦ Agrees call spec s e) (some c, a) es

instance decidableWithin {cond : C → E → Prop} [∀ c e, Decidable (cond c e)] (c : C) (a : A)
    (es : List E) : Decidable (Within call spec cond c a es) :=
  inferInstanceAs (Decidable (Run.Steps _ _ _ _))

instance decidableRefines [∀ a e o, Decidable (spec.ok a e o)] (c : C) (a : A) (es : List E) :
    Decidable (Refines call spec c a es) :=
  inferInstanceAs (Decidable (Run.Steps _ _ _ _))

variable {call spec} {cond : C → E → Prop} {I : C → A → Prop}

/-- A relation that every call within the condition keeps, with an allowed answer, makes the
program refine the specification on every run within the condition. -/
theorem refines_of_simulation
    (hsim : ∀ c a e, I c a → cond c e →
      ∃ c' o, call c e = some (c', o) ∧ spec.ok a e o ∧ I c' (spec.next a e o))
    {c : C} {a : A} (hI : I c a) {es : List E}
    (hrun : Within call spec cond c a es) :
    (∃ c' a', Run.final (step call spec) (some c, a) es = (some c', a') ∧ I c' a') ∧
      Refines call spec c a es := by
  let J : Option C × A → Prop := fun s ↦ ∃ c a, s = (some c, a) ∧ I c a
  have hstep : ∀ s e, J s → Meets cond s e → J (step call spec s e) ∧ Agrees call spec s e := by
    rintro _ e ⟨c, a, rfl, hI⟩ hcond
    obtain ⟨c', o, hcall, hok, hI'⟩ := hsim c a e hI (hcond c rfl)
    refine ⟨⟨c', spec.next a e o, ?_, hI'⟩, c, rfl, (c', o), hcall, hok⟩
    simp only [step, hcall]
  exact Run.Steps.of_invariant (I := J) ⟨c, a, rfl, hI⟩ hstep hrun

theorem Refines.mono {ok : A → E → O → Prop} (hok : ∀ a e o, spec.ok a e o → ok a e o) {c : C}
    {a : A} {es : List E} (h : Refines call spec c a es) :
    Refines call ⟨ok, spec.next⟩ c a es := by
  have hstep : ∀ (s : Option C × A) (e : E) (_ : Option C × A),
      Agrees call spec s e → Agrees call ⟨ok, spec.next⟩ s e := by
    rintro s e - ⟨c, hc, r, hr, hallowed⟩
    exact ⟨c, hc, r, hr, hok _ _ _ hallowed⟩
  exact Run.Steps.mono hstep h

/-- Where the specification goes on without regard to the answers, the condition may be one on its
states: it then speaks of what the program is given and of nothing that the program does. -/
theorem refines_of_inputs {next : A → E → A} (hnext : ∀ a e o, spec.next a e o = next a e)
    {given : A → E → Prop}
    (hsim : ∀ c a e, I c a → given a e →
      ∃ c' o, call c e = some (c', o) ∧ spec.ok a e o ∧ I c' (next a e))
    {c : C} {a : A} (hI : I c a) {es : List E}
    (hrun : Run.Steps next (fun a e _ ↦ given a e) a es) :
    (∃ c', Run.final (step call spec) (some c, a) es = (some c', Run.final next a es) ∧
        I c' (Run.final next a es)) ∧
      Refines call spec c a es := by
  induction es generalizing c a with
  | nil => exact ⟨⟨c, rfl, hI⟩, trivial⟩
  | cons e es ih =>
    obtain ⟨c', o, hcall, hok, hI'⟩ := hsim c a e hI hrun.1
    have hstep : step call spec (some c, a) e = (some c', next a e) := by
      simp only [step, hcall, hnext]
    obtain ⟨hfinal, hrest⟩ := ih hI' hrun.2
    rw [Refines, Run.steps_cons, Run.final, List.foldl_cons, hstep]
    exact ⟨hfinal, ⟨c, rfl, (c', o), hcall, hok⟩, hrest⟩

/-- Where it is the condition that decides whether an answer is allowed, the program refines the
specification on no other runs than those within it. -/
theorem refines_iff_of_inputs {next : A → E → A} (hnext : ∀ a e o, spec.next a e o = next a e)
    {valid given : A → E → Prop}
    (hsim : ∀ c a e, I c a → valid a e →
      ((∃ r ∈ call c e, spec.ok a e r.2) ↔ given a e) ∧
        ∀ r ∈ call c e, given a e → I r.1 (next a e))
    {c : C} {a : A} (hI : I c a) {es : List E}
    (hvalid : Run.Steps next (fun a e _ ↦ valid a e) a es) :
    Refines call spec c a es ↔ Run.Steps next (fun a e _ ↦ given a e) a es := by
  induction es generalizing c a with
  | nil => exact iff_of_true trivial trivial
  | cons e es ih =>
    obtain ⟨hiff, hI'⟩ := hsim c a e hI hvalid.1
    have hagrees : Agrees call spec (some c, a) e ↔ given a e := by
      rw [← hiff]
      constructor
      · rintro ⟨d, hd, hallowed⟩
        exact Option.some.inj hd ▸ hallowed
      · exact fun hallowed ↦ ⟨c, rfl, hallowed⟩
    rw [Refines, Run.steps_cons, Run.steps_cons, hagrees]
    refine and_congr_right fun hgiven ↦ ?_
    obtain ⟨r, hr, -⟩ := hiff.mpr hgiven
    have hstep : step call spec (some c, a) e = (some r.1, next a e) := by
      simp only [step, Option.mem_def.mp hr, hnext]
    rw [hstep]
    exact ih (hI' r hr hgiven) hvalid.2

end Refine

end Libobject
