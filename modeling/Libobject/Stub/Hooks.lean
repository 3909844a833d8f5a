import Libobject.Stub.Pool
import Mathlib.Data.Fintype.Basic
import Mathlib.Logic.Function.Basic

/-!
# Hooks in the code of functions

A stub that is added to a function saves the bytes at its start and puts a jump in their place; when
it is removed it puts back what it has saved. So what is right to put back depends on what has
become of the stubs that were on the function when it was added. One page of the function is made
writable for a jump.
-/

namespace Libobject.Stub

/-- Where a jump goes: to another function, or into the execution area of a stub. -/
inductive Target (n : ℕ)
  | fn (f : Fin n)
  | area (stub : ℕ)
  deriving DecidableEq

/-- `STUB_REPLACE_CODE_SIZE` bytes: zeros, the first ones that a function was compiled to, or the
jump `ff 25 00 00 00 00` with the address it goes to. -/
inductive Code (n : ℕ)
  | zeros
  | original (f : Fin n)
  | jump (dst : Target n)
  deriving DecidableEq

structure Handle (n : ℕ) where
  fn : Option (Fin n)
  new_fn : Option (Fin n)
  code_buf : Code n
  deriving DecidableEq

/-- The first bytes of the functions, and the stubs that were allocated so far. -/
structure Process (n : ℕ) where
  code : Fin n → Code n
  stubs : ℕ → Handle n
  allocated : ℕ
  free_stub_list : List ℕ

/-- `mprotect` tells whether the function's page can be made writable, `area` whether that of the
stub's area can; in a call the stub may be removed and added again. -/
inductive Event (n : ℕ)
  | alloc
  | add (stub : ℕ) (src dst : Fin n) (mprotect : Bool)
  | add_hooks (stub : ℕ) (func new_fn : Fin n) (area mprotect : Bool)
  | call (f : Fin n) (removes adds : Bool)
  | remove (stub : ℕ) (mprotect : Bool)
  | free (stub : ℕ)

/-- `STUB_REPLACE_CODE_SIZE` -/
def replaceSize : ℕ := 14

namespace Process

variable {n : ℕ}

def new (n : ℕ) : Process n := ⟨.original, fun _ ↦ ⟨none, none, .zeros⟩, 0, []⟩

def stub_alloc (p : Process n) : Process n :=
  match p.free_stub_list with
  | _ :: free_stub_list => { p with free_stub_list }
  | [] => { p with allocated := p.allocated + 1 }

def stub_free (p : Process n) (stub : ℕ) : Process n :=
  { p with free_stub_list := p.free_stub_list ++ [stub] }

variable (m : Pages (Fin n))

/-- The bytes are saved in any case. What goes on behind the page that was made writable is
undefined. -/
def stub_add (p : Process n) (stub : ℕ) (src : Fin n) (dst : Target n) (mprotect : Bool) :
    Option (Process n) :=
  let stubs := Function.update p.stubs stub
    { p.stubs stub with fn := some src, code_buf := p.code src }
  if mprotect then
    if m.OnOne src 0 replaceSize then
      some { p with stubs, code := Function.update p.code src (.jump dst) }
    else none
  else some { p with stubs }

/-- Two pages are made writable here. -/
def stub_remove (p : Process n) (stub : ℕ) (mprotect : Bool) : Process n :=
  match (p.stubs stub).fn with
  | none => p
  | some f =>
    if mprotect then { p with code := Function.update p.code f (p.stubs stub).code_buf } else p

/-- The area is written whether or not its page could be made writable. -/
def stub_add_hooks (p : Process n) (stub : ℕ) (func new_fn : Fin n) (area mprotect : Bool) :
    Option (Process n) :=
  let stubs := Function.update p.stubs stub
    { p.stubs stub with fn := some func, new_fn := some new_fn }
  if area then { p with stubs }.stub_add m stub func (.area stub) mprotect else none

/-- What comes of the hooks when the area's code runs: the function that is to run instead may be
the hooked one itself. If it still jumps into the area then, there is no end. -/
def stub_parse_context (p : Process n) (stub : ℕ) (removes adds : Bool) : Option (Process n) :=
  if (p.stubs stub).new_fn ≠ (p.stubs stub).fn then some p
  else do
    let f ← (p.stubs stub).new_fn
    let p := p.stub_remove stub removes
    if p.code f = .jump (.area stub) then none else p.stub_add m stub f (.fn f) adds

/-- A call of a function leads to the code its first bytes jump to, if they do. A function that is
called from there is called as any other. -/
def enter (p : Process n) (f : Fin n) (removes adds : Bool) : Option (Process n) :=
  match p.code f with
  | .jump (.area stub) => p.stub_parse_context m stub removes adds
  | _ => some p

def step (p : Process n) : Event n → Option (Process n)
  | .alloc => some p.stub_alloc
  | .add stub src dst mprotect => p.stub_add m stub src (.fn dst) mprotect
  | .add_hooks stub func new_fn area mprotect =>
    p.stub_add_hooks m stub func new_fn area mprotect
  | .call f removes adds => p.enter m f removes adds
  | .remove stub mprotect => some (p.stub_remove stub mprotect)
  | .free stub => some (p.stub_free stub)

/-- The code of the functions is what can be seen of a step. -/
def call (p : Process n) (e : Event n) : Option (Process n × (Fin n → Code n)) :=
  (p.step m e).map fun p ↦ (p, p.code)

end Process

/-- The stubs on a function, the latest one first, with where their jumps go. -/
abbrev Stack (n : ℕ) := List (ℕ × Target n)

namespace Stack

variable {n : ℕ}

/-- Where the jump of the latest stub goes. -/
def top (l : Stack n) : Option (Target n) := l.head?.map Prod.snd

def without (l : Stack n) (stub : ℕ) : Stack n := l.filter (·.1 ≠ stub)

/-- What a function with these stubs on it starts with. -/
def code (f : Fin n) (l : Stack n) : Code n := l.top.elim (.original f) .jump

end Stack

/-- The function a stub was added to last, and the stubs that were on it then. -/
structure Use (n : ℕ) where
  fn : Fin n
  before : Stack n

/-- What was asked for so far: the stubs on each function, the last use of each stub with the
function that its hooks run, and the stubs that are free. -/
structure Hooks (n : ℕ) where
  hooked : Fin n → Stack n
  uses : ℕ → Option (Use n)
  new_fns : ℕ → Option (Fin n)
  allocated : ℕ
  free : List ℕ

namespace Hooks

variable {n : ℕ}

def new (n : ℕ) : Hooks n := ⟨fun _ ↦ [], fun _ ↦ none, fun _ ↦ none, 0, []⟩

/-- A stub is put on a function, and off all others; if this fails it stays where it was on that
function. -/
def install (a : Hooks n) (stub : ℕ) (f : Fin n) (dst : Target n) (mprotect : Bool) : Hooks n :=
  { a with
    hooked := fun g ↦
      if g = f then if mprotect then (stub, dst) :: (a.hooked g).without stub else a.hooked g
      else (a.hooked g).without stub
    uses := Function.update a.uses stub (some ⟨f, a.hooked f⟩) }

def uninstall (a : Hooks n) (stub : ℕ) : Hooks n :=
  { a with hooked := fun g ↦ (a.hooked g).without stub }

def next (a : Hooks n) : Event n → Hooks n
  | .alloc =>
    match a.free with
    | _ :: free => { a with free }
    | [] => { a with allocated := a.allocated + 1 }
  | .add stub src dst mprotect => a.install stub src (.fn dst) mprotect
  | .add_hooks stub func new_fn _ mprotect =>
    { a.install stub func (.area stub) mprotect with
      new_fns := Function.update a.new_fns stub (some new_fn) }
  | .call _ _ _ => a
  | .remove stub mprotect => if mprotect then a.uninstall stub else a
  | .free stub => { a.uninstall stub with free := a.free ++ [stub] }

/-- Every function starts with the jump of the latest stub on it, or with its own code if there is
none, and a jump into an execution area is that of a stub that is on the function and not free. -/
def Shown (a : Hooks n) (code : Fin n → Code n) : Prop :=
  ∀ f, code f = (a.hooked f).code f ∧
    ∀ stub, code f = .jump (.area stub) → stub ∉ a.free ∧ ∃ dst, (stub, dst) ∈ a.hooked f

def spec : Spec (Hooks n) (Event n) (Fin n → Code n) :=
  ⟨fun a e code ↦ (a.next e).Shown code, fun a e _ ↦ a.next e⟩

/-- The stubs that are used were allocated, and those that are added or freed are not free. -/
def Valid (a : Hooks n) : Event n → Prop
  | .alloc => True
  | .add stub _ _ _ => stub < a.allocated ∧ stub ∉ a.free
  | .add_hooks stub _ _ _ _ => stub < a.allocated ∧ stub ∉ a.free
  | .call _ _ _ => True
  | .remove stub _ => stub < a.allocated
  | .free stub => stub < a.allocated ∧ stub ∉ a.free

/-- The jumps of the functions stay the same without the stub. -/
def Unseen (a : Hooks n) (stub : ℕ) (f : Fin n) : Prop :=
  ((a.hooked f).without stub).top = (a.hooked f).top

/-- A stub is added or freed when it is not the latest one on a function (but the one it is added
to, whose first bytes are on one page); it is removed when the jump of the others on its function is
the one that was there when it was added; and no function is called whose latest stub hooks it for
itself. -/
def Orderly (m : Pages (Fin n)) (a : Hooks n) : Event n → Prop
  | .alloc => True
  | .add stub src _ mprotect =>
    (mprotect → m.OnOne src 0 replaceSize) ∧ ∀ g, g ≠ src → a.Unseen stub g
  | .add_hooks stub func _ area mprotect =>
    area ∧ (mprotect → m.OnOne func 0 replaceSize) ∧ ∀ g, g ≠ func → a.Unseen stub g
  | .call f _ _ =>
    match (a.hooked f).top with
    | some (.area stub) => a.new_fns stub ≠ some f
    | _ => True
  | .remove stub mprotect =>
    mprotect → ∀ u ∈ a.uses stub, ((a.hooked u.fn).without stub).top = u.before.top
  | .free stub => ∀ g, a.Unseen stub g

instance decidableUnseen (a : Hooks n) (stub : ℕ) (f : Fin n) : Decidable (a.Unseen stub f) :=
  inferInstanceAs (Decidable (_ = _))

instance decidableValid (a : Hooks n) : (e : Event n) → Decidable (a.Valid e)
  | .alloc => inferInstanceAs (Decidable True)
  | .add _ _ _ _ => inferInstanceAs (Decidable (_ ∧ _))
  | .add_hooks _ _ _ _ _ => inferInstanceAs (Decidable (_ ∧ _))
  | .call _ _ _ => inferInstanceAs (Decidable True)
  | .remove _ _ => inferInstanceAs (Decidable (_ < _))
  | .free _ => inferInstanceAs (Decidable (_ ∧ _))

instance decidableOrderly (m : Pages (Fin n)) (a : Hooks n) :
    (e : Event n) → Decidable (a.Orderly m e)
  | .alloc => inferInstanceAs (Decidable True)
  | .add stub src _ _ => inferInstanceAs (Decidable (_ ∧ ∀ g, g ≠ src → a.Unseen stub g))
  | .add_hooks stub func _ _ _ =>
    inferInstanceAs (Decidable (_ ∧ _ ∧ ∀ g, g ≠ func → a.Unseen stub g))
  | .call f _ _ =>
    match h : (a.hooked f).top with
    | some (.area stub) => decidable_of_iff (a.new_fns stub ≠ some f) (by rw [Orderly, h])
    | some (.fn g) => isTrue (by rw [Orderly, h]; trivial)
    | none => isTrue (by rw [Orderly, h]; trivial)
  | .remove stub _ => inferInstanceAs (Decidable (_ → ∀ u ∈ a.uses stub, _ = _))
  | .free stub => inferInstanceAs (Decidable (∀ g, a.Unseen stub g))

end Hooks

section Stacks

variable {n : ℕ} {l : Stack n} {stub : ℕ}

theorem Stack.mem_without {e : ℕ × Target n} : e ∈ l.without stub ↔ e ∈ l ∧ e.1 ≠ stub := by
  rw [Stack.without, List.mem_filter, decide_eq_true_eq]

theorem Stack.without_of_not_mem (h : ∀ dst, (stub, dst) ∉ l) : l.without stub = l := by
  apply List.filter_eq_self.mpr
  rintro ⟨s, dst⟩ hmem
  refine decide_eq_true ?_
  rintro rfl
  exact h dst hmem

theorem Stack.code_inj {f : Fin n} {l' : Stack n} : l.code f = l'.code f ↔ l.top = l'.top := by
  unfold Stack.code
  cases l.top <;> cases l'.top <;> simp

theorem Stack.mem_of_top {dst : Target n} (h : l.top = some dst) : ∃ s, (s, dst) ∈ l := by
  obtain ⟨⟨s, dst'⟩, hhead, rfl⟩ := Option.map_eq_some_iff.mp h
  exact ⟨s, List.mem_of_head? hhead⟩

end Stacks

/-- A stub that is on a function was added to it last, is not free, and jumps into no execution
area but its own. -/
def Hooks.Proper {n : ℕ} (a : Hooks n) : Prop :=
  ∀ f s dst, (s, dst) ∈ a.hooked f → (∃ u ∈ a.uses s, u.fn = f) ∧ s ∉ a.free ∧
    ∀ s', dst = .area s' → s' = s

section Proper

variable {n : ℕ} {a : Hooks n} {stub : ℕ} {f : Fin n} {dst : Target n}

theorem Hooks.proper_new : (Hooks.new n).Proper :=
  fun _ _ _ h ↦ absurd h List.not_mem_nil

theorem Hooks.Proper.install (h : a.Proper) (hstub : stub ∉ a.free)
    (hdst : ∀ s', dst = .area s' → s' = stub) (mprotect : Bool) :
    (a.install stub f dst mprotect).Proper := by
  have hothers {g : Fin n} {s : ℕ} {d : Target n}
      (hmem : (s, d) ∈ (a.hooked g).without stub) :
      (∃ u ∈ (a.install stub f dst mprotect).uses s, u.fn = g) ∧ s ∉ a.free ∧
        ∀ s', d = .area s' → s' = s := by
    obtain ⟨hmem, hne⟩ := Stack.mem_without.mp hmem
    have huses : (a.install stub f dst mprotect).uses s = a.uses s :=
      Function.update_of_ne hne _ _
    rw [huses]
    exact h g s d hmem
  have hself : ∃ u ∈ (a.install stub f dst mprotect).uses stub, u.fn = f :=
    ⟨_, Function.update_self _ _ _, rfl⟩
  intro g s d hmem
  by_cases hg : g = f
  · subst hg
    cases mprotect with
    | true =>
      have hhooked : (a.install stub g dst true).hooked g =
          (stub, dst) :: (a.hooked g).without stub := if_pos rfl
      rw [hhooked] at hmem
      rcases List.mem_cons.mp hmem with heq | hmem
      · obtain ⟨rfl, rfl⟩ := Prod.mk.inj heq
        exact ⟨hself, hstub, hdst⟩
      · exact hothers hmem
    | false =>
      have hhooked : (a.install stub g dst false).hooked g = a.hooked g := if_pos rfl
      rw [hhooked] at hmem
      by_cases hs : s = stub
      · subst hs
        exact ⟨hself, hstub, (h g s d hmem).2.2⟩
      · exact hothers (Stack.mem_without.mpr ⟨hmem, hs⟩)
  · have hhooked : (a.install stub f dst mprotect).hooked g = (a.hooked g).without stub :=
      if_neg hg
    exact hothers (hhooked ▸ hmem)

theorem Hooks.Proper.uninstall (h : a.Proper) (stub : ℕ) : (a.uninstall stub).Proper :=
  fun g s d hmem ↦ h g s d (Stack.mem_without.mp hmem).1

theorem Hooks.Proper.next (h : a.Proper) {e : Event n} (hvalid : a.Valid e) :
    (a.next e).Proper := by
  cases e with
  | alloc =>
    rw [Hooks.next]
    split
    · next s free heq =>
        intro g t d hmem
        obtain ⟨huse, hfree, harea⟩ := h g t d hmem
        refine ⟨huse, ?_, harea⟩
        exact fun hin ↦ hfree (heq ▸ List.mem_cons_of_mem s hin)
    · exact h
  | add stub src dst mprotect =>
    refine h.install hvalid.2 (fun s' heq ↦ ?_) mprotect
    cases heq
  | add_hooks stub func new_fn area mprotect =>
    exact h.install hvalid.2 (fun s' heq ↦ (Target.area.inj heq).symm) mprotect
  | call f removes adds => exact h
  | remove stub mprotect =>
    cases mprotect with
    | true => exact h.uninstall stub
    | false => exact h
  | free stub =>
    intro g s d hmem
    obtain ⟨hin, hne⟩ := Stack.mem_without.mp hmem
    obtain ⟨huse, hfree, harea⟩ := h g s d hin
    refine ⟨huse, ?_, harea⟩
    intro hfreed
    rcases List.mem_append.mp hfreed with hfreed | hfreed
    · exact hfree hfreed
    · exact hne (List.mem_singleton.mp hfreed)

theorem Hooks.Proper.shown_iff (h : a.Proper) {code : Fin n → Code n} :
    a.Shown code ↔ ∀ f, code f = (a.hooked f).code f := by
  refine ⟨fun hshown f ↦ (hshown f).1, fun hcode f ↦ ⟨hcode f, ?_⟩⟩
  intro s hs
  have htop : (a.hooked f).top = some (.area s) := by
    rw [hcode, Stack.code] at hs
    cases htop : (a.hooked f).top with
    | none =>
      rw [htop] at hs
      exact nomatch hs
    | some dst =>
      rw [htop] at hs
      exact congrArg some (Code.jump.inj hs)
  obtain ⟨s', hmem⟩ := Stack.mem_of_top htop
  obtain ⟨-, hfree, harea⟩ := h f s' _ hmem
  obtain rfl := harea s rfl
  exact ⟨hfree, _, hmem⟩

end Proper

/-- The process is as what was asked for says: the code, and what each stub was added to and has
saved. -/
structure Kept {n : ℕ} (p : Process n) (a : Hooks n) : Prop where
  proper : a.Proper
  code : ∀ f, p.code f = (a.hooked f).code f
  fn : ∀ s, (p.stubs s).fn = (a.uses s).map Use.fn
  new_fn : ∀ s, (p.stubs s).new_fn = a.new_fns s
  saved : ∀ s, ∀ u ∈ a.uses s, (p.stubs s).code_buf = u.before.code u.fn
  free : p.free_stub_list = a.free

section Steps

variable {n : ℕ} {m : Pages (Fin n)} {p : Process n} {a : Hooks n}

/-- The step is defined and the code is right after it exactly when the request is orderly, and then
the process stays as what was asked for says. -/
def Answers (m : Pages (Fin n)) (p : Process n) (a : Hooks n) (e : Event n) : Prop :=
  ((∃ p' ∈ p.step m e, ∀ f, p'.code f = ((a.next e).hooked f).code f) ↔ a.Orderly m e) ∧
    ∀ p' ∈ p.step m e, a.Orderly m e → (a.next e).Proper → Kept p' (a.next e)

theorem answers_of {p' : Process n} {e : Event n} (hstep : p.step m e = some p')
    (hcode : (∀ f, p'.code f = ((a.next e).hooked f).code f) ↔ a.Orderly m e)
    (hkept : a.Orderly m e → (a.next e).Proper → Kept p' (a.next e)) : Answers m p a e := by
  rw [Answers, hstep]
  refine ⟨?_, fun p'' hp'' ↦ Option.some.inj hp'' ▸ hkept⟩
  rw [← hcode]
  simp

theorem kept_new (n : ℕ) : Kept (.new n) (.new n) where
  proper := Hooks.proper_new
  code _ := rfl
  fn _ := rfl
  new_fn _ := rfl
  saved _ _ h := nomatch h
  free := rfl

theorem Kept.alloc (h : Kept p a) : Answers m p a .alloc := by
  cases hfree : a.free with
  | nil =>
    have hnext : a.next .alloc = { a with allocated := a.allocated + 1 } := by
      rw [Hooks.next, hfree]
    have hstep : p.step m .alloc = some { p with allocated := p.allocated + 1 } := by
      rw [Process.step, Process.stub_alloc, h.free, hfree]
    refine answers_of hstep ?_ ?_
    · rw [hnext]
      exact iff_of_true h.code trivial
    · rw [hnext]
      exact fun _ hproper ↦ ⟨hproper, h.code, h.fn, h.new_fn, h.saved, h.free⟩
  | cons s free =>
    have hnext : a.next .alloc = { a with free } := by
      rw [Hooks.next, hfree]
    have hstep : p.step m .alloc = some { p with free_stub_list := free } := by
      rw [Process.step, Process.stub_alloc, h.free, hfree]
    refine answers_of hstep ?_ ?_
    · rw [hnext]
      exact iff_of_true h.code trivial
    · rw [hnext]
      exact fun _ hproper ↦ ⟨hproper, h.code, h.fn, h.new_fn, h.saved, rfl⟩

theorem Kept.unseen_iff (h : Kept p a) (stub : ℕ) (g : Fin n) :
    p.code g = ((a.hooked g).without stub).code g ↔ a.Unseen stub g := by
  rw [h.code, Stack.code_inj, Hooks.Unseen]
  exact eq_comm

theorem Kept.free_step (h : Kept p a) (stub : ℕ) : Answers m p a (.free stub) := by
  refine answers_of rfl (forall_congr' (h.unseen_iff stub)) ?_
  intro horderly hproper
  exact ⟨hproper, fun g ↦ (h.unseen_iff stub g).mpr (horderly g), h.fn, h.new_fn, h.saved,
    congrArg (· ++ [stub]) h.free⟩

theorem Kept.remove (h : Kept p a) (stub : ℕ) (mprotect : Bool) :
    Answers m p a (.remove stub mprotect) := by
  cases mprotect with
  | false =>
    have hstep : p.step m (.remove stub false) = some p := by
      rw [Process.step, Process.stub_remove]
      cases (p.stubs stub).fn <;> rfl
    exact answers_of hstep (iff_of_true h.code fun hfalse ↦ nomatch hfalse) fun _ _ ↦ h
  | true =>
    cases huse : a.uses stub with
    | none =>
      have hstep : p.step m (.remove stub true) = some p := by
        rw [Process.step, Process.stub_remove, h.fn, huse]
        rfl
      have hwithout (g : Fin n) : (a.hooked g).without stub = a.hooked g := by
        apply Stack.without_of_not_mem
        intro dst hmem
        obtain ⟨⟨u, hu, -⟩, -⟩ := h.proper g stub dst hmem
        rw [huse] at hu
        exact nomatch hu
      have hcode (g : Fin n) : p.code g = ((a.next (.remove stub true)).hooked g).code g := by
        change p.code g = ((a.hooked g).without stub).code g
        rw [hwithout]
        exact h.code g
      refine answers_of hstep (iff_of_true hcode ?_) ?_
      · intro _ u hu
        rw [huse] at hu
        exact nomatch hu
      · intro _ hproper
        exact ⟨hproper, hcode, h.fn, h.new_fn, h.saved, h.free⟩
    | some u =>
      have hstep : p.step m (.remove stub true) =
          some { p with code := Function.update p.code u.fn (u.before.code u.fn) } := by
        rw [Process.step, Process.stub_remove, h.fn, huse, ← h.saved stub u huse]
        rfl
      have hcode : (∀ g, Function.update p.code u.fn (u.before.code u.fn) g =
          ((a.hooked g).without stub).code g) ↔ a.Orderly m (.remove stub true) := by
        have horderly : a.Orderly m (.remove stub true) ↔
            ((a.hooked u.fn).without stub).top = u.before.top := by
          refine ⟨fun h ↦ h rfl u huse, fun h _ u' hu' ↦ ?_⟩
          obtain rfl := Option.some.inj (huse.symm.trans hu')
          exact h
        rw [horderly, eq_comm, ← Stack.code_inj (f := u.fn)]
        constructor
        · intro hall
          have hfn := hall u.fn
          rwa [Function.update_self] at hfn
        · intro hfn g
          by_cases hg : g = u.fn
          · rw [hg, Function.update_self, hfn]
          · rw [Function.update_of_ne hg, h.code, Stack.without_of_not_mem]
            intro dst hmem
            obtain ⟨⟨u', hu', rfl⟩, -⟩ := h.proper g stub dst hmem
            exact hg (congrArg Use.fn (Option.some.inj (hu'.symm.trans huse)))
      refine answers_of hstep hcode ?_
      intro horderly hproper
      exact ⟨hproper, hcode.mpr horderly, h.fn, h.new_fn, h.saved, h.free⟩

theorem Kept.installed_code (h : Kept p a) {stub : ℕ} {f : Fin n} {dst : Target n}
    {mprotect : Bool} {code : Fin n → Code n}
    (hself : code f = ((a.install stub f dst mprotect).hooked f).code f)
    (hother : ∀ g, g ≠ f → code g = p.code g) :
    (∀ g, code g = ((a.install stub f dst mprotect).hooked g).code g) ↔
      ∀ g, g ≠ f → a.Unseen stub g := by
  apply forall_congr'
  intro g
  by_cases hg : g = f
  · subst hg
    exact iff_of_true hself (absurd rfl)
  · have hhooked : (a.install stub f dst mprotect).hooked g = (a.hooked g).without stub :=
      if_neg hg
    rw [hother g hg, hhooked, h.unseen_iff]
    exact ⟨fun hunseen _ ↦ hunseen, fun hunseen ↦ hunseen hg⟩

/-- The stub has the bytes that it saved, and the others are as before. -/
theorem Kept.installed (h : Kept p a) {stub : ℕ} {stubs : ℕ → Handle n}
    (hothers : ∀ s, s ≠ stub → stubs s = p.stubs s) {new_fns : ℕ → Option (Fin n)}
    (hnew : ∀ s, (stubs s).new_fn = new_fns s) {f : Fin n} {dst : Target n} {mprotect : Bool}
    {code : Fin n → Code n}
    (hright : ∀ g, code g = ((a.install stub f dst mprotect).hooked g).code g)
    (hproper : Hooks.Proper { a.install stub f dst mprotect with new_fns }) :
    let stubs := Function.update stubs stub
      { stubs stub with fn := some f, code_buf := p.code f }
    Kept { p with code, stubs } { a.install stub f dst mprotect with new_fns } := by
  refine ⟨hproper, hright, ?_, ?_, ?_, h.free⟩
  · intro s
    change (Function.update stubs stub _ s).fn = (Function.update a.uses stub _ s).map Use.fn
    by_cases hs : s = stub
    · subst hs
      rw [Function.update_self, Function.update_self]
      rfl
    · rw [Function.update_of_ne hs, Function.update_of_ne hs, hothers s hs]
      exact h.fn s
  · intro s
    change (Function.update stubs stub _ s).new_fn = new_fns s
    by_cases hs : s = stub
    · subst hs
      rw [Function.update_self]
      exact hnew s
    · rw [Function.update_of_ne hs]
      exact hnew s
  · intro s u hu
    change u ∈ Function.update a.uses stub _ s at hu
    change (Function.update stubs stub _ s).code_buf = u.before.code u.fn
    by_cases hs : s = stub
    · subst hs
      rw [Function.update_self] at hu ⊢
      obtain rfl := Option.some.inj hu
      exact h.code f
    · rw [Function.update_of_ne hs] at hu ⊢
      rw [hothers s hs]
      exact h.saved s u hu

/-- Where the jump is written, or cannot be, and the stub's record is. -/
theorem Kept.install (h : Kept p a) {stub : ℕ} {stubs : ℕ → Handle n}
    (hothers : ∀ s, s ≠ stub → stubs s = p.stubs s) {new_fns : ℕ → Option (Fin n)}
    (hnew : ∀ s, (stubs s).new_fn = new_fns s) (f : Fin n) (dst : Target n) (mprotect : Bool) :
    let a' := { a.install stub f dst mprotect with new_fns }
    let step := Process.stub_add m { p with stubs } stub f dst mprotect
    ((∃ p' ∈ step, ∀ g, p'.code g = (a'.hooked g).code g) ↔
        (mprotect → m.OnOne f 0 replaceSize) ∧ ∀ g, g ≠ f → a.Unseen stub g) ∧
      ∀ p' ∈ step, (∀ g, g ≠ f → a.Unseen stub g) → a'.Proper → Kept p' a' := by
  cases mprotect with
  | true =>
    by_cases hpage : m.OnOne f 0 replaceSize
    · have hjump : (Function.update p.code f (.jump dst)) f =
          ((a.install stub f dst true).hooked f).code f := by
        have hhooked : (a.install stub f dst true).hooked f =
            (stub, dst) :: (a.hooked f).without stub := if_pos rfl
        rw [Function.update_self, hhooked]
        rfl
      have hiff := h.installed_code hjump fun g hg ↦ Function.update_of_ne hg _ _
      simp only [Process.stub_add, if_true, Option.mem_some_iff, exists_eq_left', forall_eq',
        hpage, forall_const, true_and]
      exact ⟨hiff, fun hunseen ↦ h.installed hothers hnew (hiff.mpr hunseen)⟩
    · simp [Process.stub_add, hpage]
  | false =>
    have hsame : p.code f = ((a.install stub f dst false).hooked f).code f := by
      have hhooked : (a.install stub f dst false).hooked f = a.hooked f := if_pos rfl
      rw [hhooked]
      exact h.code f
    have hiff := h.installed_code hsame fun g _ ↦ rfl
    simp only [Process.stub_add, Bool.false_eq_true, if_false, Option.mem_some_iff,
      exists_eq_left', forall_eq', false_implies, true_and]
    exact ⟨hiff, fun hunseen ↦ h.installed hothers hnew (hiff.mpr hunseen)⟩

theorem Kept.add (h : Kept p a) (stub : ℕ) (src dst : Fin n) (mprotect : Bool) :
    Answers m p a (.add stub src dst mprotect) := by
  obtain ⟨hiff, hkept⟩ := h.install (m := m) (fun _ _ ↦ rfl) h.new_fn src (.fn dst) mprotect
  exact ⟨hiff, fun p' hp' horderly ↦ hkept p' hp' horderly.2⟩

theorem Kept.add_hooks (h : Kept p a) (stub : ℕ) (func new_fn : Fin n) (area mprotect : Bool) :
    Answers m p a (.add_hooks stub func new_fn area mprotect) := by
  cases area with
  | false =>
    refine ⟨iff_of_false ?_ fun horderly ↦ Bool.false_ne_true horderly.1,
      fun p' hp' ↦ (Option.not_mem_none p' hp').elim⟩
    rintro ⟨p', hp', -⟩
    exact Option.not_mem_none p' hp'
  | true =>
    have hnew (s : ℕ) : (Function.update p.stubs stub
        { p.stubs stub with fn := some func, new_fn := some new_fn } s).new_fn =
          Function.update a.new_fns stub (some new_fn) s := by
      by_cases hs : s = stub
      · subst hs
        rw [Function.update_self, Function.update_self]
      · rw [Function.update_of_ne hs, Function.update_of_ne hs]
        exact h.new_fn s
    obtain ⟨hiff, hkept⟩ := h.install (m := m) (fun s hs ↦ Function.update_of_ne hs _ _) hnew
      func (.area stub) mprotect
    refine ⟨hiff.trans ?_, fun p' hp' horderly ↦ hkept p' hp' horderly.2.2⟩
    exact ⟨fun hpage ↦ ⟨rfl, hpage⟩, And.right⟩

/-- A stub whose hooks run the hooked function takes its jump away for good. -/
theorem Kept.jump_lost (h : Kept p a) {stub : ℕ} {f : Fin n} (hfn : (p.stubs stub).fn = some f)
    (hself : a.new_fns stub = some f) {removes adds : Bool} :
    ∀ p' ∈ p.stub_parse_context m stub removes adds, p'.code f ≠ .jump (.area stub) := by
  have hstep : p.stub_parse_context m stub removes adds =
      if (p.stub_remove stub removes).code f = .jump (.area stub) then none
      else (p.stub_remove stub removes).stub_add m stub f (.fn f) adds := by
    rw [Process.stub_parse_context, if_neg (by rw [hfn, h.new_fn, hself]; simp), h.new_fn, hself]
    rfl
  intro p' hp'
  rw [hstep] at hp'
  split at hp'
  · cases hp'
  next hne =>
  rw [Process.stub_add] at hp'
  split at hp'
  · split at hp'
    · cases hp'
      intro heq
      exact nomatch (Function.update_self f _ _).symm.trans heq
    · cases hp'
  · cases hp'
    exact hne

/-- A call changes nothing, unless the latest stub on the function hooks it for itself: then the
call has no end, or the function is left with a jump to itself or with its own code. -/
theorem Kept.call (h : Kept p a) (f : Fin n) (removes adds : Bool) :
    Answers m p a (.call f removes adds) := by
  have hkept : p.enter m f removes adds = some p → a.Orderly m (.call f removes adds) →
      Answers m p a (.call f removes adds) :=
    fun hstep horderly ↦ answers_of hstep (iff_of_true h.code horderly) fun _ _ ↦ h
  have hcode := h.code f
  cases htop : (a.hooked f).top with
  | none =>
    rw [Stack.code, htop] at hcode
    apply hkept
    · rw [Process.enter, hcode]
      rfl
    · rw [Hooks.Orderly, htop]
      trivial
  | some dst =>
    rw [Stack.code, htop] at hcode
    obtain ⟨s, hmem⟩ := Stack.mem_of_top htop
    obtain ⟨⟨u, hu, rfl⟩, -, harea⟩ := h.proper f s dst hmem
    cases dst with
    | fn g =>
      apply hkept
      · rw [Process.enter, hcode]
        rfl
      · rw [Hooks.Orderly, htop]
        trivial
    | area stub =>
      obtain rfl := harea stub rfl
      have henter : p.enter m u.fn removes adds =
          p.stub_parse_context m stub removes adds := by
        rw [Process.enter, hcode]
        rfl
      have hfn : (p.stubs stub).fn = some u.fn := by
        rw [h.fn, hu]
        rfl
      have horderly : a.Orderly m (.call u.fn removes adds) ↔
          a.new_fns stub ≠ some u.fn := by
        rw [Hooks.Orderly, htop]
      by_cases hself : a.new_fns stub = some u.fn
      · have hexpected : (a.hooked u.fn).code u.fn = .jump (.area stub) := by
          rw [Stack.code, htop]
          rfl
        refine ⟨iff_of_false ?_ (fun h ↦ horderly.mp h hself),
          fun _ _ h ↦ absurd hself (horderly.mp h)⟩
        rintro ⟨p', hp', hall⟩
        have hentered : p' ∈ p.stub_parse_context m stub removes adds := henter ▸ hp'
        exact h.jump_lost hfn hself p' hentered ((hall u.fn).trans hexpected)
      · apply hkept
        · rw [henter, Process.stub_parse_context, if_pos (by rw [hfn, h.new_fn]; exact hself)]
        · exact horderly.mpr hself

end Steps

/-- Three functions, each of them on one page. -/
def threeFunctions : Pages (Fin 3) := ⟨4096, fun f ↦ 64 * f.val⟩

end Libobject.Stub
