import Mathlib.Data.List.Basic
import Mathlib.Data.List.Nodup
import Mathlib.Logic.Function.Basic
import Libobject.Lib.Scan

/-!
# Classes and their methods

A class registers a table of its entries. An object has a slot for every method of each of its
classes, and when it is made they are filled class by class, from the root on: with what the table
of the class itself has, with what it inherits, and last with what the classes below it have put
in its place. Only the functions of a table matter here.

A hierarchy is the list of its tables, the most derived one first; the parent of a table, which it
names in its first entry, is the next one. The name of its class, and that of the class that is
being filled, are copied to arrays of an object; to write behind them is undefined.
-/

namespace Libobject

structure Entry (F : Type*) where
  /-- `ENTRY_TYPE_VFUNC_POINTER`, otherwise `ENTRY_TYPE_FUNC_POINTER` -/
  virtual : Bool
  value_name : Text
  value : Option F

/-- The members of a C struct have different names. -/
structure ClassInfo (F : Type*) where
  name : Text
  entries : List (Entry F)
  nodup : (entries.map Entry.value_name).Nodup

/-- The slots of all classes, by the class and the name, and the functions that have been called. -/
structure Obj (F : Type*) where
  name : Text
  slot : Text → Text → Option F
  called : List F

/-- How the making of an object ends without one. -/
inductive Failure
  | thrown
  | undefined
  deriving DecidableEq

namespace Obj

variable {F : Type*}

/-- What `set` of the root class does with a function, `target_name` being the class. -/
def store (o : Obj F) (target_name attrib : Text) (value : F) : Obj F :=
  { o with slot := fun c a ↦ if c = target_name ∧ a = attrib then some value else o.slot c a }

end Obj

namespace ClassInfo

variable {F : Type*}

def construct : Text := Scan.ascii "construct"

def deconstruct : Text := Scan.ascii "deconstruct"

def set : Text := Scan.ascii "set"

def MAX_CLASS_NAME_LEN : ℕ := 25

/-- `strcpy` to `name` or `target_name`; `o` is the object with the copy. -/
def strcpy (name : Text) (o : Obj F) : Except Failure (Obj F) :=
  if name.length < MAX_CLASS_NAME_LEN then .ok o else .error .undefined

def orThrow {α : Type*} : Option α → Except Failure α
  | none => .error .thrown
  | some a => .ok a

/-- `__object_get_private_func_of_class` -/
def private_func (c : ClassInfo F) (name : Text) : Option F :=
  (c.entries.find? fun e ↦ e.value_name = name ∧ e.virtual = false).bind Entry.value

/-- `__object_get_lastest_vitual_func` -/
def lastest_virtual_func (name : Text) : List (ClassInfo F) → Option F
  | [] => none
  | c :: ancestors =>
    match c.entries.find? fun e ↦ e.value_name = name ∧ e.value.isSome ∧ e.virtual with
    | some e => e.value
    | none => lastest_virtual_func name ancestors

/-- `object_get_lastest_virtual_func`, from the first class of the list up to the class `last`. -/
def lastest_virtual_func_to (last name : Text) : List (ClassInfo F) → Option F
  | [] => none
  | c :: ancestors =>
    match (c.entries.find? fun e ↦ e.virtual ∧ e.value_name = name).bind Entry.value with
    | some f => some f
    | none => if c.name = last then none else lastest_virtual_func_to last name ancestors

section Init

variable (setter : F → Obj F → Text → Text → F → Obj F)

/-- The functions that the table itself has; `lineage` is the class and those above it. -/
def init_funcs (o : Obj F) (c : ClassInfo F) (lineage : List (ClassInfo F)) : Option (Obj F) :=
  (lastest_virtual_func set lineage).map fun s ↦
    c.entries.foldl (fun o e ↦
      match e.value with
      | none => o
      | some f => setter s o c.name e.value_name f) o

/-- Virtual functions that the table leaves open. -/
def inherit_funcs (o : Obj F) (c : ClassInfo F) (lineage : List (ClassInfo F)) : Option (Obj F) :=
  (lastest_virtual_func set lineage).map fun s ↦
    c.entries.foldl (fun o e ↦
      if e.value.isNone ∧ e.virtual then
        match lastest_virtual_func e.value_name lineage with
        | none => o
        | some f => setter s o c.name e.value_name f
      else o) o

/-- What the classes of the object down to `type_name` have instead; `classes` is all of them. -/
def override_virtual_func (type_name : Text) (classes : List (ClassInfo F)) (o : Obj F)
    (c : ClassInfo F) (lineage : List (ClassInfo F)) : Option (Obj F) :=
  if c.name = type_name then some o
  else
    (lastest_virtual_func set lineage).map fun s ↦
      c.entries.foldl (fun o e ↦
        if e.virtual then
          match lastest_virtual_func_to c.name e.value_name classes with
          | none => o
          | some f => setter s o c.name e.value_name f
        else o) o

variable (succeeds : F → Bool)

/-- A construct function is called, and may fail. -/
def run_construct (o : Obj F) (c : ClassInfo F) : Option (Obj F) :=
  match c.private_func construct with
  | none => some o
  | some f => if succeeds f then some { o with called := o.called ++ [f] } else none

/-- `__object_init` of the classes of a lineage; `classes` is the whole hierarchy. -/
def object_init (type_name : Text) (classes : List (ClassInfo F)) :
    List (ClassInfo F) → Obj F → Except Failure (Obj F)
  | [], _ => .error .thrown
  | c :: ancestors, o => do
    let o ← (if ancestors.isEmpty then .ok o else object_init type_name classes ancestors o)
    let o ← strcpy c.name o
    let o ← orThrow (init_funcs setter o c (c :: ancestors))
    let o ← orThrow
      (if ancestors.isEmpty then some o else inherit_funcs setter o c (c :: ancestors))
    let o ← orThrow (override_virtual_func setter type_name classes o c (c :: ancestors))
    orThrow (run_construct succeeds o c)

/-- The memory is cleared before anything is set. -/
def object_new : List (ClassInfo F) → Except Failure (Obj F)
  | [] => .error .thrown
  | c :: ancestors => do
    let o ← strcpy c.name ⟨c.name, fun _ _ ↦ none, []⟩
    object_init setter succeeds c.name (c :: ancestors) (c :: ancestors) o

end Init

/-- The deconstruct functions of a class and those above it, in the order in which they are called.
-/
def deconstructs : List (ClassInfo F) → List F
  | [] => []
  | c :: ancestors => (c.private_func deconstruct).toList ++ deconstructs ancestors

/-- From the class on that has the name of the object. -/
def object_destroy (classes : List (ClassInfo F)) (o : Obj F) : List F :=
  deconstructs (classes.dropWhile fun c ↦ c.name ≠ o.name)

/-! ## What the slots are for -/

/-- What a class has for a virtual function. -/
def implementation (name : Text) (c : ClassInfo F) : Option F :=
  (c.entries.find? fun e ↦ e.virtual ∧ e.value_name = name).bind Entry.value

/-- What a slot is to hold: the most derived implementation, or what the class has itself. -/
def dispatched (classes : List (ClassInfo F)) (e : Entry F) : Option F :=
  if e.virtual then classes.findSome? (implementation e.value_name) else e.value

/-- The construct functions, those of the ancestors first. -/
def constructs (classes : List (ClassInfo F)) : List F :=
  classes.reverse.filterMap fun c ↦ c.private_func construct

section Lookup

variable {c : ClassInfo F} {e : Entry F}

theorem eq_of_value_name (he : e ∈ c.entries) {e' : Entry F} (he' : e' ∈ c.entries)
    (hname : e'.value_name = e.value_name) : e' = e :=
  List.inj_on_of_nodup_map c.nodup he' he hname

theorem implementation_of_mem (he : e ∈ c.entries) (hvirtual : e.virtual = true) :
    c.implementation e.value_name = e.value := by
  unfold implementation
  cases hfind : c.entries.find? fun e' ↦ e'.virtual ∧ e'.value_name = e.value_name with
  | none =>
    have hnot := List.find?_eq_none.mp hfind e he
    simp [hvirtual] at hnot
  | some e' =>
    have hname := List.find?_some hfind
    simp only [decide_eq_true_eq] at hname
    rw [eq_of_value_name he (List.mem_of_find?_eq_some hfind) hname.2]
    rfl

theorem lastest_virtual_func_eq (name : Text) (classes : List (ClassInfo F)) :
    lastest_virtual_func name classes = classes.findSome? (implementation name) := by
  induction classes with
  | nil => rfl
  | cons c ancestors ih =>
    rw [lastest_virtual_func, List.findSome?_cons]
    cases hfind : c.entries.find? fun e ↦ e.value_name = name ∧ e.value.isSome ∧ e.virtual with
    | none =>
      have himplementation : c.implementation name = none := by
        unfold implementation
        cases hvirtual : c.entries.find? fun e ↦ e.virtual ∧ e.value_name = name with
        | none => rfl
        | some e =>
          have hnot := List.find?_eq_none.mp hfind e (List.mem_of_find?_eq_some hvirtual)
          have hname := List.find?_some hvirtual
          simp only [decide_eq_true_eq] at hname
          simpa [hname.1, hname.2] using hnot
      rw [himplementation]
      exact ih
    | some e =>
      have hname := List.find?_some hfind
      simp only [decide_eq_true_eq] at hname
      obtain ⟨rfl, hsome, hvirtual⟩ := hname
      rw [implementation_of_mem (List.mem_of_find?_eq_some hfind) hvirtual]
      obtain ⟨f, hf⟩ := Option.isSome_iff_exists.mp hsome
      rw [hf]
      exact hf

theorem lastest_virtual_func_to_eq (name : Text) {below above : List (ClassInfo F)}
    (hbelow : ∀ d ∈ below, d.name ≠ c.name) :
    lastest_virtual_func_to c.name name (below ++ c :: above) =
      (below ++ [c]).findSome? (implementation name) := by
  induction below with
  | nil =>
    rw [List.nil_append, lastest_virtual_func_to, List.nil_append, List.findSome?_cons]
    change (match c.implementation name with | some f => some f | none => _) = _
    cases c.implementation name with
    | none => exact if_pos rfl
    | some f => rfl
  | cons d below ih =>
    obtain ⟨hd, hbelow⟩ := List.forall_mem_cons.mp hbelow
    rw [List.cons_append, lastest_virtual_func_to, List.cons_append, List.findSome?_cons]
    change (match d.implementation name with | some f => some f | none => _) = _
    cases d.implementation name with
    | none => exact (if_neg hd).trans (ih hbelow)
    | some f => rfl

end Lookup

/-! ### One class -/

/-- Some functions are stored in the slots of a class. -/
def fill (o : Obj F) (c : ClassInfo F) (g : Entry F → Option F) : Obj F :=
  c.entries.foldl (fun o e ↦
    match g e with
    | none => o
    | some f => o.store c.name e.value_name f) o

section Fill

variable {c : ClassInfo F} {g : Entry F → Option F}

theorem foldl_store (n : Text) {es : List (Entry F)} (hes : (es.map Entry.value_name).Nodup)
    (o : Obj F) :
    let o' := es.foldl (fun o e ↦
      match g e with
      | none => o
      | some f => o.store n e.value_name f) o
    (∀ e ∈ es, o'.slot n e.value_name = (g e).or (o.slot n e.value_name)) ∧
      (∀ m a, (m ≠ n ∨ a ∉ es.map Entry.value_name) → o'.slot m a = o.slot m a) ∧
      o'.called = o.called ∧ o'.name = o.name := by
  induction es generalizing o with
  | nil => exact ⟨nofun, fun _ _ _ ↦ rfl, rfl, rfl⟩
  | cons e es ih =>
    obtain ⟨he, hes⟩ := List.nodup_cons.mp hes
    let o₁ : Obj F := match g e with
      | none => o
      | some f => o.store n e.value_name f
    obtain ⟨hin, hout, hcalled, hname⟩ := ih hes o₁
    have hother : ∀ m a, m ≠ n ∨ a ≠ e.value_name → o₁.slot m a = o.slot m a := by
      intro m a hma
      cases hg : g e with
      | none => simp only [o₁, hg]
      | some f =>
        simp only [o₁, hg, Obj.store]
        exact if_neg fun heq ↦ hma.elim (· heq.1) (· heq.2)
    have hself : o₁.slot n e.value_name = (g e).or (o.slot n e.value_name) := by
      cases hg : g e with
      | none => simp only [o₁, hg, Option.none_or]
      | some f => simp [o₁, hg, Obj.store]
    refine ⟨fun e' he' ↦ ?_, fun m a hma ↦ ?_, ?_, ?_⟩
    · rcases List.mem_cons.mp he' with rfl | he'
      · exact (hout n _ (.inr he)).trans hself
      · have hne : e'.value_name ≠ e.value_name := fun heq ↦
          he (heq ▸ List.mem_map_of_mem he')
        exact (hin e' he').trans (congrArg _ (hother n _ (.inr hne)))
    · have hmem : m ≠ n ∨ a ≠ e.value_name := hma.imp_right fun h heq ↦
        h (List.mem_cons.mpr (.inl heq))
      refine (hout m a (hma.imp_right fun h hmap ↦ h (List.mem_cons_of_mem _ hmap))).trans ?_
      exact hother m a hmem
    · refine hcalled.trans ?_
      cases hg : g e with
      | none => simp only [o₁, hg]
      | some f => simp only [o₁, hg, Obj.store]
    · refine hname.trans ?_
      cases hg : g e with
      | none => simp only [o₁, hg]
      | some f => simp only [o₁, hg, Obj.store]

theorem slot_fill (o : Obj F) {e : Entry F} (he : e ∈ c.entries) :
    (fill o c g).slot c.name e.value_name = (g e).or (o.slot c.name e.value_name) :=
  (foldl_store c.name c.nodup o).1 e he

theorem slot_fill_ne (o : Obj F) {n : Text} (hn : n ≠ c.name) (a : Text) :
    (fill o c g).slot n a = o.slot n a :=
  (foldl_store c.name c.nodup o).2.1 n a (.inl hn)

theorem kept_fill (o : Obj F) :
    (fill o c g).called = o.called ∧ (fill o c g).name = o.name :=
  (foldl_store c.name c.nodup o).2.2

end Fill

/-- What the classes have for `set` stores a function as the root's does. -/
def Stores (setter : F → Obj F → Text → Text → F → Obj F) (classes : List (ClassInfo F)) : Prop :=
  ∀ c ∈ classes, ∀ s ∈ c.implementation set, setter s = Obj.store

section Level

variable {setter : F → Obj F → Text → Text → F → Obj F} {c : ClassInfo F} {s : F}
  {lineage : List (ClassInfo F)}

theorem init_funcs_eq (hs : lastest_virtual_func set lineage = some s)
    (hstore : setter s = Obj.store) (o : Obj F) :
    init_funcs setter o c lineage = some (fill o c Entry.value) := by
  rw [init_funcs, hs, Option.map_some, hstore]
  rfl

def inherited (lineage : List (ClassInfo F)) (e : Entry F) : Option F :=
  if e.value.isNone ∧ e.virtual then lastest_virtual_func e.value_name lineage else none

theorem inherit_funcs_eq (hs : lastest_virtual_func set lineage = some s)
    (hstore : setter s = Obj.store) (o : Obj F) :
    inherit_funcs setter o c lineage = some (fill o c (inherited lineage)) := by
  rw [inherit_funcs, hs, Option.map_some, hstore, fill]
  refine congrArg (fun f ↦ some (c.entries.foldl f o)) (funext₂ fun o e ↦ ?_)
  unfold inherited
  by_cases he : e.value.isNone ∧ e.virtual
  · simp only [if_pos he]
  · simp only [if_neg he]

def overridden (classes : List (ClassInfo F)) (c : ClassInfo F) (e : Entry F) : Option F :=
  if e.virtual then lastest_virtual_func_to c.name e.value_name classes else none

theorem override_virtual_func_eq {type_name : Text} {classes : List (ClassInfo F)}
    (hs : lastest_virtual_func set lineage = some s) (hstore : setter s = Obj.store)
    (hc : c.name ≠ type_name) (o : Obj F) :
    override_virtual_func setter type_name classes o c lineage =
      some (fill o c (overridden classes c)) := by
  rw [override_virtual_func, if_neg hc, hs, Option.map_some, hstore, fill]
  refine congrArg (fun f ↦ some (c.entries.foldl f o)) (funext₂ fun o e ↦ ?_)
  unfold overridden
  by_cases he : e.virtual = true
  · simp only [if_pos he]
  · simp only [if_neg he]

theorem dispatched_eq {below above : List (ClassInfo F)} (hbelow : ∀ d ∈ below, d.name ≠ c.name)
    {e : Entry F} (he : e ∈ c.entries) :
    ((if below = [] then none else overridden (below ++ c :: above) c e).or
      ((if above = [] then none else inherited (c :: above) e).or e.value)) =
        dispatched (below ++ c :: above) e := by
  unfold dispatched overridden inherited
  cases hvirtual : e.virtual with
  | false => simp
  | true =>
    have hown := implementation_of_mem he hvirtual
    rw [lastest_virtual_func_to_eq _ hbelow, lastest_virtual_func_eq]
    simp only [if_true, and_true, List.findSome?_append, List.findSome?_cons, hown,
      List.findSome?_nil]
    by_cases hb : below = [] <;> by_cases ha : above = [] <;> cases he : e.value <;>
      simp [hb, ha]

theorem fill_level {below above : List (ClassInfo F)} (hbelow : ∀ d ∈ below, d.name ≠ c.name)
    {type_name : Text} (htype : c.name = type_name ↔ below = [])
    (hs : lastest_virtual_func set (c :: above) = some s) (hstore : setter s = Obj.store)
    {o : Obj F} (hblank : ∀ a, o.slot c.name a = none) :
    ∃ o₁ o₂ o₃, init_funcs setter o c (c :: above) = some o₁ ∧
      (if above.isEmpty then some o₁ else inherit_funcs setter o₁ c (c :: above)) = some o₂ ∧
      override_virtual_func setter type_name (below ++ c :: above) o₂ c (c :: above) = some o₃ ∧
      (∀ e ∈ c.entries, o₃.slot c.name e.value_name = dispatched (below ++ c :: above) e) ∧
      (∀ n ≠ c.name, ∀ a, o₃.slot n a = o.slot n a) ∧ o₃.called = o.called ∧ o₃.name = o.name := by
  let o₁ := fill o c Entry.value
  let o₂ := if above = [] then o₁ else fill o₁ c (inherited (c :: above))
  let o₃ := if below = [] then o₂ else fill o₂ c (overridden (below ++ c :: above) c)
  have hinherit : (if above.isEmpty then some o₁ else inherit_funcs setter o₁ c (c :: above)) =
      some o₂ := by
    by_cases ha : above = []
    · simp only [ha, List.isEmpty_nil, if_true, o₂]
    · rw [if_neg (by simpa using ha), inherit_funcs_eq hs hstore]
      exact congrArg some (if_neg ha).symm
  have hoverride : override_virtual_func setter type_name (below ++ c :: above) o₂ c
      (c :: above) = some o₃ := by
    by_cases hb : below = []
    · rw [override_virtual_func, if_pos (htype.mpr hb)]
      exact congrArg some (if_pos hb).symm
    · rw [override_virtual_func_eq hs hstore fun h ↦ hb (htype.mp h)]
      exact congrArg some (if_neg hb).symm
  refine ⟨o₁, o₂, o₃, init_funcs_eq hs hstore o, hinherit, hoverride, fun e he ↦ ?_,
    fun n hn a ↦ ?_, ?_⟩
  · rw [← dispatched_eq hbelow he]
    have h₁ : o₁.slot c.name e.value_name = e.value := by
      rw [slot_fill o he, hblank, Option.or_none]
    have h₂ : o₂.slot c.name e.value_name =
        (if above = [] then none else inherited (c :: above) e).or e.value := by
      by_cases ha : above = []
      · simp only [o₂, if_pos ha, h₁, Option.none_or]
      · simp only [o₂, if_neg ha, slot_fill o₁ he, h₁]
    by_cases hb : below = []
    · simp only [o₃, if_pos hb, h₂, Option.none_or]
    · simp only [o₃, if_neg hb, slot_fill o₂ he, h₂]
  · have h₁ : o₁.slot n a = o.slot n a := slot_fill_ne o hn a
    have h₂ : o₂.slot n a = o.slot n a := by
      by_cases ha : above = []
      · simpa only [o₂, if_pos ha] using h₁
      · simpa only [o₂, if_neg ha, slot_fill_ne o₁ hn] using h₁
    by_cases hb : below = []
    · simpa only [o₃, if_pos hb] using h₂
    · simpa only [o₃, if_neg hb, slot_fill_ne o₂ hn] using h₂
  · have h₂ : o₂.called = o.called ∧ o₂.name = o.name := by
      by_cases ha : above = []
      · simpa only [o₂, if_pos ha] using kept_fill o
      · simpa only [o₂, if_neg ha, kept_fill o₁] using kept_fill o
    by_cases hb : below = []
    · simpa only [o₃, if_pos hb] using h₂
    · simpa only [o₃, if_neg hb, kept_fill o₂] using h₂

end Level

/-- Classes of one line of descent, the root of which can be set. -/
structure Hierarchy (F : Type*) where
  progeny : List (ClassInfo F)
  root : ClassInfo F
  nodup : ((progeny ++ [root]).map ClassInfo.name).Nodup
  set_root : (root.implementation set).isSome

namespace Hierarchy

def classes (h : Hierarchy F) : List (ClassInfo F) := h.progeny ++ [h.root]

end Hierarchy

section Init

variable {setter : F → Obj F → Text → Text → F → Obj F}

theorem constructs_cons (c : ClassInfo F) (ancestors : List (ClassInfo F)) :
    constructs (c :: ancestors) = constructs ancestors ++ (c.private_func construct).toList := by
  rw [constructs, List.reverse_cons, List.filterMap_append]
  refine congrArg _ ?_
  rw [List.filterMap_cons]
  cases c.private_func construct <;> rfl

/-- What the slots of some classes are to hold, and who has been called. -/
structure Made (classes lineage : List (ClassInfo F)) (o o' : Obj F) : Prop where
  slot : ∀ c ∈ lineage, ∀ e ∈ c.entries, o'.slot c.name e.value_name = dispatched classes e
  other : ∀ n, (∀ c ∈ lineage, n ≠ c.name) → ∀ a, o'.slot n a = o.slot n a
  called : o'.called = o.called ++ constructs lineage
  name : o'.name = o.name

variable {h : Hierarchy F}

theorem Hierarchy.setter_of_suffix (hset : Stores setter h.classes)
    {below lineage : List (ClassInfo F)} (hclasses : h.classes = below ++ lineage)
    (hne : lineage ≠ []) :
    ∃ s, lastest_virtual_func set lineage = some s ∧ setter s = Obj.store := by
  have hroot : h.root ∈ lineage := by
    have hlast := congrArg List.getLast? hclasses
    rw [Hierarchy.classes, List.getLast?_append, List.getLast?_append] at hlast
    obtain ⟨l, x, rfl⟩ := (List.eq_nil_or_concat lineage).resolve_left hne
    simp only [List.getLast?_singleton, Option.some_or, List.concat_eq_append,
      List.getLast?_append, Option.some.injEq] at hlast
    rw [hlast, List.concat_eq_append]
    exact List.mem_append_right l (List.mem_singleton.mpr rfl)
  rw [lastest_virtual_func_eq]
  cases hfind : lineage.findSome? (implementation set) with
  | none =>
    have hnone := List.findSome?_eq_none_iff.mp hfind h.root hroot
    have hsome := h.set_root
    rw [hnone] at hsome
    exact nomatch hsome
  | some s =>
    obtain ⟨c, hc, hs⟩ := List.exists_of_findSome?_eq_some hfind
    exact ⟨s, rfl, hset c (hclasses ▸ List.mem_append_right below hc) s hs⟩

section Lineage

variable {below above : List (ClassInfo F)} {c : ClassInfo F}

theorem Hierarchy.below_name_ne (hclasses : h.classes = below ++ c :: above) {d : ClassInfo F}
    (hd : d ∈ below) : d.name ≠ c.name := by
  have hnames := h.nodup
  rw [← Hierarchy.classes, hclasses, List.map_append, List.map_cons] at hnames
  exact (List.nodup_append.mp hnames).2.2 _ (List.mem_map_of_mem hd) _ List.mem_cons_self

theorem Hierarchy.above_name_ne (hclasses : h.classes = below ++ c :: above) {d : ClassInfo F}
    (hd : d ∈ above) : d.name ≠ c.name := by
  have hnames := h.nodup
  rw [← Hierarchy.classes, hclasses, List.map_append, List.map_cons] at hnames
  intro heq
  exact (List.nodup_cons.mp (List.nodup_append.mp hnames).2.1).1 (heq ▸ List.mem_map_of_mem hd)

theorem Hierarchy.name_eq_iff (hclasses : h.classes = below ++ c :: above) {type_name : Text}
    (htype : ∀ d ∈ h.classes.head?, d.name = type_name) : c.name = type_name ↔ below = [] := by
  cases below with
  | nil =>
    rw [hclasses] at htype
    exact iff_of_true (htype c rfl) rfl
  | cons b below =>
    have hne := Hierarchy.below_name_ne hclasses List.mem_cons_self
    rw [hclasses] at htype
    exact iff_of_false (fun heq ↦ hne ((htype b rfl).trans heq.symm)) (List.cons_ne_nil b below)

theorem Made.cons (hclasses : h.classes = below ++ c :: above) {o o₀ o' : Obj F}
    (hmade : Made h.classes above o o₀)
    (hslot : ∀ e ∈ c.entries, o'.slot c.name e.value_name = dispatched h.classes e)
    (hother : ∀ n, n ≠ c.name → ∀ a, o'.slot n a = o₀.slot n a)
    (hcalled : o'.called = o₀.called ++ (c.private_func construct).toList)
    (hname : o'.name = o₀.name) : Made h.classes (c :: above) o o' := by
  refine ⟨fun d hd e he ↦ ?_, fun n hn a ↦ ?_, ?_, hname.trans hmade.name⟩
  · rcases List.mem_cons.mp hd with rfl | hd
    · exact hslot e he
    · rw [hother d.name (h.above_name_ne hclasses hd)]
      exact hmade.slot d hd e he
  · obtain ⟨hc, habove⟩ := List.forall_mem_cons.mp hn
    rw [hother n hc]
    exact hmade.other n habove a
  · rw [hcalled, hmade.called, constructs_cons, List.append_assoc]

end Lineage

theorem object_init_spec (succeeds : F → Bool) (hset : Stores setter h.classes) {type_name : Text}
    (htype : ∀ c ∈ h.classes.head?, c.name = type_name) {below lineage : List (ClassInfo F)}
    (hclasses : h.classes = below ++ lineage) (hne : lineage ≠ [])
    (hshort : ∀ c ∈ lineage, c.name.length < MAX_CLASS_NAME_LEN) {o : Obj F}
    (hblank : ∀ c ∈ lineage, ∀ a, o.slot c.name a = none) :
    if (constructs lineage).all succeeds then
      ∃ o', object_init setter succeeds type_name h.classes lineage o = .ok o' ∧
        Made h.classes lineage o o'
    else object_init setter succeeds type_name h.classes lineage o = .error .thrown := by
  induction lineage generalizing below with
  | nil => exact absurd rfl hne
  | cons c above ih =>
    obtain ⟨s, hs, hstore⟩ := h.setter_of_suffix hset hclasses hne
    obtain ⟨hc, habove⟩ := List.forall_mem_cons.mp hshort
    have hstrcpy (o : Obj F) : strcpy c.name o = .ok o := if_pos hc
    have hancestors : if (constructs above).all succeeds then
        ∃ o₀, (if above.isEmpty then .ok o
          else object_init setter succeeds type_name h.classes above o) = .ok o₀ ∧
            Made h.classes above o o₀
        else (if above.isEmpty then .ok o
          else object_init setter succeeds type_name h.classes above o) = .error .thrown := by
      cases above with
      | nil => exact ⟨o, rfl, nofun, fun _ _ _ ↦ rfl, (List.append_nil _).symm, rfl⟩
      | cons d above =>
        have hclasses' : h.classes = (below ++ [c]) ++ d :: above := by
          rw [hclasses, List.append_assoc]
          rfl
        exact ih hclasses' (List.cons_ne_nil d above) habove fun e he ↦
          hblank e (List.mem_cons_of_mem c he)
    rw [constructs_cons, List.all_append]
    by_cases hall : (constructs above).all succeeds = true
    · rw [if_pos hall] at hancestors
      obtain ⟨o₀, ho₀, hmade⟩ := hancestors
      have hblank₀ : ∀ a, o₀.slot c.name a = none := fun a ↦
        (hmade.other c.name (fun d hd ↦ (h.above_name_ne hclasses hd).symm) a).trans
          (hblank c List.mem_cons_self a)
      obtain ⟨o₁, o₂, o₃, ho₁, ho₂, ho₃, hslot, hother, hcalled, hname⟩ :=
        fill_level (fun d hd ↦ h.below_name_ne hclasses hd) (h.name_eq_iff hclasses htype) hs
          hstore hblank₀
      rw [← hclasses] at ho₃ hslot
      have hinit : object_init setter succeeds type_name h.classes (c :: above) o =
          orThrow (run_construct succeeds o₃ c) := by
        simp only [object_init, ho₀, hstrcpy, ho₁, ho₂, ho₃, orThrow, bind, Except.bind]
      rw [hinit, hall, Bool.true_and]
      unfold run_construct
      cases hconstruct : c.private_func construct with
      | none =>
        refine ⟨o₃, rfl, hmade.cons hclasses hslot hother ?_ hname⟩
        rw [hcalled, hconstruct]
        exact (List.append_nil _).symm
      | some f =>
        cases hf : succeeds f with
        | true =>
          simp only [Option.toList_some, List.all_cons, hf, List.all_nil, Bool.and_self,
            if_true]
          refine ⟨_, rfl, hmade.cons hclasses hslot hother ?_ hname⟩
          rw [hconstruct, hcalled]
          rfl
        | false => simp [hf, orThrow]
    · rw [if_neg hall] at hancestors
      have hfalse : (constructs above).all succeeds = false := Bool.eq_false_iff.mpr hall
      rw [hfalse, Bool.false_and, if_neg Bool.false_ne_true]
      simp only [object_init, hancestors, bind, Except.bind]

theorem deconstructs_eq (classes : List (ClassInfo F)) :
    deconstructs classes = classes.filterMap fun c ↦ c.private_func deconstruct := by
  induction classes with
  | nil => rfl
  | cons c ancestors ih =>
    rw [deconstructs, ih, List.filterMap_cons]
    cases c.private_func deconstruct <;> rfl

/-- Of classes that all construct functions succeed for, the one with a long name is come to. -/
theorem object_init_long (succeeds : F → Bool) {type_name : Text}
    (hset : Stores setter h.classes)
    (htype : ∀ c ∈ h.classes.head?, c.name = type_name) (hall : ∀ f, succeeds f = true)
    {below lineage : List (ClassInfo F)} (hclasses : h.classes = below ++ lineage)
    (hlong : ∃ c ∈ lineage, ¬c.name.length < MAX_CLASS_NAME_LEN) {o : Obj F}
    (hblank : ∀ c ∈ lineage, ∀ a, o.slot c.name a = none) :
    object_init setter succeeds type_name h.classes lineage o = .error .undefined := by
  induction lineage generalizing below with
  | nil => exact absurd hlong.choose_spec.1 List.not_mem_nil
  | cons c above ih =>
    have hclasses' : h.classes = (below ++ [c]) ++ above := by
      rw [hclasses, List.append_assoc]
      rfl
    have hblank' : ∀ d ∈ above, ∀ a, o.slot d.name a = none :=
      fun d hd ↦ hblank d (List.mem_cons_of_mem c hd)
    by_cases habove : ∃ d ∈ above, ¬d.name.length < MAX_CLASS_NAME_LEN
    · have hne : above.isEmpty = false := by
        obtain ⟨d, hd, -⟩ := habove
        exact List.isEmpty_eq_false_iff.mpr (List.ne_nil_of_mem hd)
      simp only [object_init, hne, Bool.false_eq_true, if_false, ih hclasses' habove hblank', bind,
        Except.bind]
    · have hc : ¬c.name.length < MAX_CLASS_NAME_LEN := by
        obtain ⟨d, hd, hlong⟩ := hlong
        rcases List.mem_cons.mp hd with rfl | hd
        · exact hlong
        · exact absurd ⟨d, hd, hlong⟩ habove
      have hstrcpy (o : Obj F) : strcpy c.name o = .error .undefined := if_neg hc
      have hfirst : ∃ o', (if above.isEmpty then .ok o
          else object_init setter succeeds type_name h.classes above o) = .ok o' := by
        cases hempty : above.isEmpty with
        | true => exact ⟨o, rfl⟩
        | false =>
          have hspec := object_init_spec succeeds hset htype hclasses'
            (List.isEmpty_eq_false_iff.mp hempty)
            (fun d hd ↦ not_not.mp fun hlong ↦ habove ⟨d, hd, hlong⟩) hblank'
          rw [if_pos (List.all_eq_true.mpr fun f _ ↦ hall f)] at hspec
          obtain ⟨o', ho', -⟩ := hspec
          exact ⟨o', ho'⟩
      obtain ⟨o', ho'⟩ := hfirst
      simp only [object_init, ho', hstrcpy, bind, Except.bind]

/-- Whatever its construct functions return, an object is made if none of them fails. All its slots
then hold what they should, each construct function has been called once, those of the ancestors
first, and the deconstruct functions will be called the other way round. -/
def Dispatches (setter : F → Obj F → Text → Text → F → Obj F) (h : Hierarchy F) : Prop :=
  ∀ succeeds : F → Bool,
    (if ∀ f ∈ constructs h.classes, succeeds f = true then
        ∃ o, object_new setter succeeds h.classes = .ok o
      else object_new setter succeeds h.classes = .error .thrown) ∧
    ∀ o, object_new setter succeeds h.classes = .ok o →
      (∀ c ∈ h.classes, ∀ e ∈ c.entries,
        o.slot c.name e.value_name = dispatched h.classes e) ∧
      o.called = constructs h.classes ∧
      object_destroy h.classes o = h.classes.filterMap fun c ↦ c.private_func deconstruct

theorem dispatches_of_short {setter : F → Obj F → Text → Text → F → Obj F}
    (hset : Stores setter h.classes)
    (hshort : ∀ c ∈ h.classes, c.name.length < MAX_CLASS_NAME_LEN) : Dispatches setter h := by
  intro succeeds
  have hne : h.classes ≠ [] := List.append_ne_nil_of_right_ne_nil _ (List.cons_ne_nil _ _)
  obtain ⟨c, ancestors, hcons⟩ := List.exists_cons_of_ne_nil hne
  have hstrcpy (o : Obj F) : strcpy c.name o = .ok o :=
    if_pos (hshort c (hcons ▸ List.mem_cons_self))
  have hnew : object_new setter succeeds h.classes =
      object_init setter succeeds c.name h.classes h.classes ⟨c.name, fun _ _ ↦ none, []⟩ := by
    rw [hcons]
    simp only [object_new, hstrcpy, bind, Except.bind]
  have htype : ∀ d ∈ h.classes.head?, d.name = c.name := by
    rw [hcons]
    rintro d hd
    cases hd
    rfl
  have hspec := object_init_spec succeeds hset htype (List.nil_append _).symm hne
    hshort (o := ⟨c.name, fun _ _ ↦ none, []⟩) fun _ _ _ ↦ rfl
  rw [← hnew] at hspec
  simp only [← List.all_eq_true]
  refine ⟨?_, fun o ho ↦ ?_⟩
  · split at hspec
    · next hall =>
        obtain ⟨o, ho, -⟩ := hspec
        rw [if_pos hall]
        exact ⟨o, ho⟩
    · next hall =>
        rw [if_neg hall]
        exact hspec
  · split at hspec
    · obtain ⟨o', ho', hmade⟩ := hspec
      obtain rfl := Except.ok.inj (ho'.symm.trans ho)
      refine ⟨hmade.slot, hmade.called, ?_⟩
      rw [object_destroy, hmade.name, hcons, List.dropWhile_cons_of_neg (by simp), deconstructs_eq]
    · rw [hspec] at ho
      exact nomatch ho

theorem not_dispatches_of_long {setter : F → Obj F → Text → Text → F → Obj F}
    (hset : Stores setter h.classes)
    (hlong : ∃ c ∈ h.classes, ¬c.name.length < MAX_CLASS_NAME_LEN) : ¬Dispatches setter h := by
  intro hdispatches
  have hok := (hdispatches fun _ ↦ true).1
  rw [if_pos fun _ _ ↦ rfl] at hok
  obtain ⟨o, ho⟩ := hok
  have hne : h.classes ≠ [] := List.append_ne_nil_of_right_ne_nil _ (List.cons_ne_nil _ _)
  obtain ⟨c, ancestors, hcons⟩ := List.exists_cons_of_ne_nil hne
  have htype : ∀ d ∈ h.classes.head?, d.name = c.name := by
    rw [hcons]
    rintro d hd
    cases hd
    rfl
  have hinit (o : Obj F) (hblank : ∀ c ∈ h.classes, ∀ a, o.slot c.name a = none) :=
    object_init_long (fun _ ↦ true) hset htype (fun _ ↦ rfl) (List.nil_append _).symm
      hlong hblank
  rw [hcons] at ho hinit
  rw [object_new] at ho
  unfold strcpy at ho
  split at ho
  · exact nomatch ho.symm.trans (hinit _ fun _ _ _ ↦ rfl)
  · cases ho

/-- Methods are dispatched exactly if the names of the classes fit their arrays. -/
theorem object_new_dispatches (h : Hierarchy F) (setter : F → Obj F → Text → Text → F → Obj F)
    (hset : Stores setter h.classes) :
    Dispatches setter h ↔ ∀ c ∈ h.classes, c.name.length < MAX_CLASS_NAME_LEN := by
  refine ⟨fun hdispatches c hc ↦ ?_, dispatches_of_short hset⟩
  by_contra hlong
  exact not_dispatches_of_long hset ⟨c, hc, hlong⟩ hdispatches

/-- The root has `set` 1, `g` 2 and a construct function 3; the class below it leaves `g` open and
has `h` 4, and the last one has a `g` of its own, 5, and a construct function 6. -/
def sampleHierarchy : Hierarchy ℕ where
  progeny := [
    ⟨[1], [⟨false, construct, some 6⟩, ⟨true, [103], some 5⟩, ⟨true, [104], none⟩],
      by decide⟩,
    ⟨[2], [⟨true, [103], none⟩, ⟨true, [104], some 4⟩], by decide⟩]
  root := ⟨[3], [⟨true, set, some 1⟩, ⟨true, [103], some 2⟩, ⟨false, construct, some 3⟩],
    by decide⟩
  nodup := by decide
  set_root := by decide

theorem object_new_dispatches_sample : Dispatches (fun _ ↦ Obj.store) sampleHierarchy ↔
    ∀ c ∈ sampleHierarchy.classes, c.name.length < MAX_CLASS_NAME_LEN :=
  object_new_dispatches sampleHierarchy (fun _ ↦ Obj.store) fun _ _ _ _ ↦ rfl

/-- A class whose name has 25 characters. -/
def longHierarchy : Hierarchy ℕ where
  progeny := [⟨Scan.ascii "Busd_Object_Struct_Adaptr", [⟨false, deconstruct, some 4⟩], by decide⟩]
  root := ⟨[3], [⟨true, set, some 1⟩, ⟨false, deconstruct, some 2⟩], by decide⟩
  nodup := by decide
  set_root := by decide

theorem not_object_new_dispatches :
    ¬∀ h : Hierarchy ℕ, Dispatches (fun _ ↦ Obj.store) h := by
  intro h
  refine not_dispatches_of_long (h := longHierarchy) (fun _ _ _ _ ↦ rfl) ?_ (h longHierarchy)
  exact ⟨_, List.mem_cons_self, by decide⟩

end Init

end ClassInfo

end Libobject
