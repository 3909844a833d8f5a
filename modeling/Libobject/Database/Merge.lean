import Mathlib.Data.List.ReduceOption
import Libobject.Core.Vector
import Libobject.Lib.Occurs

/-!
# Merging a table

`Table.merge` takes the models of a table from the back. A model whose class is not among the new
models is cut and moved to them, any other one is added to the model of its class and destroyed. The
vectors are those of `PtrVector.sparse`.
-/

namespace Libobject.TableMerge

variable {S : Type}

/-- A model, known by its address. -/
structure Model (S : Type) where
  addr : ℕ
  val : S
  deriving DecidableEq

/-- What a class of models brings along, with the comparison of the call. What is missing has
failed; so has a comparison that is negative. -/
structure ModelClass (S : Type) where
  cmp : S → S → ℤ
  cut : S → Option S
  add : S → S → Option S

/-- Whether the new vector can be made, and whether it has room for a model with an address. If it
gets no memory for more slots it has none any more. -/
structure Memory where
  vector : Bool
  room : ℕ → Bool

/-- What is returned, the models of the table, the addresses of a model and of the one added to it,
call by call, and the addresses of the models that were destroyed. -/
structure Outcome (S : Type) where
  ret : ℤ
  models : List (Option (Model S))
  added : List (ℕ × ℕ)
  destroyed : List ℕ
  deriving DecidableEq

/-- A table owns each of its models once. -/
structure Table (S : Type) where
  models : List (Option (Model S))
  nodup : ((models.reduceOption).map Model.addr).Nodup

section Code

variable (c : ModelClass S) (room : ℕ → Bool)

/-- `CATCH`: the table keeps what is left of its vector, and the new one is destroyed with the
models that it owns. -/
def failed (rest new_models : List (Option (Model S))) (added : List (ℕ × ℕ)) : Outcome S :=
  ⟨-1, rest.reverse, added, added.map Prod.snd ++ new_models.reduceOption.map Model.addr⟩

/-- The loop, with the slots that are left from the back on. That `add_back` may fail is not
noticed, and what is done with the vector then is undefined. -/
def merge_models : List (Option (Model S)) → List (Option (Model S)) → List (ℕ × ℕ) →
    Option (Outcome S)
  | [], new_models, added => some ⟨1, new_models, added, added.map Prod.snd⟩
  | none :: rest, new_models, added => merge_models rest new_models added
  | some element :: rest, new_models, added =>
    let search := PtrVector.hit new_models fun e ↦ c.cmp e.val element.val
    if search.1 < 0 then some (failed rest new_models added)
    else
      match search.2 with
      | none =>
        match c.cut element.val with
        | none => some (failed rest new_models added)
        | some val =>
          if room element.addr then
            merge_models rest (new_models ++ [some ⟨element.addr, val⟩]) added
          else none
      | some (search_model, index) =>
        match c.add search_model.val element.val with
        | none => some (failed rest new_models added)
        | some val =>
          merge_models rest (new_models.set index (some ⟨search_model.addr, val⟩))
            (added ++ [(search_model.addr, element.addr)])

def merge (memory : Memory) (table : Table S) : Option (Outcome S) :=
  if memory.vector then merge_models c memory.room table.models.reverse [] []
  else some ⟨-1, table.models, [], []⟩

end Code

/-! ## What is meant -/

/-- The models in the order in which they are taken. -/
def Table.taken (table : Table S) : List (Model S) := table.models.reverse.reduceOption

theorem Table.nodup_taken (table : Table S) : (table.taken.map Model.addr).Nodup := by
  rw [Table.taken, List.reduceOption, List.filterMap_reverse, List.map_reverse, List.nodup_reverse]
  exact table.nodup

variable (c : ModelClass S) (r : S → S → Prop) [DecidableRel r]

/-- One model a class: the first one, cut, with the others of the class added in their order. -/
def classes : List (Model S) → Option (List (Model S))
  | [] => some []
  | m :: ms => do
    let first ← c.cut m.val
    let val ← (ms.filter fun e ↦ r m.val e.val).foldlM (fun val e ↦ c.add val e.val) first
    let others ← classes (ms.filter fun e ↦ ¬ r m.val e.val)
    some (⟨m.addr, val⟩ :: others)
  termination_by ms => ms.length
  decreasing_by
    simp only [List.length_cons, List.length_unattach]
    refine Nat.lt_succ_of_le ((List.length_filter_le ..).trans ?_)
    exact List.length_attach.le

/-- The comparison is that of an equivalence. -/
structure ModelClass.Lawful : Prop where
  equivalence : Equivalence r
  cmp_eq : ∀ a b, c.cmp a b = if r a b then 1 else 0

/-- Each model was added to one of its class. -/
def Kin (taken : List (Model S)) (added : List (ℕ × ℕ)) : Prop :=
  ∀ p ∈ added, ∃ m ∈ taken, ∃ x ∈ taken, m.addr = p.1 ∧ x.addr = p.2 ∧ r m.val x.val

/-- After a success the table holds the merged models, each of them made of models of one class, and
each model that the table had is one of these or was destroyed, but not both. After a failure it has
all the models that it had. -/
structure Merges (table : Table S) (out : Outcome S) : Prop where
  merged : 0 ≤ out.ret → ∃ ms, classes c r table.taken = some ms ∧ out.models = ms.map some ∧
    (ms.map Model.addr ++ out.destroyed).Perm (table.taken.map Model.addr)
  kin : 0 ≤ out.ret → Kin r table.taken out.added
  kept : out.ret < 0 → ∀ m ∈ table.taken, some m ∈ out.models ∧ m.addr ∉ out.destroyed

/-- For each model that is still to be taken, the first of the merged ones that it is equivalent to
is what became of the first model of its class. -/
def Follows (seen : List (Model S)) : List (Model S) → Prop
  | [] => True
  | x :: later =>
    (∀ ns ∈ classes c r seen, (ns.find? fun n ↦ r n.val x.val).map Model.addr =
      (seen.find? fun m ↦ r m.val x.val).map Model.addr) ∧
    Follows (seen ++ [x]) later

/-! ## One model at a time -/

/-- A model is added to the first one that is chosen. -/
def place (chosen : Model S → Bool) (x : Model S) : List (Model S) → Option (List (Model S))
  | [] => (c.cut x.val).map fun val ↦ [⟨x.addr, val⟩]
  | n :: ns =>
    if chosen n then (c.add n.val x.val).map fun val ↦ ⟨n.addr, val⟩ :: ns
    else (place chosen x ns).map (n :: ·)

section Place

variable {c} {x : Model S} {chosen : Model S → Bool}

theorem place_of_forall_not {ns : List (Model S)} (hns : ∀ n ∈ ns, ¬ chosen n) :
    place c chosen x ns = (c.cut x.val).map fun val ↦ ns ++ [⟨x.addr, val⟩] := by
  induction ns with
  | nil => rfl
  | cons n ns ih =>
    rw [List.forall_mem_cons] at hns
    rw [place, if_neg hns.1, ih hns.2, Option.map_map]
    rfl

theorem place_append {n : Model S} {before behind : List (Model S)}
    (hbefore : ∀ m ∈ before, ¬ chosen m) (hn : chosen n) :
    place c chosen x (before ++ n :: behind) =
      (c.add n.val x.val).map fun val ↦ before ++ ⟨n.addr, val⟩ :: behind := by
  induction before with
  | nil => exact if_pos hn
  | cons m before ih =>
    rw [List.forall_mem_cons] at hbefore
    rw [List.cons_append, place, if_neg hbefore.1, ih hbefore.2, Option.map_map]
    rfl

/-- Only which model is the first counts. -/
theorem place_congr {chosen' : Model S → Bool} {ns : List (Model S)}
    (h : ns.find? chosen = ns.find? chosen') : place c chosen x ns = place c chosen' x ns := by
  induction ns with
  | nil => rfl
  | cons n ns ih =>
    rw [List.find?_cons, List.find?_cons] at h
    rw [place, place]
    cases hn : chosen n <;> cases hn' : chosen' n <;> simp only [hn, hn'] at h
    · rw [if_neg Bool.false_ne_true, if_neg Bool.false_ne_true, ih h]
    · exact absurd (hn.symm.trans (List.find?_some h)) Bool.false_ne_true
    · exact absurd (hn'.symm.trans (List.find?_some h.symm)) Bool.false_ne_true
    · rfl

theorem place_addr {ns ns' : List (Model S)} (h : place c chosen x ns = some ns') :
    ns'.map Model.addr =
      ns.map Model.addr ++ if (ns.find? chosen).isSome then [] else [x.addr] := by
  rcases none_or_first (fun n ↦ chosen n) ns with hns | ⟨before, n, behind, rfl, hbefore, hn⟩
  · rw [place_of_forall_not hns] at h
    obtain ⟨val, -, rfl⟩ := Option.map_eq_some_iff.mp h
    rw [List.find?_eq_none.mpr hns, List.map_append]
    rfl
  · rw [place_append hbefore hn] at h
    obtain ⟨val, -, rfl⟩ := Option.map_eq_some_iff.mp h
    rw [List.find?_isSome.mpr ⟨n, List.mem_append_right _ List.mem_cons_self, hn⟩]
    simp

end Place

/-! ## The classes -/

variable {c r}

omit [DecidableRel r] in
theorem classes_induction [DecidableRel r] {motive : List (Model S) → Prop} (nil : motive [])
    (cons : ∀ m ms, motive (ms.filter fun e ↦ ¬ r m.val e.val) → motive (m :: ms))
    (ms : List (Model S)) : motive ms := by
  induction hn : ms.length using Nat.strong_induction_on generalizing ms with
  | _ n ih =>
    cases ms with
    | nil => exact nil
    | cons m ms =>
      refine cons m ms (ih _ ?_ _ rfl)
      rw [← hn]
      exact Nat.lt_succ_of_le (List.length_filter_le (fun e ↦ ¬ r m.val e.val) ms)

theorem classes_cons_eq_some {m : Model S} {ms ns : List (Model S)}
    (h : classes c r (m :: ms) = some ns) :
    ∃ val others, classes c r (ms.filter fun e ↦ ¬ r m.val e.val) = some others ∧
      ns = ⟨m.addr, val⟩ :: others := by
  rw [classes] at h
  obtain ⟨first, -, h⟩ := Option.bind_eq_some_iff.mp h
  obtain ⟨val, -, h⟩ := Option.bind_eq_some_iff.mp h
  obtain ⟨others, hothers, h⟩ := Option.bind_eq_some_iff.mp h
  exact ⟨val, others, hothers, (Option.some.inj h).symm⟩

/-- What is of another class is not found in this one. -/
theorem find?_filter_not (hr : Equivalence r) {m x : Model S} (hmx : ¬ r m.val x.val)
    (ms : List (Model S)) :
    (ms.filter fun e ↦ ¬ r m.val e.val).find? (fun e ↦ r e.val x.val) =
      ms.find? fun e ↦ r e.val x.val := by
  rw [List.find?_filter]
  congr 1
  funext e
  have hme : r e.val x.val → ¬ r m.val e.val := fun hex hme ↦ hmx (hr.trans hme hex)
  by_cases hex : r e.val x.val <;> simp [hex, hme]

/-- The addresses are those of the first model of each class. -/
theorem mem_addr_classes (hr : Equivalence r) {ms ns : List (Model S)}
    (h : classes c r ms = some ns) (a : ℕ) :
    a ∈ ns.map Model.addr ↔
      ∃ m, ms.find? (fun e ↦ r e.val m.val) = some m ∧ m.addr = a := by
  induction ms using classes_induction (r := r) generalizing ns with
  | nil =>
    rw [classes] at h
    cases h
    simp
  | cons m ms ih =>
    obtain ⟨val, others, hothers, rfl⟩ := classes_cons_eq_some h
    rw [List.map_cons, List.mem_cons, ih hothers]
    constructor
    · rintro (rfl | ⟨e, he, rfl⟩)
      · exact ⟨m, List.find?_cons_of_pos (by simpa using hr.refl m.val), rfl⟩
      · have hme : ¬ r m.val e.val := by
          simpa using List.of_mem_filter (List.mem_of_find?_eq_some he)
        rw [find?_filter_not hr hme] at he
        exact ⟨e, (List.find?_cons_of_neg (by simpa using hme)).trans he, rfl⟩
    · rintro ⟨e, he, rfl⟩
      by_cases hme : r m.val e.val
      · rw [List.find?_cons_of_pos (by simpa using hme)] at he
        exact .inl (congrArg Model.addr (Option.some.inj he)).symm
      · rw [List.find?_cons_of_neg (by simpa using hme)] at he
        exact .inr ⟨e, (find?_filter_not hr hme ms).trans he, rfl⟩

theorem addr_classes_sublist {ms ns : List (Model S)} (h : classes c r ms = some ns) :
    (ns.map Model.addr).Sublist (ms.map Model.addr) := by
  induction ms using classes_induction (r := r) generalizing ns with
  | nil =>
    rw [classes] at h
    cases h
    exact List.Sublist.refl _
  | cons m ms ih =>
    obtain ⟨val, others, hothers, rfl⟩ := classes_cons_eq_some h
    exact List.Sublist.cons_cons _ ((ih hothers).trans (List.filter_sublist.map _))

/-- What became of the first model of a class. -/
def heir (r : S → S → Prop) [DecidableRel r] (seen : List (Model S)) (x : Model S)
    (n : Model S) : Bool :=
  (seen.find? fun m ↦ r m.val x.val).map Model.addr = some n.addr

theorem classes_snoc (hr : Equivalence r) {ms : List (Model S)} (hnodup : (ms.map Model.addr).Nodup)
    (x : Model S) :
    classes c r (ms ++ [x]) = (classes c r ms).bind fun ns ↦ place c (heir r ms x) x ns := by
  induction ms using classes_induction (r := r) with
  | nil =>
    rw [List.nil_append, classes, classes, Option.bind_some, place, List.filter_nil,
      List.filter_nil, classes]
    cases c.cut x.val <;> rfl
  | cons m ms ih =>
    obtain ⟨hm, hms⟩ := List.nodup_cons.mp hnodup
    rw [List.cons_append, classes, classes, List.filter_append, List.filter_append]
    simp only [Option.bind_eq_bind, Option.bind_assoc]
    congr 1
    funext first
    by_cases hmx : r m.val x.val
    · have hheir (val : S) : heir r (m :: ms) x ⟨m.addr, val⟩ := by
        rw [heir, List.find?_cons_of_pos (by simpa using hmx)]
        simp
      rw [List.filter_cons_of_pos (by simpa using hmx), List.filter_nil,
        List.filter_cons_of_neg (by simpa using hmx), List.filter_nil, List.append_nil]
      simp only [List.foldlM_append, List.foldlM_cons, List.foldlM_nil, Option.bind_eq_bind,
        Option.bind_assoc, Option.bind_some, place, hheir, if_true]
      congr 1
      funext val
      -- whether the other classes fail or the addition does first is the same
      cases classes c r (ms.filter fun e ↦ ¬ r m.val e.val) <;> cases c.add val x.val <;> rfl
    · have hheir (val : S) : ¬ heir r (m :: ms) x ⟨m.addr, val⟩ := by
        rw [heir, List.find?_cons_of_neg (by simpa using hmx), decide_eq_true_eq]
        intro hsome
        obtain ⟨e, he, hea⟩ := Option.map_eq_some_iff.mp hsome
        exact hm (List.mem_map.mpr ⟨e, List.mem_of_find?_eq_some he, hea⟩)
      have hcons : heir r (m :: ms) x = heir r (ms.filter fun e ↦ ¬ r m.val e.val) x := by
        funext n
        rw [heir, heir, List.find?_cons_of_neg (by simpa using hmx), find?_filter_not hr hmx]
      rw [List.filter_cons_of_neg (by simpa using hmx), List.filter_nil, List.append_nil,
        List.filter_cons_of_pos (by simpa using hmx), List.filter_nil,
        ih (hms.sublist (List.filter_sublist.map _))]
      simp only [Option.bind_assoc, Option.bind_some, place, ← hcons, hheir, Bool.false_eq_true,
        if_false]
      congr 1
      funext val
      cases classes c r (ms.filter fun e ↦ ¬ r m.val e.val) with
      | none => rfl
      | some others =>
        rw [Option.bind_some, Option.bind_some]
        cases place c _ x others <;> rfl

theorem nodup_left {seen later : List (Model S)} (h : ((seen ++ later).map Model.addr).Nodup) :
    (seen.map Model.addr).Nodup := by
  rw [List.map_append] at h
  exact (List.nodup_append.mp h).1

theorem classes_left (hr : Equivalence r) {seen later : List (Model S)}
    (hnodup : ((seen ++ later).map Model.addr).Nodup) {ms : List (Model S)}
    (h : classes c r (seen ++ later) = some ms) : ∃ ns, classes c r seen = some ns := by
  induction later using List.reverseRecOn generalizing ms with
  | nil => exact ⟨ms, (congrArg (classes c r) (List.append_nil seen)).symm.trans h⟩
  | append_singleton later x ih =>
    rw [← List.append_assoc] at h hnodup
    rw [classes_snoc hr (nodup_left hnodup)] at h
    obtain ⟨ns, hns, -⟩ := Option.bind_eq_some_iff.mp h
    exact ih (nodup_left hnodup) hns

theorem find?_class (hr : Equivalence r) {m x : Model S} (hmx : r m.val x.val)
    (seen : List (Model S)) :
    seen.find? (fun e ↦ r e.val m.val) = seen.find? fun e ↦ r e.val x.val := by
  congr 1
  funext e
  exact decide_eq_decide.mpr ⟨(hr.trans · hmx), (hr.trans · (hr.symm hmx))⟩

theorem classes_snoc_of_find? (hr : Equivalence r) {seen ns : List (Model S)} {x : Model S}
    (hnodup : (seen.map Model.addr).Nodup) (hns : classes c r seen = some ns)
    (hfind : (ns.find? fun n ↦ r n.val x.val).map Model.addr =
      (seen.find? fun m ↦ r m.val x.val).map Model.addr) :
    classes c r (seen ++ [x]) = place c (fun n ↦ r n.val x.val) x ns := by
  rw [classes_snoc hr hnodup, hns, Option.bind_some]
  refine place_congr ?_
  have hnodup' : (ns.map Model.addr).Nodup := hnodup.sublist (addr_classes_sublist hns)
  cases hn : ns.find? fun n ↦ r n.val x.val with
  | none =>
    rw [hn] at hfind
    refine List.find?_eq_none.mpr fun n _ ↦ ?_
    rw [heir, ← hfind]
    simp
  | some n =>
    rw [hn] at hfind
    have hheir (e : Model S) : heir r seen x e = true ↔ e.addr = n.addr := by
      rw [heir, ← hfind, decide_eq_true_eq, Option.map_some, Option.some_inj]
      exact eq_comm
    cases he : ns.find? (heir r seen x) with
    | none =>
      exact absurd ((hheir n).mpr rfl)
        (List.find?_eq_none.mp he n (List.mem_of_find?_eq_some hn))
    | some e =>
      exact congrArg some (List.inj_on_of_nodup_map hnodup' (List.mem_of_find?_eq_some he)
        (List.mem_of_find?_eq_some hn) ((hheir e).mp (List.find?_some he)))

/-! ## The loop -/

theorem decides_some (h : c.Lawful r) (n x : Model S) :
    PtrVector.decides (fun e : Model S ↦ c.cmp e.val x.val) (some n) = decide (r n.val x.val) := by
  rw [PtrVector.decides, h.cmp_eq]
  by_cases hr : r n.val x.val <;> simp [hr]

theorem findIdx_none (h : c.Lawful r) {x : Model S} {ns : List (Model S)}
    (hns : ∀ n ∈ ns, ¬ r n.val x.val) :
    ∀ e ∈ ns.map some, PtrVector.decides (fun e ↦ c.cmp e.val x.val) e = false := by
  intro e he
  obtain ⟨n, hn, rfl⟩ := List.mem_map.mp he
  rw [decides_some h, decide_eq_false (hns n hn)]

theorem hit_of_forall_not (h : c.Lawful r) {x : Model S} {ns : List (Model S)}
    (hns : ∀ n ∈ ns, ¬ r n.val x.val) :
    PtrVector.hit (ns.map some) (fun e ↦ c.cmp e.val x.val) = (0, none) := by
  rw [PtrVector.hit, List.findIdx?_eq_none_iff.mpr (findIdx_none h hns)]

theorem hit_append (h : c.Lawful r) {x n : Model S} {before behind : List (Model S)}
    (hbefore : ∀ m ∈ before, ¬ r m.val x.val) (hn : r n.val x.val) :
    PtrVector.hit ((before ++ n :: behind).map some) (fun e ↦ c.cmp e.val x.val) =
      (1, some (n, before.length)) := by
  have hsome : ((before ++ n :: behind).map some).findIdx?
      (PtrVector.decides fun e ↦ c.cmp e.val x.val) = some before.length := by
    have hnone := List.findIdx?_eq_none_iff.mpr (findIdx_none h hbefore)
    rw [List.map_append, List.map_cons, List.findIdx?_append, hnone, List.findIdx?_cons,
      decides_some h, decide_eq_true hn]
    simp
  rw [PtrVector.hit, hsome]
  have hget : ((before ++ n :: behind).map some)[before.length]? = some (some n) := by
    rw [List.map_append, List.getElem?_append_right (List.length_map _).le, List.length_map,
      Nat.sub_self]
    rfl
  dsimp only
  rw [hget]
  dsimp only
  rw [h.cmp_eq, if_pos hn]
  rfl

theorem merge_models_step (h : c.Lawful r) (room : ℕ → Bool) (x : Model S)
    (rest : List (Option (Model S))) (ns : List (Model S)) (added : List (ℕ × ℕ)) :
    let placed := place c (fun n ↦ r n.val x.val) x ns
    (placed = none ∧ merge_models c room (some x :: rest) (ns.map some) added =
      some (failed rest (ns.map some) added)) ∨
    (∃ n ns', ns.find? (fun n ↦ r n.val x.val) = some n ∧ placed = some ns' ∧
      merge_models c room (some x :: rest) (ns.map some) added =
        merge_models c room rest (ns'.map some) (added ++ [(n.addr, x.addr)])) ∨
    ∃ ns', ns.find? (fun n ↦ r n.val x.val) = none ∧ placed = some ns' ∧
      merge_models c room (some x :: rest) (ns.map some) added =
        if room x.addr then merge_models c room rest (ns'.map some) added else none := by
  rw [merge_models]
  rcases none_or_first (fun n : Model S ↦ r n.val x.val) ns with
    hns | ⟨before, n, behind, rfl, hbefore, hn⟩
  · rw [hit_of_forall_not h hns, place_of_forall_not (by simpa using hns)]
    cases hcut : c.cut x.val with
    | none => exact .inl ⟨rfl, rfl⟩
    | some val =>
      refine .inr (.inr ⟨_, List.find?_eq_none.mpr (by simpa using hns), rfl, ?_⟩)
      rw [List.map_append]
      rfl
  · rw [hit_append h hbefore hn, place_append (by simpa using hbefore) (by simpa using hn)]
    dsimp only
    cases hadd : c.add n.val x.val with
    | none => exact .inl ⟨rfl, rfl⟩
    | some val =>
      have hset : ((before ++ n :: behind).map some).set before.length (some ⟨n.addr, val⟩) =
          (before ++ ⟨n.addr, val⟩ :: behind).map some := by
        rw [List.map_append, List.set_append_right _ _ (List.length_map _).le, List.length_map,
          Nat.sub_self, List.map_append]
        rfl
      have hfind : (before ++ n :: behind).find? (fun n ↦ r n.val x.val) = some n := by
        rw [List.find?_append, List.find?_eq_none.mpr (by simpa using hbefore), Option.none_or,
          List.find?_cons_of_pos (by simpa using hn)]
      refine .inr (.inl ⟨n, _, hfind, rfl, (if_neg (by decide)).trans ?_⟩)
      exact congrArg (merge_models c room rest · (added ++ [(n.addr, x.addr)])) hset

/-- The models that were taken are placed, if nothing fails and there is room for those that are the
first of their class. -/
theorem merge_models_of_follows (h : c.Lawful r) {room : ℕ → Bool} {taken ms : List (Model S)}
    (hnodup : (taken.map Model.addr).Nodup) (hms : classes c r taken = some ms)
    (hroom : ∀ m ∈ ms, room m.addr) {slots : List (Option (Model S))} {seen ns : List (Model S)}
    {added : List (ℕ × ℕ)} (htaken : taken = seen ++ slots.reduceOption)
    (hns : classes c r seen = some ns)
    (hperm : (ns.map Model.addr ++ added.map Prod.snd).Perm (seen.map Model.addr))
    (hkin : Kin r taken added) (hfollows : Follows c r seen slots.reduceOption) :
    ∃ added', merge_models c room slots (ns.map some) added =
        some ⟨1, ms.map some, added', added'.map Prod.snd⟩ ∧
      (ms.map Model.addr ++ added'.map Prod.snd).Perm (taken.map Model.addr) ∧
      Kin r taken added' := by
  induction slots generalizing seen ns added with
  | nil =>
    rw [List.reduceOption_nil, List.append_nil] at htaken
    subst htaken
    cases hms.symm.trans hns
    exact ⟨added, rfl, hperm, hkin⟩
  | cons slot rest ih =>
    cases slot with
    | none => exact ih htaken hns hperm hkin hfollows
    | some x =>
      rw [List.reduceOption_cons_of_some] at htaken hfollows
      obtain ⟨hfind, hfollows⟩ := hfollows
      have htaken' : taken = (seen ++ [x]) ++ rest.reduceOption := by
        rw [htaken, List.append_assoc]
        rfl
      have hsnoc := classes_snoc_of_find? h.equivalence (nodup_left (htaken ▸ hnodup)) hns
        (hfind ns hns)
      obtain ⟨ns', hns'⟩ := classes_left h.equivalence (htaken' ▸ hnodup) (htaken' ▸ hms)
      have haddr := place_addr (hsnoc.symm.trans hns')
      rcases merge_models_step h room x rest ns added with
        ⟨hnone, -⟩ | ⟨n, ns'', hn, hsome, hstep⟩ | ⟨ns'', hn, hsome, hstep⟩
      · exact nomatch (hsnoc.trans hnone).symm.trans hns'
      · cases hns'.symm.trans (hsnoc.trans hsome)
        rw [hn, Option.isSome_some, if_pos rfl, List.append_nil] at haddr
        rw [hstep]
        refine ih htaken' hns' ?_ ?_ hfollows
        · rw [haddr, List.map_append, List.map_append, ← List.append_assoc]
          exact hperm.append_right _
        · intro p hp
          rcases List.mem_append.mp hp with hp | hp
          · exact hkin p hp
          obtain rfl := List.mem_singleton.mp hp
          have hseen := hfind ns hns
          rw [hn] at hseen
          obtain ⟨m, hm, hma⟩ := Option.map_eq_some_iff.mp hseen.symm
          refine ⟨m, ?_, x, ?_, hma, rfl, by simpa using List.find?_some hm⟩
          · exact htaken ▸ List.mem_append_left _ (List.mem_of_find?_eq_some hm)
          · exact htaken ▸ List.mem_append_right _ List.mem_cons_self
      · cases hns'.symm.trans (hsnoc.trans hsome)
        rw [hn, Option.isSome_none, if_neg Bool.false_ne_true] at haddr
        have hx : room x.addr := by
          have hseen := hfind ns hns
          rw [hn] at hseen
          have hmem := (mem_addr_classes h.equivalence hms x.addr).mpr ⟨x, by
            rw [htaken, List.find?_append, Option.map_eq_none_iff.mp hseen.symm, Option.none_or,
              List.find?_cons_of_pos (by simpa using h.equivalence.refl x.val)], rfl⟩
          obtain ⟨m, hm, hma⟩ := List.mem_map.mp hmem
          exact hma ▸ hroom m hm
        rw [hstep, if_pos hx]
        refine ih htaken' hns' ?_ hkin hfollows
        rw [haddr, List.map_append, List.append_assoc]
        refine List.Perm.trans ?_ (hperm.append_right [x.addr])
        rw [List.append_assoc]
        exact List.perm_append_comm.append_left _

theorem merge_models_mono (h : c.Lawful r) {room : ℕ → Bool} {slots : List (Option (Model S))}
    {ns ms : List (Model S)} {added : List (ℕ × ℕ)} {out : Outcome S}
    (hout : merge_models c room slots (ns.map some) added = some out) (hret : 0 ≤ out.ret)
    (hms : out.models = ms.map some) :
    added ⊆ out.added ∧ ns.map Model.addr ⊆ ms.map Model.addr := by
  induction slots generalizing ns added with
  | nil =>
    cases hout
    obtain rfl := List.map_injective_iff.mpr (Option.some_injective _) hms
    exact ⟨List.Subset.refl _, List.Subset.refl _⟩
  | cons slot rest ih =>
    cases slot with
    | none => exact ih hout
    | some x =>
      rcases merge_models_step h room x rest ns added with
        ⟨-, hstep⟩ | ⟨n, ns', -, hplaced, hstep⟩ | ⟨ns', -, hplaced, hstep⟩
      · cases hstep.symm.trans hout
        exact absurd hret (by decide : ¬ (0 : ℤ) ≤ -1)
      · obtain ⟨hadded, haddr⟩ := ih (hstep.symm.trans hout)
        rw [place_addr hplaced] at haddr
        exact ⟨List.Subset.trans (List.subset_append_left ..) hadded,
          List.Subset.trans (List.subset_append_left ..) haddr⟩
      · rw [hstep] at hout
        split at hout
        · obtain ⟨hadded, haddr⟩ := ih hout
          rw [place_addr hplaced] at haddr
          exact ⟨hadded, List.Subset.trans (List.subset_append_left ..) haddr⟩
        · cases hout

theorem follows_of_merge_models (h : c.Lawful r) {room : ℕ → Bool} {taken ms : List (Model S)}
    (hnodup : (taken.map Model.addr).Nodup) (hms : classes c r taken = some ms) {out : Outcome S}
    (hret : 0 ≤ out.ret) (hmodels : out.models = ms.map some) (hkin : Kin r taken out.added)
    {slots : List (Option (Model S))} {seen ns : List (Model S)} {added : List (ℕ × ℕ)}
    (htaken : taken = seen ++ slots.reduceOption) (hns : classes c r seen = some ns)
    (hout : merge_models c room slots (ns.map some) added = some out) :
    Follows c r seen slots.reduceOption ∧
      ∀ a ∈ ms.map Model.addr, a ∈ ns.map Model.addr ∨ room a := by
  induction slots generalizing seen ns added with
  | nil =>
    cases hout
    obtain rfl := List.map_injective_iff.mpr (Option.some_injective _) hmodels
    exact ⟨trivial, fun _ ↦ .inl⟩
  | cons slot rest ih =>
    cases slot with
    | none => exact ih htaken hns hout
    | some x =>
      rw [List.reduceOption_cons_of_some] at htaken ⊢
      have htaken' : taken = (seen ++ [x]) ++ rest.reduceOption := by
        rw [htaken, List.append_assoc]
        rfl
      have hx : x ∈ taken := htaken ▸ List.mem_append_right _ List.mem_cons_self
      have hseen : ∀ e ∈ seen, e ∈ taken := fun e he ↦ htaken ▸ List.mem_append_left _ he
      have hunique {a b : Model S} (ha : a ∈ taken) (hb : b ∈ taken)
          (hab : a.addr = b.addr) : a = b := List.inj_on_of_nodup_map hnodup ha hb hab
      have hstays (hfind : (ns.find? fun n ↦ r n.val x.val).map Model.addr =
          (seen.find? fun m ↦ r m.val x.val).map Model.addr) {ns' : List (Model S)}
          (hplaced : place c (fun n ↦ r n.val x.val) x ns = some ns') {added' : List (ℕ × ℕ)}
          (hout' : merge_models c room rest (ns'.map some) added' = some out) :
          Follows c r seen (x :: rest.reduceOption) ∧
            ∀ a ∈ ms.map Model.addr, a ∈ ns'.map Model.addr ∨ room a := by
        obtain ⟨hfollows, hroom⟩ := ih htaken' ((classes_snoc_of_find? h.equivalence
          (nodup_left (htaken ▸ hnodup)) hns hfind).trans hplaced) hout'
        refine ⟨⟨fun ns'' hns'' ↦ ?_, hfollows⟩, hroom⟩
        cases hns.symm.trans hns''
        exact hfind
      rcases merge_models_step h room x rest ns added with
        ⟨-, hstep⟩ | ⟨n, ns', hn, hplaced, hstep⟩ | ⟨ns', hn, hplaced, hstep⟩
      · cases hstep.symm.trans hout
        exact absurd hret (by decide : ¬ (0 : ℤ) ≤ -1)
      · have hout' := hstep.symm.trans hout
        -- the record of the call says of which class the model is that was found
        obtain ⟨m, hm, y, hy, hma, hya, hmy⟩ := hkin _ ((merge_models_mono h hout' hret
          hmodels).1 (List.mem_append_right _ List.mem_cons_self))
        obtain rfl := hunique hy hx hya
        obtain ⟨f, hf, hfa⟩ := (mem_addr_classes h.equivalence hns n.addr).mp
          (List.mem_map_of_mem (List.mem_of_find?_eq_some hn))
        obtain rfl := hunique (hseen f (List.mem_of_find?_eq_some hf)) hm (hfa.trans hma.symm)
        rw [find?_class h.equivalence hmy] at hf
        obtain ⟨hfollows, hroom⟩ := hstays (by rw [hn, hf]; exact congrArg some hma.symm)
          hplaced hout'
        rw [place_addr hplaced, hn, Option.isSome_some, if_pos rfl, List.append_nil] at hroom
        exact ⟨hfollows, hroom⟩
      · rw [hstep] at hout
        split at hout
        · next hxroom =>
            have haddr := place_addr hplaced
            rw [hn, Option.isSome_none, if_neg Bool.false_ne_true] at haddr
            have hmem : x.addr ∈ ms.map Model.addr := (merge_models_mono h hout hret hmodels).2
              (haddr ▸ List.mem_append_right _ List.mem_cons_self)
            obtain ⟨e, he, hea⟩ := (mem_addr_classes h.equivalence hms x.addr).mp hmem
            obtain rfl := hunique (List.mem_of_find?_eq_some he) hx hea
            have hfirst : seen.find? (fun m ↦ r m.val e.val) = none := by
              cases hf : seen.find? fun m ↦ r m.val e.val with
              | none => rfl
              | some f =>
                rw [htaken, List.find?_append, hf, Option.some_or] at he
                cases he
                rw [htaken, List.map_append] at hnodup
                exact absurd rfl ((List.nodup_append.mp hnodup).2.2 _
                  (List.mem_map_of_mem (List.mem_of_find?_eq_some hf)) _ List.mem_cons_self)
            obtain ⟨hfollows, hroom⟩ := hstays (by rw [hn, hfirst]) hplaced hout
            refine ⟨hfollows, fun a ha ↦ (hroom a ha).elim (fun hmem ↦ ?_) .inr⟩
            rw [haddr, List.mem_append, List.mem_singleton] at hmem
            exact hmem.imp_right fun heq ↦ (congrArg room heq).trans hxroom
        · cases hout

theorem failed_of_merge_models (h : c.Lawful r) {room : ℕ → Bool} {slots : List (Option (Model S))}
    {ns : List (Model S)} {added : List (ℕ × ℕ)} {out : Outcome S}
    (hout : merge_models c room slots (ns.map some) added = some out) (hret : out.ret < 0) :
    ∃ before element behind, slots = before ++ some element :: behind ∧
      out.models = behind.reverse := by
  induction slots generalizing ns added with
  | nil =>
    cases hout
    exact absurd hret (by decide : ¬ (1 : ℤ) < 0)
  | cons slot rest ih =>
    have hcons {ns' : List (Model S)} {added' : List (ℕ × ℕ)}
        (hout' : merge_models c room rest (ns'.map some) added' = some out) :
        ∃ before element behind, slot :: rest = before ++ some element :: behind ∧
          out.models = behind.reverse := by
      obtain ⟨before, element, behind, rfl, hmodels⟩ := ih hout'
      exact ⟨slot :: before, element, behind, rfl, hmodels⟩
    cases slot with
    | none => exact hcons hout
    | some x =>
      rcases merge_models_step h room x rest ns added with
        ⟨-, hstep⟩ | ⟨n, ns', -, -, hstep⟩ | ⟨ns', -, -, hstep⟩
      · cases hstep.symm.trans hout
        exact ⟨[], x, rest, rfl, rfl⟩
      · exact hcons (hstep.symm.trans hout)
      · rw [hstep] at hout
        split at hout
        · exact hcons hout
        · cases hout

/-- The table is merged, or keeps its models, exactly if the new vector cannot be made at all, or
every model is added to its own class, nothing fails and there is room for the merged models. -/
theorem merges_iff (h : c.Lawful r) (memory : Memory) (table : Table S) :
    (∃ out ∈ merge c memory table, Merges c r table out) ↔
      (memory.vector = false ∨ (Follows c r [] table.taken ∧
        ∃ ms, classes c r table.taken = some ms ∧ ∀ m ∈ ms, memory.room m.addr)) := by
  cases hvector : memory.vector with
  | false =>
    refine iff_of_true ⟨⟨-1, table.models, [], []⟩, ?_, ?_, ?_, fun _ m hm ↦ ?_⟩ (.inl rfl)
    · rw [merge, hvector]
      rfl
    · exact fun hret ↦ absurd hret (by decide : ¬ (0 : ℤ) ≤ -1)
    · exact fun hret ↦ absurd hret (by decide : ¬ (0 : ℤ) ≤ -1)
    · exact ⟨List.mem_reverse.mp (List.reduceOption_mem_iff.mp hm), List.not_mem_nil⟩
  | true =>
    have hmerge : merge c memory table =
        merge_models c memory.room table.models.reverse (List.map some []) [] := by
      rw [merge, hvector]
      rfl
    have hnil : classes c r [] = some [] := by rw [classes]
    have htaken : table.taken = [] ++ table.models.reverse.reduceOption := rfl
    rw [hmerge]
    constructor
    · rintro ⟨out, hout, hmerges⟩
      refine .inr ?_
      by_cases hret : 0 ≤ out.ret
      · obtain ⟨ms, hms, hmodels, -⟩ := hmerges.merged hret
        obtain ⟨hfollows, hroom⟩ := follows_of_merge_models h table.nodup_taken hms hret hmodels
          (hmerges.kin hret) htaken hnil hout
        exact ⟨hfollows, ms, hms, fun m hm ↦
          (hroom _ (List.mem_map_of_mem hm)).resolve_left List.not_mem_nil⟩
      · obtain ⟨before, element, behind, hslots, hmodels⟩ :=
          failed_of_merge_models h hout (not_le.mp hret)
        have htaken : table.taken =
            before.reduceOption ++ element :: behind.reduceOption := by
          rw [Table.taken, hslots, List.reduceOption_append, List.reduceOption_cons_of_some]
        have hmem := (hmerges.kept (not_le.mp hret) element (by
          rw [htaken]
          exact List.mem_append_right _ List.mem_cons_self)).1
        rw [hmodels, List.mem_reverse, ← List.reduceOption_mem_iff] at hmem
        have hnodup := table.nodup_taken
        rw [htaken, List.map_append, List.map_cons] at hnodup
        exact absurd (List.mem_map_of_mem hmem)
          (List.nodup_cons.mp (List.nodup_append.mp hnodup).2.1).1
    · rintro (hfalse | ⟨hfollows, ms, hms, hroom⟩)
      · cases hfalse
      · obtain ⟨added, hout, hperm, hkin⟩ := merge_models_of_follows h table.nodup_taken hms hroom
          htaken hnil (List.Perm.refl _) (fun _ hp ↦ absurd hp List.not_mem_nil) hfollows
        refine ⟨_, hout, fun _ ↦ ⟨ms, hms, rfl, hperm⟩, fun _ ↦ hkin, fun hret ↦ ?_⟩
        exact absurd hret (by decide : ¬ (1 : ℤ) < 0)

/-- Models that are of one class if their values are equal, and cannot be added. -/
def rigid : ModelClass ℕ := ⟨fun a b ↦ if a = b then 1 else 0, some, fun _ _ ↦ none⟩

def twins : Table ℕ := ⟨[some ⟨1, 7⟩, some ⟨2, 7⟩], by decide⟩

theorem merges_iff_twins :
    (∃ out ∈ merge rigid ⟨true, fun _ ↦ true⟩ twins, Merges rigid (· = ·) twins out) ↔
      (true = false ∨ (Follows rigid (· = ·) [] twins.taken ∧
        ∃ ms, classes rigid (· = ·) twins.taken = some ms ∧ ∀ m ∈ ms, (fun _ : ℕ ↦ true) m.addr)) :=
  merges_iff ⟨eq_equivalence, fun _ _ ↦ rfl⟩ ⟨true, fun _ ↦ true⟩ twins

/-- When a model cannot be added, the one that was moved before is destroyed and neither of the two
is in the table. -/
theorem not_merges_twins :
    ¬ ∃ out ∈ merge rigid ⟨true, fun _ ↦ true⟩ twins, Merges rigid (· = ·) twins out := by
  rintro ⟨out, hout, hmerges⟩
  cases hout
  have hkept := hmerges.kept (by decide) ⟨1, 7⟩ (by decide)
  exact absurd hkept.1 (by decide)

end Libobject.TableMerge
