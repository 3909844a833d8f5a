import Libobject.Lib.Assoc
import Mathlib.Data.List.Infix
import Mathlib.Data.List.Perm.Basic

/-!
# Trees of named members

The leaves of a tree have values; every other node has members with names, and names are compared
by their class. A value is put under a path: members on the way that are missing are made, and the
value is added at the end of the last one's members. Members of a value are lost.
-/

namespace Libobject

inductive NameTree (K V : Type*) where
  | value (v : V)
  | object (members : List (K × NameTree K V))

namespace NameTree

variable {K V C : Type*}

def members : NameTree K V → List (K × NameTree K V)
  | value _ => []
  | object ms => ms

def IsObject (t : NameTree K V) : Prop := t = object t.members

section Definitions

variable [DecidableEq C] (f : K → C)

/-- The first member of the class of `k`. -/
def item (t : NameTree K V) (k : K) : Option (NameTree K V) := Assoc.lookup f t.members k

def get : List K → NameTree K V → Option (NameTree K V)
  | [], t => some t
  | k :: ks, t => (t.item f k).bind (get ks)

def addMember (t : NameTree K V) (k : K) (s : NameTree K V) : NameTree K V :=
  match t with
  | value v => value v
  | object ms => object (ms ++ [(k, s)])

/-- The first member of the class of `k` is changed; if there is none, an empty object is added and
changed. -/
def modifyMembers (k : K) (g : NameTree K V → NameTree K V) :
    List (K × NameTree K V) → List (K × NameTree K V)
  | [] => [(k, g (object []))]
  | (n, t) :: ms => if f n = f k then (n, g t) :: ms else (n, t) :: modifyMembers k g ms

def modify (k : K) (g : NameTree K V → NameTree K V) : NameTree K V → NameTree K V
  | value v => value v
  | object ms => object (modifyMembers f k g ms)

def put : List K → K → V → NameTree K V → NameTree K V
  | [], name, v, t => t.addMember name (value v)
  | k :: ks, name, v, t => t.modify f k (put ks name v)

end Definitions

section Leaves

variable (f : K → C)

mutual

/-- The values with the classes of the names on the way to them. -/
def leaves : NameTree K V → List (List C × V)
  | value v => [([], v)]
  | object ms => leavesAll ms

def leavesAll : List (K × NameTree K V) → List (List C × V)
  | [] => []
  | (n, t) :: ms => (leaves t).map (fun l ↦ (f n :: l.1, l.2)) ++ leavesAll ms

end

mutual

/-- No two members are of one class, and every member has values. -/
def Neat : NameTree K V → Prop
  | value _ => True
  | object ms => Assoc.Distinct f ms ∧ NeatAll ms

def NeatAll : List (K × NameTree K V) → Prop
  | [] => True
  | (_, t) :: ms => (Neat t ∧ leaves f t ≠ []) ∧ NeatAll ms

end

end Leaves

section Lemmas

variable {f : K → C}

theorem leavesAll_append (ms ns : List (K × NameTree K V)) :
    leavesAll f (ms ++ ns) = leavesAll f ms ++ leavesAll f ns := by
  induction ms with
  | nil => rfl
  | cons m ms ih => rw [List.cons_append, leavesAll, leavesAll, ih, List.append_assoc]

theorem mem_leavesAll {ms : List (K × NameTree K V)} {k : List C} {v : V} :
    (k, v) ∈ leavesAll f ms ↔ ∃ m ∈ ms, ∃ k', k = f m.1 :: k' ∧ (k', v) ∈ leaves f m.2 := by
  induction ms with
  | nil => exact iff_of_false List.not_mem_nil fun ⟨_, hm, _⟩ ↦ List.not_mem_nil hm
  | cons m ms ih =>
    rw [leavesAll, List.mem_append, ih, List.exists_mem_cons_iff, List.mem_map]
    refine or_congr_left ⟨?_, ?_⟩
    · rintro ⟨⟨k', w⟩, hmem, heq⟩
      cases heq
      exact ⟨k', rfl, hmem⟩
    · rintro ⟨k', rfl, hmem⟩
      exact ⟨(k', v), hmem, rfl⟩

theorem neatAll_iff {ms : List (K × NameTree K V)} :
    NeatAll f ms ↔ ∀ m ∈ ms, Neat f m.2 ∧ leaves f m.2 ≠ [] := by
  induction ms with
  | nil => exact iff_of_true trivial fun _ h ↦ absurd h List.not_mem_nil
  | cons m ms ih => rw [NeatAll, ih, List.forall_mem_cons]

theorem distinct_append_iff {ms : List (K × NameTree K V)} {k : K} {s : NameTree K V} :
    Assoc.Distinct f (ms ++ [(k, s)]) ↔ Assoc.Distinct f ms ∧ ∀ m ∈ ms, f m.1 ≠ f k := by
  rw [Assoc.Distinct, List.pairwise_append]
  simp only [List.pairwise_singleton, List.mem_singleton, forall_eq, true_and]
  exact Iff.rfl

theorem distinct_change {before after : List (K × NameTree K V)} {n : K} {s : NameTree K V}
    (h : Assoc.Distinct f (before ++ (n, s) :: after)) (s' : NameTree K V) :
    Assoc.Distinct f (before ++ (n, s') :: after) := by
  have hmap (u : NameTree K V) : Assoc.Distinct f (before ++ (n, u) :: after) ↔
      ((before ++ (n, u) :: after).map fun m ↦ f m.1).Pairwise (· ≠ ·) := List.pairwise_map.symm
  rw [hmap, List.map_append, List.map_cons] at h ⊢
  exact h

variable [DecidableEq C]

@[simp] theorem get_nil (t : NameTree K V) : get f [] t = some t := rfl

theorem get_cons (k : K) (ks : List K) (t : NameTree K V) :
    get f (k :: ks) t = (t.item f k).bind (get f ks) := rfl

theorem get_append (ks ls : List K) (t : NameTree K V) :
    get f (ks ++ ls) t = (get f ks t).bind (get f ls) := by
  induction ks generalizing t with
  | nil => rfl
  | cons k ks ih =>
    rw [List.cons_append, get_cons, get_cons, Option.bind_assoc]
    exact congrArg _ (funext ih)

theorem get_value {ks : List K} (hne : ks ≠ []) (v : V) :
    get f ks (value v : NameTree K V) = none := by
  cases ks with
  | nil => exact absurd rfl hne
  | cons k ks => rfl

theorem get_empty {ks : List K} (hne : ks ≠ []) : get f ks (object [] : NameTree K V) = none := by
  cases ks with
  | nil => exact absurd rfl hne
  | cons k ks => rfl

theorem lookup_eq_none_iff {ms : List (K × NameTree K V)} {k : K} :
    Assoc.lookup f ms k = none ↔ ∀ m ∈ ms, f m.1 ≠ f k := by
  rw [Assoc.lookup, Option.map_eq_none_iff, List.find?_eq_none]
  exact forall₂_congr fun m _ ↦ not_congr decide_eq_true_iff

theorem lookup_eq_some {ms : List (K × NameTree K V)} {k : K} {t : NameTree K V}
    (h : Assoc.lookup f ms k = some t) :
    ∃ before n after, ms = before ++ (n, t) :: after ∧ f n = f k ∧ ∀ m ∈ before, f m.1 ≠ f k := by
  obtain ⟨⟨n, t'⟩, hfind, rfl⟩ := Option.map_eq_some_iff.mp h
  obtain ⟨hn, before, after, rfl, hbefore⟩ := List.find?_eq_some_iff_append.mp hfind
  exact ⟨before, n, after, rfl, of_decide_eq_true hn, fun m hm ↦ by simpa using hbefore m hm⟩

theorem lookup_append {before after : List (K × NameTree K V)} {n k : K} {t : NameTree K V}
    (hn : f n = f k) (h : ∀ m ∈ before, f m.1 ≠ f k) :
    Assoc.lookup f (before ++ (n, t) :: after) k = some t := by
  rw [Assoc.lookup, List.find?_append, List.find?_eq_none.mpr fun m hm ↦ by simpa using h m hm,
    Option.none_or, List.find?_cons, decide_eq_true hn]
  rfl

theorem modifyMembers_of_none {ms : List (K × NameTree K V)} {k : K} (h : ∀ m ∈ ms, f m.1 ≠ f k)
    (g : NameTree K V → NameTree K V) : modifyMembers f k g ms = ms ++ [(k, g (object []))] := by
  induction ms with
  | nil => rfl
  | cons m ms ih =>
    rw [List.forall_mem_cons] at h
    rw [modifyMembers, if_neg h.1, ih h.2, List.cons_append]

theorem modifyMembers_append {before : List (K × NameTree K V)} {k n : K} (hn : f n = f k)
    (h : ∀ m ∈ before, f m.1 ≠ f k) (t : NameTree K V) (after : List (K × NameTree K V))
    (g : NameTree K V → NameTree K V) :
    modifyMembers f k g (before ++ (n, t) :: after) = before ++ (n, g t) :: after := by
  induction before with
  | nil => exact if_pos hn
  | cons m before ih =>
    rw [List.forall_mem_cons] at h
    rw [List.cons_append, modifyMembers, if_neg h.1, ih h.2, List.cons_append]

/-- No part of the path is a value. -/
def Open (f : K → C) (path : List K) (t : NameTree K V) : Prop :=
  ∀ p, p <+: path → ∀ v, get f p t ≠ some (value v)

theorem Open.isObject {path : List K} {t : NameTree K V} (h : Open f path t) : t.IsObject := by
  cases t with
  | value v => exact absurd rfl (h [] List.nil_prefix v)
  | object ms => rfl

theorem open_empty (path : List K) : Open f path (object [] : NameTree K V) := by
  intro p _ v hget
  cases p with
  | nil => cases hget
  | cons k p => cases hget

theorem Open.item {k : K} {path : List K} {t s : NameTree K V} (h : Open f (k :: path) t)
    (hs : t.item f k = some s) : Open f path s := by
  intro p hp v hget
  refine h (k :: p) (List.cons_prefix_cons.mpr ⟨rfl, hp⟩) v ?_
  rw [get_cons, hs]
  exact hget

theorem modify_cases (k : K) (g : NameTree K V → NameTree K V) (ms : List (K × NameTree K V)) :
    ((∀ m ∈ ms, f m.1 ≠ f k) ∧ (object ms).modify f k g = object (ms ++ [(k, g (object []))])) ∨
    ∃ before n s after, ms = before ++ (n, s) :: after ∧ f n = f k ∧ (∀ m ∈ before, f m.1 ≠ f k) ∧
      (object ms).item f k = some s ∧
      (object ms).modify f k g = object (before ++ (n, g s) :: after) := by
  cases hlookup : Assoc.lookup f ms k with
  | none =>
    have hnone := lookup_eq_none_iff.mp hlookup
    exact .inl ⟨hnone, congrArg object (modifyMembers_of_none hnone g)⟩
  | some s =>
    obtain ⟨before, n, after, rfl, hn, hbefore⟩ := lookup_eq_some hlookup
    exact .inr ⟨before, n, s, after, rfl, hn, hbefore, hlookup,
      congrArg object (modifyMembers_append hn hbefore s after g)⟩

theorem leaves_put {path : List K} {t : NameTree K V} (h : Open f path t) (name : K) (v : V) :
    (leaves f (put f path name v t)).Perm
      (((path ++ [name]).map f, v) :: leaves f t) := by
  induction path generalizing t with
  | nil =>
    rw [h.isObject, put, addMember, leaves, leavesAll_append]
    exact List.perm_append_comm
  | cons k path ih =>
    rw [h.isObject, put]
    rcases modify_cases (f := f) k (put f path name v) t.members with
      ⟨-, hmodify⟩ | ⟨before, n, s, after, hms, hn, -, hitem, hmodify⟩
    · rw [hmodify, leaves, leavesAll_append, leavesAll, leavesAll, List.append_nil, leaves]
      refine List.perm_append_comm.trans ?_
      have hperm := (ih (open_empty path)).map fun l ↦ (f k :: l.1, l.2)
      exact hperm.append_right _
    · rw [← h.isObject] at hitem
      rw [hmodify, hms, leaves, leaves, leavesAll_append, leavesAll_append, leavesAll, leavesAll]
      have hperm := (ih (h.item hitem)).map fun l ↦ (f n :: l.1, l.2)
      rw [List.map_cons] at hperm
      dsimp only at hperm
      rw [hn] at hperm ⊢
      refine ((hperm.append_right _).append_left _).trans ?_
      exact List.perm_middle

theorem put_of_value {path p : List K} {t : NameTree K V} {w : V} (hp : p <+: path)
    (h : get f p t = some (value w)) (name : K) (v : V) : put f path name v t = t := by
  induction path generalizing p t with
  | nil =>
    rw [List.prefix_nil.mp hp] at h
    cases h
    rfl
  | cons k path ih =>
    cases t with
    | value u => rfl
    | object ms =>
      cases p with
      | nil => cases h
      | cons k' p =>
        obtain ⟨rfl, hrest⟩ := List.cons_prefix_cons.mp hp
        rw [get_cons] at h
        rcases modify_cases (f := f) k' (put f path name v) ms with
          ⟨hnone, -⟩ | ⟨before, n, s, after, hms, -, -, hitem, hmodify⟩
        · have hitem : (object ms).item f k' = none := lookup_eq_none_iff.mpr hnone
          rw [hitem] at h
          cases h
        · rw [hitem, Option.bind_some] at h
          rw [put, hmodify, ih hrest h, hms]

theorem get_put {path : List K} {t s : NameTree K V} {name : K}
    (h : get f (path ++ [name]) t = some s) (v : V) :
    get f (path ++ [name]) (put f path name v t) = some s := by
  induction path generalizing t with
  | nil =>
    cases t with
    | value w => cases h
    | object ms =>
      rw [List.nil_append, get_cons] at h
      obtain ⟨s', hitem, hs⟩ := Option.bind_eq_some_iff.mp h
      cases hs
      obtain ⟨before, n, after, rfl, hn, hbefore⟩ := lookup_eq_some hitem
      have hitem' : (object (before ++ (n, s) :: (after ++ [(name, value v)]))).item f name =
          some s := lookup_append hn hbefore
      rw [put, addMember, List.append_assoc, List.cons_append, List.nil_append, get_cons,
        hitem']
      rfl
  | cons k path ih =>
    cases t with
    | value w => cases h
    | object ms =>
      rw [List.cons_append, get_cons] at h ⊢
      obtain ⟨s', hitem, hs⟩ := Option.bind_eq_some_iff.mp h
      rcases modify_cases (f := f) k (put f path name v) ms with
        ⟨hnone, -⟩ | ⟨before, n, s'', after, -, hn, hbefore, hitem', hmodify⟩
      · have hitem' : (object ms).item f k = none := lookup_eq_none_iff.mpr hnone
        rw [hitem'] at hitem
        cases hitem
      · cases hitem.symm.trans hitem'
        have hfound : (object (before ++ (n, put f path name v s') :: after)).item f k =
            some (put f path name v s') := lookup_append hn hbefore
        rw [put, hmodify, hfound, Option.bind_some, ih hs]

theorem Neat.put {path : List K} {t : NameTree K V} {name : K} (hneat : Neat f t)
    (hopen : Open f path t) (hnone : get f (path ++ [name]) t = none) (v : V) :
    Neat f (put f path name v t) := by
  induction path generalizing t with
  | nil =>
    rw [hopen.isObject] at hneat hnone ⊢
    obtain ⟨hdistinct, hall⟩ := hneat
    have hname : Assoc.lookup f t.members name = none := by
      rw [List.nil_append, get_cons] at hnone
      cases hlookup : Assoc.lookup f t.members name with
      | none => rfl
      | some s =>
        have hitem : (object t.members).item f name = some s := hlookup
        rw [hitem] at hnone
        cases hnone
    refine ⟨distinct_append_iff.mpr ⟨hdistinct, lookup_eq_none_iff.mp hname⟩,
      neatAll_iff.mpr fun m hm ↦ ?_⟩
    rcases List.mem_append.mp hm with hm | hm
    · exact neatAll_iff.mp hall m hm
    · rw [List.mem_singleton.mp hm]
      exact ⟨trivial, List.cons_ne_nil _ _⟩
  | cons k path ih =>
    have hleaves (s : NameTree K V) (hs : Open f path s) :
        leaves f (NameTree.put f path name v s) ≠ [] := fun hnil ↦ by
      have hperm := leaves_put hs name v
      rw [hnil] at hperm
      exact absurd hperm.nil_eq.symm (List.cons_ne_nil _ _)
    have hobject := hopen.isObject
    rw [hobject] at hneat hnone hopen ⊢
    obtain ⟨hdistinct, hall⟩ := hneat
    rw [neatAll_iff] at hall
    rcases modify_cases (f := f) k (NameTree.put f path name v) t.members with
      ⟨hmembers, hmodify⟩ | ⟨before, n, s, after, hms, -, -, hitem, hmodify⟩
    · rw [NameTree.put, hmodify]
      refine ⟨distinct_append_iff.mpr ⟨hdistinct, hmembers⟩, neatAll_iff.mpr fun m hm ↦ ?_⟩
      rcases List.mem_append.mp hm with hm | hm
      · exact hall m hm
      · rw [List.mem_singleton.mp hm]
        refine ⟨ih ⟨List.Pairwise.nil, trivial⟩ (open_empty path) (get_empty ?_),
          hleaves _ (open_empty path)⟩
        exact List.append_ne_nil_of_right_ne_nil _ (List.cons_ne_nil _ _)
    · rw [NameTree.put, hmodify]
      rw [List.cons_append, get_cons, hitem, Option.bind_some] at hnone
      have hs := hopen.item hitem
      rw [hms] at hdistinct hall
      refine ⟨distinct_change hdistinct _, neatAll_iff.mpr fun m hm ↦ ?_⟩
      rcases List.mem_append.mp hm with hm | hm
      · exact hall m (List.mem_append_left _ hm)
      rcases List.mem_cons.mp hm with rfl | hm
      · have hneat := (hall (n, s) (List.mem_append_right _ List.mem_cons_self)).1
        exact ⟨ih hneat hs hnone, hleaves s hs⟩
      · exact hall m (List.mem_append_right _ (List.mem_cons_of_mem _ hm))

theorem Distinct.lookup_eq_some_iff {ms : List (K × NameTree K V)} (h : Assoc.Distinct f ms) {k : K}
    {s : NameTree K V} : Assoc.lookup f ms k = some s ↔ ∃ n, (n, s) ∈ ms ∧ f n = f k := by
  constructor
  · intro hlookup
    obtain ⟨before, n, after, rfl, hn, -⟩ := lookup_eq_some hlookup
    exact ⟨n, List.mem_append_right _ List.mem_cons_self, hn⟩
  · rintro ⟨n, hmem, hn⟩
    obtain ⟨before, after, rfl⟩ := List.append_of_mem hmem
    refine lookup_append hn fun m hm ↦ ?_
    rw [← hn]
    exact (List.pairwise_append.mp h).2.2 m hm (n, s) List.mem_cons_self

theorem Neat.mem_leaves_iff {t : NameTree K V} (h : Neat f t) {ks : List K} {v : V} :
    (ks.map f, v) ∈ leaves f t ↔ get f ks t = some (value v) := by
  induction ks generalizing t with
  | nil =>
    cases t with
    | value w =>
      rw [leaves, List.mem_singleton, get_nil, Option.some.injEq, value.injEq]
      exact ⟨fun heq ↦ (congrArg Prod.snd heq).symm, fun heq ↦ by rw [heq]; rfl⟩
    | object ms =>
      refine iff_of_false (fun hmem ↦ ?_) fun heq ↦ by cases heq
      obtain ⟨m, -, k', hk, -⟩ := mem_leavesAll.mp hmem
      cases hk
  | cons k ks ih =>
    cases t with
    | value w =>
      refine iff_of_false (fun hmem ↦ ?_) fun heq ↦ by cases heq
      cases List.mem_singleton.mp hmem
    | object ms =>
      obtain ⟨hdistinct, hall⟩ := h
      rw [leaves, mem_leavesAll, get_cons, Option.bind_eq_some_iff]
      constructor
      · rintro ⟨⟨n, s⟩, hm, k', hk, hmem⟩
        obtain ⟨hn, rfl⟩ := List.cons.inj hk
        have hitem := (Distinct.lookup_eq_some_iff hdistinct).mpr ⟨n, hm, hn.symm⟩
        exact ⟨s, hitem, (ih (neatAll_iff.mp hall _ hm).1).mp hmem⟩
      · rintro ⟨s, hitem, hget⟩
        obtain ⟨n, hm, hn⟩ := (Distinct.lookup_eq_some_iff hdistinct).mp hitem
        exact ⟨(n, s), hm, ks.map f, by rw [List.map_cons, hn],
          (ih (neatAll_iff.mp hall _ hm).1).mpr hget⟩

theorem Neat.get_isSome {t : NameTree K V} (h : Neat f t) {ks : List K} {k : List C} {v : V}
    (hmem : (k, v) ∈ leaves f t) (hk : ks.map f <+: k) : ∃ s, get f ks t = some s := by
  induction ks generalizing t k with
  | nil => exact ⟨t, rfl⟩
  | cons k₀ ks ih =>
    cases t with
    | value w =>
      cases List.mem_singleton.mp hmem
      cases List.prefix_nil.mp hk
    | object ms =>
      obtain ⟨hdistinct, hall⟩ := h
      obtain ⟨⟨n, s⟩, hm, k', rfl, hleaf⟩ := mem_leavesAll.mp hmem
      rw [List.map_cons] at hk
      obtain ⟨hn, hk⟩ := List.cons_prefix_cons.mp hk
      have hitem : (object ms).item f k₀ = some s :=
        (Distinct.lookup_eq_some_iff hdistinct).mpr ⟨n, hm, hn.symm⟩
      rw [get_cons, hitem]
      exact ih (neatAll_iff.mp hall _ hm).1 hleaf hk

theorem Neat.exists_leaf {t s : NameTree K V} (h : Neat f t) {ks : List K} (hne : ks ≠ [])
    (hget : get f ks t = some s) : ∃ q v, (ks.map f ++ q, v) ∈ leaves f t := by
  induction ks generalizing t with
  | nil => exact absurd rfl hne
  | cons k ks ih =>
    cases t with
    | value w => cases hget
    | object ms =>
      obtain ⟨hdistinct, hall⟩ := h
      rw [get_cons] at hget
      obtain ⟨s', hitem, hs⟩ := Option.bind_eq_some_iff.mp hget
      obtain ⟨n, hm, hn⟩ := (Distinct.lookup_eq_some_iff hdistinct).mp hitem
      obtain ⟨hneat, hleaves⟩ := neatAll_iff.mp hall _ hm
      have hbelow : ∃ q v, (ks.map f ++ q, v) ∈ leaves f s' := by
        cases ks with
        | nil =>
          obtain ⟨⟨q, v⟩, hmem⟩ := List.exists_mem_of_ne_nil _ hleaves
          exact ⟨q, v, hmem⟩
        | cons k' ks => exact ih hneat (List.cons_ne_nil _ _) hs
      obtain ⟨q, v, hmem⟩ := hbelow
      refine ⟨q, v, mem_leavesAll.mpr ⟨(n, s'), hm, ks.map f ++ q, ?_, hmem⟩⟩
      rw [List.map_cons, List.cons_append, hn]

/-! ## Trees that show a function -/

/-- The values of the tree are those of the function, each is there once, and is found. -/
structure Shows (f : K → C) (g : List C → Option V) (t : NameTree K V) : Prop where
  distinct : ((leaves f t).map Prod.fst).Nodup
  leaf : ∀ k v, (k, v) ∈ leaves f t ↔ g k = some v
  found : ∀ ks v, g (ks.map f) = some v → get f ks t = some (value v)

/-- The key is not above or below another one. -/
def Apart (g : List C → Option V) (key : List C) : Prop :=
  ∀ k, (g k).isSome → ¬ k <+: key ∧ ¬ key <+: k

theorem shows_empty : Shows f (fun _ ↦ none) (object [] : NameTree K V) where
  distinct := List.nodup_nil
  leaf _ _ := iff_of_false List.not_mem_nil (Option.some_ne_none _).symm
  found _ _ h := by cases h

variable {g : List C → Option V} {t : NameTree K V} {path : List K} {name : K}

theorem Shows.open (h : Shows f g t) (hneat : Neat f t)
    (hapart : Apart g ((path ++ [name]).map f)) : Open f path t := by
  intro p hp v hget
  have hleaf := (h.leaf _ _).mp (hneat.mem_leaves_iff.mpr hget)
  refine (hapart (p.map f) (Option.isSome_of_eq_some hleaf)).1 ?_
  exact (hp.trans (List.prefix_append path [name])).map f

theorem Shows.get_eq_none (h : Shows f g t) (hneat : Neat f t)
    (hapart : Apart g ((path ++ [name]).map f)) : get f (path ++ [name]) t = none := by
  cases hget : get f (path ++ [name]) t with
  | none => rfl
  | some s =>
    obtain ⟨q, v, hmem⟩ := hneat.exists_leaf
      (List.append_ne_nil_of_right_ne_nil _ (List.cons_ne_nil _ _)) hget
    have hleaf := (h.leaf _ _).mp hmem
    exact absurd (List.prefix_append _ q) (hapart _ (Option.isSome_of_eq_some hleaf)).2

theorem Shows.put (h : Shows f g t) (hneat : Neat f t)
    (hapart : Apart g ((path ++ [name]).map f)) (v : V) :
    Shows f (Function.update g ((path ++ [name]).map f) (some v)) (put f path name v t) := by
  have hopen := h.open hneat hapart
  have hperm := leaves_put hopen name v
  have hneat' := hneat.put hopen (h.get_eq_none hneat hapart) v
  have hnew : g ((path ++ [name]).map f) = none := by
    by_contra hne
    exact (hapart _ (Option.isSome_iff_ne_none.mpr hne)).1 (List.prefix_refl _)
  have hleaf (k : List C) (u : V) : (k, u) ∈ leaves f (NameTree.put f path name v t) ↔
      Function.update g ((path ++ [name]).map f) (some v) k = some u := by
    rw [hperm.mem_iff, List.mem_cons, h.leaf, Prod.mk.injEq]
    by_cases hk : k = (path ++ [name]).map f
    · rw [hk, Function.update_self, hnew, Option.some.injEq]
      constructor
      · rintro (⟨-, rfl⟩ | hnone)
        · rfl
        · cases hnone
      · exact fun heq ↦ .inl ⟨rfl, heq.symm⟩
    · rw [Function.update_of_ne hk]
      exact or_iff_right fun heq ↦ hk heq.1
  refine ⟨?_, hleaf, fun ks u hu ↦ hneat'.mem_leaves_iff.mp ((hleaf _ _).mpr hu)⟩
  rw [(hperm.map Prod.fst).nodup_iff, List.map_cons, List.nodup_cons]
  refine ⟨fun hmem ↦ ?_, h.distinct⟩
  obtain ⟨⟨k, u⟩, hmem, hk⟩ := List.mem_map.mp hmem
  rw [h.leaf, show k = (path ++ [name]).map f from hk, hnew] at hmem
  cases hmem

theorem Shows.apart_of_put (h : Shows f g t) (hneat : Neat f t) {v : V}
    (hput : Shows f (Function.update g ((path ++ [name]).map f) (some v))
      (NameTree.put f path name v t)) :
    Apart g ((path ++ [name]).map f) := by
  have hfound := hput.found _ _ (Function.update_self _ _ g)
  -- no value stands on the way
  have hopen : Open f path t := by
    intro p hp w hget
    rw [put_of_value hp hget name v] at hfound
    obtain ⟨q, rfl⟩ := hp
    rw [List.append_assoc, get_append, hget, Option.bind_some,
      get_value (List.append_ne_nil_of_right_ne_nil _ (List.cons_ne_nil _ _))] at hfound
    cases hfound
  have hdistinct := hput.distinct
  rw [((leaves_put hopen name v).map Prod.fst).nodup_iff, List.map_cons,
    List.nodup_cons] at hdistinct
  have hnew (u : V) : ((path ++ [name]).map f, u) ∉ leaves f t :=
    fun hmem ↦ hdistinct.1 (List.mem_map.mpr ⟨_, hmem, rfl⟩)
  intro k hk
  obtain ⟨w, hw⟩ := Option.isSome_iff_exists.mp hk
  have hmem := (h.leaf _ _).mpr hw
  constructor
  · intro hprefix
    obtain ⟨p, hp, rfl⟩ : ∃ p, p <+: path ++ [name] ∧ p.map f = k :=
      ⟨(path ++ [name]).take k.length, List.take_prefix _ _, by
        rw [List.map_take]
        exact (List.prefix_iff_eq_take.mp hprefix).symm⟩
    rcases List.prefix_concat_iff.mp hp with rfl | hp
    · exact hnew w hmem
    · exact hopen p hp w (hneat.mem_leaves_iff.mp hmem)
  · intro hprefix
    obtain ⟨s, hs⟩ := hneat.get_isSome hmem hprefix
    have hvalue := (get_put hs v).symm.trans hfound
    cases hvalue
    exact hnew v (hneat.mem_leaves_iff.mpr hs)

theorem Shows.put_iff (h : Shows f g t) (hneat : Neat f t) (v : V) :
    Shows f (Function.update g ((path ++ [name]).map f) (some v)) (NameTree.put f path name v t) ↔
      Apart g ((path ++ [name]).map f) :=
  ⟨h.apart_of_put hneat, fun hapart ↦ h.put hneat hapart v⟩

end Lemmas

end NameTree

end Libobject
