import Libobject.Archive.SquashfsWrite
import Mathlib.Data.List.Infix
import Mathlib.Data.List.Nodup
import Mathlib.Data.List.Perm.Lattice

/-!
# The directory tree of a list of names

A path grows a tree if it is not in it and passes no file. The nodes of the tree are then the
paths that were put in and the proper prefixes of these.
-/

namespace Libobject.Squashfs

open Rose

abbrev Path := List Text

/-- One path is the other or leads through it. -/
def Clash (p q : Path) : Prop := p <+: q ∨ q <+: p

instance : DecidableRel Clash := fun _ _ ↦ inferInstanceAs (Decidable (_ ∨ _))

/-- A directory on the way to `p`, the root apart. -/
def Above (q p : Path) : Prop := q ≠ [] ∧ q <+: p ∧ q ≠ p

theorem above_cons {s : Text} {p q : Path} :
    Above q (s :: p) ↔ q = [s] ∧ p ≠ [] ∨ ∃ q', q = s :: q' ∧ Above q' p := by
  constructor
  · rintro ⟨hne, hpre, hq⟩
    obtain ⟨t, q', rfl⟩ := List.exists_cons_of_ne_nil hne
    rw [List.cons_prefix_cons] at hpre
    obtain ⟨rfl, hpre⟩ := hpre
    by_cases hq' : q' = []
    · subst hq'
      refine .inl ⟨rfl, ?_⟩
      rintro rfl
      exact hq rfl
    · refine .inr ⟨q', rfl, hq', hpre, ?_⟩
      rintro rfl
      exact hq rfl
  · rintro (⟨rfl, hp⟩ | ⟨q', rfl, -, hpre, hq⟩)
    · refine ⟨List.cons_ne_nil s [], List.cons_prefix_cons.mpr ⟨rfl, List.nil_prefix⟩, ?_⟩
      intro h
      exact hp (List.cons.inj h).2.symm
    · refine ⟨List.cons_ne_nil s q', List.cons_prefix_cons.mpr ⟨rfl, hpre⟩, ?_⟩
      intro h
      exact hq (List.cons.inj h).2

mutual

/-- The paths of the nodes in preorder, each with its file. -/
def entries : Node → List (Path × Option FileEntry)
  | .node m cs => ([m.name], m.file) :: (entriesAll cs).map fun x ↦ (m.name :: x.1, x.2)

def entriesAll : List Node → List (Path × Option FileEntry)
  | [] => []
  | t :: ts => entries t ++ entriesAll ts

end

theorem entriesAll_append (xs ys : List Node) :
    entriesAll (xs ++ ys) = entriesAll xs ++ entriesAll ys := by
  induction xs with
  | nil => rfl
  | cons t ts ih => rw [List.cons_append, entriesAll, entriesAll, ih, List.append_assoc]

theorem mem_entriesAll {x : Path × Option FileEntry} {ts : List Node} :
    x ∈ entriesAll ts ↔ ∃ t ∈ ts, x ∈ entries t := by
  induction ts with
  | nil => simp [entriesAll]
  | cons t ts ih => simp [entriesAll, ih]

theorem mem_entries {t : Node} {x : Path × Option FileEntry} :
    x ∈ entries t ↔ x = ([t.data.name], t.data.file) ∨
      ∃ y ∈ entriesAll t.child, x = (t.data.name :: y.1, y.2) := by
  obtain ⟨m, cs⟩ := t
  simp [entries, data, child, eq_comm]

/-- Siblings have different names, directories have children and files have none. -/
inductive Grown : List Node → Prop
  | mk {cs : List Node} (names : (cs.map fun c ↦ c.data.name).Nodup)
      (kind : ∀ c ∈ cs, c.data.file.isSome ↔ c.child = []) (sub : ∀ c ∈ cs, Grown c.child) :
      Grown cs

namespace Grown

variable {cs : List Node} {c : Node} {s : Text} {q : Path} {k : Option FileEntry}

theorem nil : Grown [] := ⟨List.nodup_nil, fun _ h ↦ by simp at h, fun _ h ↦ by simp at h⟩

theorem names (h : Grown cs) : (cs.map fun c ↦ c.data.name).Nodup := by
  cases h
  assumption

theorem kind (h : Grown cs) (hc : c ∈ cs) : c.data.file.isSome ↔ c.child = [] := by
  cases h with
  | mk _ kind _ => exact kind c hc

theorem sub (h : Grown cs) (hc : c ∈ cs) : Grown c.child := by
  cases h with
  | mk _ _ sub => exact sub c hc

theorem tail {t : Node} {ts : List Node} (h : Grown (t :: ts)) : Grown ts := by
  have hnames := h.names
  rw [List.map_cons, List.nodup_cons] at hnames
  exact ⟨hnames.2, fun c hc ↦ h.kind (List.mem_cons_of_mem t hc),
    fun c hc ↦ h.sub (List.mem_cons_of_mem t hc)⟩

end Grown

theorem Grown.insert {l r : List Node} {nx : Node} (hg : Grown (l ++ r))
    (hname : ∀ c ∈ l ++ r, c.data.name ≠ nx.data.name)
    (hkind : nx.data.file.isSome ↔ nx.child = []) (hsub : Grown nx.child) :
    Grown (l ++ nx :: r) := by
  have hmem : ∀ c ∈ l ++ nx :: r, c ∈ l ++ r ∨ c = nx := by
    intro c hc
    simp only [List.mem_append, List.mem_cons] at hc ⊢
    tauto
  refine ⟨?_, fun c hc ↦ ?_, fun c hc ↦ ?_⟩
  · rw [List.map_append, List.map_cons, List.nodup_middle, ← List.map_append]
    refine List.nodup_cons.mpr ⟨fun h ↦ ?_, hg.names⟩
    obtain ⟨c, hc, heq⟩ := List.mem_map.mp h
    exact hname c hc heq
  · rcases hmem c hc with hc | rfl
    · exact hg.kind hc
    · exact hkind
  · rcases hmem c hc with hc | rfl
    · exact hg.sub hc
    · exact hsub

theorem Grown.replace {l r : List Node} {nx nx' : Node} (hg : Grown (l ++ nx :: r))
    (hname : nx'.data.name = nx.data.name) (hkind : nx'.data.file.isSome ↔ nx'.child = [])
    (hsub : Grown nx'.child) : Grown (l ++ nx' :: r) := by
  have hmem : ∀ c ∈ l ++ nx' :: r, c ∈ l ++ nx :: r ∨ c = nx' := by
    intro c hc
    simp only [List.mem_append, List.mem_cons] at hc ⊢
    tauto
  refine ⟨?_, fun c hc ↦ ?_, fun c hc ↦ ?_⟩
  · simpa only [List.map_append, List.map_cons, hname] using hg.names
  · rcases hmem c hc with hc | rfl
    · exact hg.kind hc
    · exact hkind
  · rcases hmem c hc with hc | rfl
    · exact hg.sub hc
    · exact hsub

theorem ne_nil_of_mem_entriesAll {cs : List Node} {x : Path × Option FileEntry}
    (hx : x ∈ entriesAll cs) : x.1 ≠ [] := by
  obtain ⟨t, -, ht⟩ := mem_entriesAll.mp hx
  rcases mem_entries.mp ht with rfl | ⟨y, -, rfl⟩
  · exact List.cons_ne_nil _ _
  · exact List.cons_ne_nil _ _

theorem mem_entriesAll_cons {cs : List Node} {c : Node} {q : Path} {k : Option FileEntry}
    (hg : Grown cs) (hc : c ∈ cs) :
    (c.data.name :: q, k) ∈ entriesAll cs ↔
      q = [] ∧ k = c.data.file ∨ (q, k) ∈ entriesAll c.child := by
  have hunique : ∀ t ∈ cs, t.data.name = c.data.name → t = c := fun t ht hname ↦
    List.inj_on_of_nodup_map hg.names ht hc hname
  rw [mem_entriesAll]
  constructor
  · rintro ⟨t, ht, hx⟩
    rcases mem_entries.mp hx with hx | ⟨y, hy, hx⟩
    · obtain ⟨hpath, rfl⟩ := Prod.mk.inj hx
      obtain ⟨hname, rfl⟩ := List.cons.inj hpath
      rw [hunique t ht hname.symm]
      exact .inl ⟨rfl, rfl⟩
    · obtain ⟨hpath, rfl⟩ := Prod.mk.inj hx
      obtain ⟨hname, rfl⟩ := List.cons.inj hpath
      rw [hunique t ht hname.symm] at hy
      exact .inr hy
  · rintro (⟨rfl, rfl⟩ | hq)
    · exact ⟨c, hc, mem_entries.mpr (.inl rfl)⟩
    · exact ⟨c, hc, mem_entries.mpr (.inr ⟨(q, k), hq, rfl⟩)⟩

theorem notMem_entriesAll_cons {cs : List Node} {s : Text} {q : Path} {k : Option FileEntry}
    (hs : ∀ c ∈ cs, c.data.name ≠ s) : (s :: q, k) ∉ entriesAll cs := by
  intro h
  obtain ⟨t, ht, hx⟩ := mem_entriesAll.mp h
  rcases mem_entries.mp hx with hx | ⟨y, -, hx⟩
  · exact hs t ht (List.cons.inj (Prod.mk.inj hx).1).1.symm
  · exact hs t ht (List.cons.inj (Prod.mk.inj hx).1).1.symm

section Grow

variable {f : FileEntry} {cs cs' l r : List Node} {nx : Node} {s : Text} {p rest : Path}

theorem node_find_append (hl : ∀ c ∈ l, c.data.name ≠ s) (hnx : nx.data.name = s) :
    node_find s (l ++ nx :: r) = some l.length := by
  have hnone : l.findIdx? (fun c : Node ↦ c.data.name = s) = none := by
    rw [List.findIdx?_eq_none_iff]
    intro c hc
    simpa using hl c hc
  rw [node_find, List.findIdx?_append, hnone, List.findIdx?_cons, hnx]
  simp

theorem node_find_eq_none (hs : ∀ c ∈ cs, c.data.name ≠ s) : node_find s cs = none := by
  rw [node_find, List.findIdx?_eq_none_iff]
  intro c hc
  simpa using hs c hc

theorem grow_found (hl : ∀ c ∈ l, c.data.name ≠ s) (hnx : nx.data.name = s) :
    grow f (s :: rest) (l ++ nx :: r) =
      if rest = [] ∨ nx.data.file.isSome then none
      else (grow f rest nx.child).map fun sub ↦ l ++ .node nx.data sub :: r := by
  have hget : (l ++ nx :: r)[l.length]? = some nx := by simp
  simp only [grow, node_find_append hl hnx, hget, Option.bind_eq_bind, Option.bind_some]
  refine if_congr Iff.rfl rfl ?_
  cases grow f rest nx.child with
  | none => rfl
  | some sub => simp

theorem insertIdx_take_drop {α : Type*} (a : α) (xs : List α) (k : ℕ) (hk : k ≤ xs.length) :
    xs.insertIdx k a = xs.take k ++ a :: xs.drop k := by
  induction xs generalizing k with
  | nil =>
    cases k with
    | zero => rfl
    | succ k => simp at hk
  | cons x xs ih =>
    cases k with
    | zero => rfl
    | succ k =>
      rw [List.insertIdx_succ_cons, ih k (by simpa using hk)]
      rfl

theorem grow_new (hs : ∀ c ∈ cs, c.data.name ≠ s) :
    ∃ l r, cs = l ++ r ∧ grow f (s :: rest) cs = (grow f rest []).map fun sub ↦
      l ++ newNode s (if rest = [] then some f else none) sub :: r := by
  refine ⟨cs.take (insert_pos s cs), cs.drop (insert_pos s cs), (List.take_append_drop _ _).symm,
    ?_⟩
  simp only [grow, node_find_eq_none hs, Option.bind_eq_bind]
  cases grow f rest [] with
  | none => rfl
  | some sub =>
    have hpos : insert_pos s cs ≤ cs.length := List.findIdx_le_length
    simp only [Option.bind_some, Option.map_some]
    rw [insertIdx_take_drop _ cs _ hpos]
    rfl

theorem Grown.cases_name (h : Grown cs) (s : Text) :
    (∀ c ∈ cs, c.data.name ≠ s) ∨ ∃ l nx r, cs = l ++ nx :: r ∧ nx.data.name = s ∧
      ∀ c ∈ l, c.data.name ≠ s := by
  by_cases hs : ∀ c ∈ cs, c.data.name ≠ s
  · exact .inl hs
  · push Not at hs
    obtain ⟨nx, hnx, rfl⟩ := hs
    obtain ⟨l, r, rfl⟩ := List.append_of_mem hnx
    refine .inr ⟨l, nx, r, rfl, rfl, ?_⟩
    have hnodup := h.names
    rw [List.map_append, List.map_cons, List.nodup_append] at hnodup
    intro c hc hname
    exact hnodup.2.2 _ (List.mem_map_of_mem hc) _ List.mem_cons_self hname

theorem grow_isSome (hp : p ≠ []) (hg : Grown cs) :
    (grow f p cs).isSome ↔
      ∀ x ∈ entriesAll cs, x.1 ≠ p ∧ ¬(x.2.isSome ∧ x.1 <+: p) := by
  induction p generalizing cs with
  | nil => exact absurd rfl hp
  | cons s rest ih =>
    rcases hg.cases_name s with hs | ⟨l, nx, r, rfl, rfl, hl⟩
    · have hsub : (grow f rest []).isSome := by
        by_cases hrest : rest = []
        · subst hrest
          rfl
        · exact (ih hrest .nil).mpr fun x hx ↦ nomatch hx
      obtain ⟨l, r, -, heq⟩ := grow_new (f := f) hs
      rw [heq, Option.isSome_map]
      refine iff_of_true hsub ?_
      rintro ⟨q, k⟩ hx
      obtain ⟨t, q', rfl⟩ := List.exists_cons_of_ne_nil (ne_nil_of_mem_entriesAll hx)
      have hts : t ≠ s := by
        rintro rfl
        exact notMem_entriesAll_cons hs hx
      refine ⟨fun h ↦ hts (List.cons.inj h).1, fun h ↦ hts (List.cons_prefix_cons.mp h.2).1⟩
    · have hmem : nx ∈ l ++ nx :: r := List.mem_append_right l List.mem_cons_self
      rw [grow_found hl rfl]
      by_cases hrest : rest = []
      · rw [if_pos (.inl hrest), hrest]
        refine iff_of_false (by simp) fun h ↦ ?_
        exact (h _ ((mem_entriesAll_cons hg hmem).mpr (.inl ⟨rfl, rfl⟩))).1 rfl
      · by_cases hfile : nx.data.file.isSome
        · rw [if_pos (.inr hfile)]
          refine iff_of_false (by simp) fun h ↦ ?_
          refine (h _ ((mem_entriesAll_cons hg hmem).mpr (.inl ⟨rfl, rfl⟩))).2 ⟨hfile, ?_⟩
          exact List.cons_prefix_cons.mpr ⟨rfl, List.nil_prefix⟩
        · rw [if_neg (by simp [hrest, hfile]), Option.isSome_map, ih hrest (hg.sub hmem)]
          constructor
          · rintro h ⟨q, k⟩ hx
            obtain ⟨t, q', rfl⟩ := List.exists_cons_of_ne_nil (ne_nil_of_mem_entriesAll hx)
            by_cases ht : t = nx.data.name
            · subst ht
              rcases (mem_entriesAll_cons hg hmem).mp hx with ⟨rfl, rfl⟩ | hq
              · refine ⟨fun h ↦ hrest (List.cons.inj h).2.symm, fun h ↦ hfile h.1⟩
              · have hsub := h _ hq
                refine ⟨fun h ↦ hsub.1 (List.cons.inj h).2, fun h ↦ hsub.2 ⟨h.1, ?_⟩⟩
                exact (List.cons_prefix_cons.mp h.2).2
            · refine ⟨fun h ↦ ht (List.cons.inj h).1, fun h ↦ ?_⟩
              exact ht (List.cons_prefix_cons.mp h.2).1
          · rintro h ⟨q, k⟩ hq
            have hsub := h _ ((mem_entriesAll_cons hg hmem).mpr (.inr hq))
            refine ⟨fun h ↦ hsub.1 (congrArg _ h), fun h ↦ hsub.2 ⟨h.1, ?_⟩⟩
            exact List.cons_prefix_cons.mpr ⟨rfl, h.2⟩

theorem mem_entriesAll_middle {x : Path × Option FileEntry} :
    x ∈ entriesAll (l ++ nx :: r) ↔ x ∈ entries nx ∨ x ∈ entriesAll (l ++ r) := by
  rw [entriesAll_append, entriesAll_append, entriesAll]
  simp only [List.mem_append]
  tauto

theorem grow_ne_nil (hp : p ≠ []) (h : grow f p cs = some cs') (hg : Grown cs) : cs' ≠ [] := by
  obtain ⟨s, rest, rfl⟩ := List.exists_cons_of_ne_nil hp
  rcases hg.cases_name s with hs | ⟨l, nx, r, rfl, rfl, hl⟩
  · obtain ⟨l, r, -, heq⟩ := grow_new (f := f) hs
    rw [heq, Option.map_eq_some_iff] at h
    obtain ⟨sub, -, rfl⟩ := h
    simp
  · rw [grow_found hl rfl] at h
    split at h
    · cases h
    · obtain ⟨sub, -, rfl⟩ := Option.map_eq_some_iff.mp h
      simp

theorem mem_entries_grown {m : Meta} {sub old : List Node} (hm : m.file = none)
    (hsub : ∀ y, y ∈ entriesAll sub ↔
      y ∈ entriesAll old ∨ y = (rest, some f) ∨ ∃ q, y = (q, none) ∧ Above q rest)
    (x : Path × Option FileEntry) :
    x ∈ entries (.node m sub) ↔ x ∈ entries (.node m old) ∨
      x = (m.name :: rest, some f) ∨ ∃ q, x = (q, none) ∧ Above q (m.name :: rest) := by
  rw [mem_entries, mem_entries, data_node, child_node, data_node, child_node]
  constructor
  · rintro (rfl | ⟨y, hy, rfl⟩)
    · exact .inl (.inl rfl)
    · rcases (hsub y).mp hy with hy | rfl | ⟨q, rfl, hq⟩
      · exact .inl (.inr ⟨y, hy, rfl⟩)
      · exact .inr (.inl rfl)
      · exact .inr (.inr ⟨m.name :: q, rfl, above_cons.mpr (.inr ⟨q, rfl, hq⟩)⟩)
  · rintro ((rfl | ⟨y, hy, rfl⟩) | rfl | ⟨q, rfl, hq⟩)
    · exact .inl rfl
    · exact .inr ⟨y, (hsub y).mpr (.inl hy), rfl⟩
    · exact .inr ⟨(rest, some f), (hsub _).mpr (.inr (.inl rfl)), rfl⟩
    · rcases above_cons.mp hq with ⟨rfl, -⟩ | ⟨q', rfl, hq'⟩
      · exact .inl (by rw [hm])
      · exact .inr ⟨(q', none), (hsub _).mpr (.inr (.inr ⟨q', rfl, hq'⟩)), rfl⟩

theorem entries_newNode (s : Text) (file : Option FileEntry) :
    entries (newNode s file []) = [([s], file)] := rfl

theorem grow_spec (hp : p ≠ []) (hg : Grown cs) (h : grow f p cs = some cs') :
    Grown cs' ∧ ∀ x, x ∈ entriesAll cs' ↔
      x ∈ entriesAll cs ∨ x = (p, some f) ∨ ∃ q, x = (q, none) ∧ Above q p := by
  induction p generalizing cs cs' with
  | nil => exact absurd rfl hp
  | cons s rest ih =>
    rcases hg.cases_name s with hs | ⟨l, nx, r, rfl, rfl, hl⟩
    · obtain ⟨l, r, rfl, heq⟩ := grow_new (f := f) hs
      rw [heq, Option.map_eq_some_iff] at h
      obtain ⟨sub, hsub, rfl⟩ := h
      by_cases hrest : rest = []
      · subst hrest
        obtain rfl := Option.some.inj hsub
        refine ⟨hg.insert hs (iff_of_true rfl rfl) .nil, fun x ↦ ?_⟩
        have habove : ¬∃ q, x = (q, none) ∧ Above q [s] := by
          rintro ⟨q, -, hq⟩
          rcases above_cons.mp hq with ⟨-, hne⟩ | ⟨q', -, hne, hpre, -⟩
          · exact hne rfl
          · exact hne (List.prefix_nil.mp hpre)
        rw [if_pos rfl, mem_entriesAll_middle, entries_newNode, List.mem_singleton,
          or_iff_left habove, or_comm]
      · obtain ⟨hsubgrown, hsubmem⟩ := ih hrest .nil hsub
        have hkind : (newNode s none sub).data.file.isSome ↔ (newNode s none sub).child = [] :=
          iff_of_false Bool.false_ne_true (grow_ne_nil hrest hsub .nil)
        rw [if_neg hrest]
        refine ⟨hg.insert hs hkind hsubgrown, fun x ↦ ?_⟩
        have hnode := mem_entries_grown (m := ⟨s, none, 0, 0, 0, 0⟩) rfl hsubmem x
        have hself : x ∈ entries (newNode s none []) →
            ∃ q, x = (q, none) ∧ Above q (s :: rest) := by
          rw [entries_newNode, List.mem_singleton]
          rintro rfl
          exact ⟨[s], rfl, above_cons.mpr (.inl ⟨rfl, hrest⟩)⟩
        rw [newNode] at hself
        rw [newNode, mem_entriesAll_middle, hnode]
        generalize (∃ q, x = (q, none) ∧ Above q (s :: rest)) = P at hself ⊢
        tauto
    · have hmem : nx ∈ l ++ nx :: r := List.mem_append_right l List.mem_cons_self
      rw [grow_found hl rfl] at h
      split at h
      · cases h
      · next hdir =>
          push Not at hdir
          obtain ⟨hrest, hfile⟩ := hdir
          obtain ⟨sub, hsub, rfl⟩ := Option.map_eq_some_iff.mp h
          obtain ⟨hsubgrown, hsubmem⟩ := ih hrest (hg.sub hmem) hsub
          have hkind : (node nx.data sub).data.file.isSome ↔ (node nx.data sub).child = [] :=
            iff_of_false hfile (grow_ne_nil hrest hsub (hg.sub hmem))
          refine ⟨hg.replace rfl hkind hsubgrown, fun x ↦ ?_⟩
          have hnode := mem_entries_grown (Option.not_isSome_iff_eq_none.mp hfile) hsubmem x
          rw [Rose.eta] at hnode
          rw [mem_entriesAll_middle, mem_entriesAll_middle, hnode, or_right_comm]

end Grow

def FileEntry.path (f : FileEntry) : Path := segments f.name

/-- Names that can be put in one after another: each has from 1 to 63 segments, and no two of them
clash. -/
def Taken (ps : List Path) : Prop :=
  (∀ p ∈ ps, p ≠ [] ∧ p.length < 64) ∧ ps.Pairwise fun p q ↦ ¬Clash p q

instance : DecidablePred Taken := fun _ ↦ inferInstanceAs (Decidable (_ ∧ _))

theorem taken_nil : Taken [] := ⟨fun _ hp ↦ (nomatch hp), .nil⟩

theorem Taken.of_append {ps qs : List Path} (h : Taken (ps ++ qs)) : Taken ps :=
  ⟨fun p hp ↦ h.1 p (List.mem_append_left qs hp), (List.pairwise_append.mp h.2).1⟩

theorem taken_concat {ps : List Path} {p : Path} (hps : Taken ps) :
    Taken (ps ++ [p]) ↔ (p ≠ [] ∧ p.length < 64) ∧ ∀ q ∈ ps, ¬Clash q p := by
  constructor
  · intro h
    refine ⟨h.1 p (by simp), fun q hq ↦ ?_⟩
    exact (List.pairwise_append.mp h.2).2.2 q hq p (List.mem_singleton_self p)
  · rintro ⟨hp, hq⟩
    refine ⟨fun q hmem ↦ ?_, List.pairwise_append.mpr ⟨hps.2, List.pairwise_singleton _ p, ?_⟩⟩
    · rcases List.mem_append.mp hmem with hmem | hmem
      · exact hps.1 q hmem
      · rwa [List.mem_singleton.mp hmem]
    · intro q hmem p' hp'
      rw [List.mem_singleton.mp hp']
      exact hq q hmem

/-- The children of the root after the files. -/
structure Holds (files : List FileEntry) (cs : List Node) : Prop where
  grown : Grown cs
  mem_iff : ∀ x, x ∈ entriesAll cs ↔ (∃ g ∈ files, x = (g.path, some g)) ∨
    ∃ g ∈ files, ∃ q, x = (q, none) ∧ Above q g.path

section GrowAll

variable {before files : List FileEntry} {cs : List Node} {f : FileEntry}

theorem Holds.nil : Holds [] [] := ⟨.nil, fun x ↦ by simp [entriesAll]⟩

theorem Holds.grow_isSome (h : Holds before cs) (hp : f.path ≠ []) :
    (grow f f.path cs).isSome ↔ ∀ g ∈ before, ¬Clash g.path f.path := by
  rw [Squashfs.grow_isSome hp h.grown]
  constructor
  · intro hx g hg hclash
    have hfile := hx _ ((h.mem_iff _).mpr (.inl ⟨g, hg, rfl⟩))
    rcases hclash with hpre | hpre
    · exact hfile.2 ⟨rfl, hpre⟩
    · have habove : Above f.path g.path := ⟨hp, hpre, fun heq ↦ hfile.1 heq.symm⟩
      exact (hx _ ((h.mem_iff _).mpr (.inr ⟨g, hg, f.path, rfl, habove⟩))).1 rfl
  · rintro hclash x hx
    rcases (h.mem_iff x).mp hx with ⟨g, hg, rfl⟩ | ⟨g, hg, q, rfl, -, hpre, -⟩
    · refine ⟨fun heq ↦ hclash g hg (.inl ?_), fun hfile ↦ hclash g hg (.inl hfile.2)⟩
      exact heq ▸ List.prefix_refl _
    · refine ⟨fun heq ↦ hclash g hg (.inr ?_), fun hfile ↦ nomatch hfile.1⟩
      exact heq ▸ hpre

theorem Holds.grow (h : Holds before cs) (hp : f.path ≠ []) {cs' : List Node}
    (hgrow : Squashfs.grow f f.path cs = some cs') : Holds (before ++ [f]) cs' := by
  obtain ⟨hgrown, hmem⟩ := grow_spec hp h.grown hgrow
  refine ⟨hgrown, fun x ↦ ?_⟩
  rw [hmem, h.mem_iff]
  simp only [List.mem_append, List.mem_singleton, or_and_right, exists_or, exists_eq_left]
  exact or_or_or_comm

theorem growAll_cons (h : Holds before cs) (hb : Taken (before.map (·.path))) :
    (¬Taken ((before ++ [f]).map (·.path)) ∧
        growAll (f :: files) cs = (none, segRecords f.name)) ∨
      Taken ((before ++ [f]).map (·.path)) ∧ ∃ cs', Holds (before ++ [f]) cs' ∧
        growAll (f :: files) cs =
          ((growAll files cs').1, segRecords f.name ++ (growAll files cs').2) := by
  rw [List.map_append, List.map_singleton, taken_concat hb, List.forall_mem_map, growAll]
  by_cases hlen : (segments f.name).length = 0 ∨ 64 ≤ (segments f.name).length
  · rw [if_pos hlen]
    refine .inl ⟨fun ht ↦ ?_, rfl⟩
    rcases hlen with hlen | hlen
    · exact ht.1.1 (List.length_eq_zero_iff.mp hlen)
    · exact Nat.not_lt.mpr hlen ht.1.2
  · rw [if_neg hlen]
    push Not at hlen
    have hp : f.path ≠ [] := fun hnil ↦ hlen.1 (List.length_eq_zero_iff.mpr hnil)
    have hsome := h.grow_isSome hp
    cases hgrow : Squashfs.grow f f.path cs with
    | none =>
      rw [hgrow] at hsome
      rw [FileEntry.path] at hgrow
      rw [hgrow]
      exact .inl ⟨fun ht ↦ Bool.false_ne_true (hsome.mpr ht.2), rfl⟩
    | some cs' =>
      rw [hgrow] at hsome
      have hholds := h.grow hp hgrow
      rw [FileEntry.path] at hgrow
      rw [hgrow]
      exact .inr ⟨⟨⟨hp, hlen.2⟩, hsome.mp rfl⟩, cs', hholds, rfl⟩

theorem growAll_isSome (h : Holds before cs) (hb : Taken (before.map (·.path))) :
    (growAll files cs).1.isSome ↔ Taken ((before ++ files).map (·.path)) := by
  induction files generalizing before cs with
  | nil =>
    rw [List.append_nil]
    exact iff_of_true rfl hb
  | cons f files ih =>
    rw [List.append_cons]
    rcases growAll_cons h hb with ⟨hnot, heq⟩ | ⟨ht, cs', hholds, heq⟩
    · rw [heq]
      refine iff_of_false Bool.false_ne_true fun ht ↦ hnot ?_
      rw [List.map_append] at ht
      exact ht.of_append
    · rw [heq]
      exact ih hholds ht

theorem growAll_holds (h : Holds before cs) (hb : Taken (before.map (·.path))) {cs' : List Node}
    (hgrow : (growAll files cs).1 = some cs') : Holds (before ++ files) cs' := by
  induction files generalizing before cs with
  | nil =>
    obtain rfl := Option.some.inj hgrow
    rwa [List.append_nil]
  | cons f files ih =>
    rw [List.append_cons]
    rcases growAll_cons h hb with ⟨-, heq⟩ | ⟨ht, cs₁, hholds, heq⟩
    · rw [heq] at hgrow
      cases hgrow
    · rw [heq] at hgrow
      exact ih hholds ht hgrow

theorem segRecords_fit (name : Text) :
    (∀ r ∈ segRecords name, r.Fits) ↔ (segments name).length ≤ 64 := by
  have hshort : ∀ s ∈ segments name, s.length ≤ 255 := by
    intro s hs
    rw [segments, List.mem_map] at hs
    obtain ⟨t, -, rfl⟩ := hs
    rw [List.length_take]
    exact Nat.min_le_left 255 t.length
  constructor
  · intro h
    by_contra hlen
    push Not at hlen
    have hlast := h ⟨.segs, 256 * 64, 256, _⟩ (List.mem_mapIdx.mpr ⟨64, hlen, rfl⟩)
    have hin : 256 * 64 + 256 ≤ 64 * 256 := hlast.2
    omega
  · intro hlen r hr
    obtain ⟨k, hk, rfl⟩ := List.mem_mapIdx.mp hr
    have hs := hshort _ (List.getElem_mem hk)
    constructor
    · simp only [List.length_append, List.length_replicate]
      omega
    · change 256 * k + 256 ≤ 64 * 256
      omega

theorem growAll_fits (h : Holds before cs) (hb : Taken (before.map (·.path))) :
    (∀ r ∈ (growAll files cs).2, r.Fits) ↔ ∀ pre f post, files = pre ++ f :: post →
      Taken ((before ++ pre).map (·.path)) → f.path.length ≤ 64 := by
  induction files generalizing before cs with
  | nil =>
    refine iff_of_true (fun r hr ↦ nomatch hr) ?_
    intro pre f post hsplit
    simp at hsplit
  | cons f files ih =>
    have hhead : (∀ pre g post, f :: files = pre ++ g :: post →
        Taken ((before ++ pre).map (·.path)) → g.path.length ≤ 64) ↔
        f.path.length ≤ 64 ∧ (∀ pre g post, files = pre ++ g :: post →
          Taken ((before ++ [f] ++ pre).map (·.path)) → g.path.length ≤ 64) := by
      constructor
      · intro hall
        refine ⟨hall [] f files rfl (by rwa [List.append_nil]), ?_⟩
        rintro pre g post rfl ht
        refine hall (f :: pre) g post rfl ?_
        rwa [List.append_assoc] at ht
      · rintro ⟨hf, hall⟩ pre g post hsplit ht
        rcases List.cons_eq_append_iff.mp hsplit with ⟨-, hnil⟩ | ⟨pre', rfl, hpre⟩
        · rwa [(List.cons.inj hnil).1]
        · refine hall pre' g post hpre ?_
          rwa [List.append_assoc]
    rw [hhead]
    rcases growAll_cons h hb with ⟨hnot, heq⟩ | ⟨ht, cs', hholds, heq⟩
    · rw [heq, segRecords_fit]
      refine (and_iff_left fun pre g post _ ht ↦ ?_).symm
      rw [List.map_append] at ht
      exact absurd ht.of_append hnot
    · rw [heq, ← ih hholds ht, FileEntry.path, ← segRecords_fit]
      exact List.forall_mem_append

end GrowAll

section Count

/-- The directories that the names need, the root among them. -/
def dirsOf (ps : List Path) : List Path := ([] :: ps.flatMap fun p ↦ p.dropLast.inits).dedup

/-- All but the root. -/
def subdirsOf (ps : List Path) : List Path := (dirsOf ps).filter (· ≠ [])

theorem prefix_dropLast_iff {p q : Path} (hp : p ≠ []) : q <+: p.dropLast ↔ q <+: p ∧ q ≠ p := by
  have hsplit := List.dropLast_append_getLast hp
  constructor
  · intro h
    refine ⟨h.trans (List.dropLast_prefix p), ?_⟩
    rintro rfl
    have hlen := h.length_le
    have hpos := List.length_pos_iff.mpr hp
    rw [List.length_dropLast] at hlen
    omega
  · rintro ⟨hpre, hne⟩
    rw [← hsplit, List.prefix_concat_iff, hsplit] at hpre
    exact hpre.resolve_left hne

theorem mem_dirsOf {ps : List Path} (hps : ∀ p ∈ ps, p ≠ []) {q : Path} (hq : q ≠ []) :
    q ∈ dirsOf ps ↔ ∃ p ∈ ps, Above q p := by
  rw [dirsOf, List.mem_dedup, List.mem_cons, or_iff_right hq, List.mem_flatMap]
  constructor
  · rintro ⟨p, hp, hmem⟩
    exact ⟨p, hp, hq, (prefix_dropLast_iff (hps p hp)).mp ((List.mem_inits q _).mp hmem)⟩
  · rintro ⟨p, hp, -, habove⟩
    exact ⟨p, hp, (List.mem_inits q _).mpr ((prefix_dropLast_iff (hps p hp)).mpr habove)⟩

theorem mem_subdirsOf {ps : List Path} {q : Path} : q ∈ subdirsOf ps ↔ q ∈ dirsOf ps ∧ q ≠ [] := by
  rw [subdirsOf, List.mem_filter, decide_eq_true_iff]

theorem dirsOf_perm (ps : List Path) : List.Perm (dirsOf ps) ([] :: subdirsOf ps) := by
  have hnodup : (dirsOf ps).Nodup := List.nodup_dedup _
  have hnew : ([] :: subdirsOf ps).Nodup :=
    List.nodup_cons.mpr ⟨fun h ↦ (mem_subdirsOf.mp h).2 rfl, hnodup.filter _⟩
  rw [List.perm_ext_iff_of_nodup hnodup hnew]
  intro q
  have hroot : ([] : Path) ∈ dirsOf ps := List.mem_dedup.mpr List.mem_cons_self
  rw [List.mem_cons, mem_subdirsOf]
  by_cases hq : q = []
  · subst hq
    exact iff_of_true hroot (.inl rfl)
  · rw [or_iff_right hq, and_iff_left hq]

mutual

theorem nodup_entries (t : Node) (h : Grown t.child) : (entries t).Nodup := by
  obtain ⟨m, cs⟩ := t
  have hsub := nodup_entriesAll cs h
  rw [entries]
  refine List.nodup_cons.mpr ⟨fun hmem ↦ ?_, hsub.map ?_⟩
  · obtain ⟨x, hx, heq⟩ := List.mem_map.mp hmem
    exact ne_nil_of_mem_entriesAll hx (List.cons.inj (Prod.mk.inj heq).1).2
  · intro x y hxy
    obtain ⟨hpath, hfile⟩ := Prod.mk.inj hxy
    exact Prod.ext (List.cons.inj hpath).2 hfile

theorem nodup_entriesAll (cs : List Node) (h : Grown cs) : (entriesAll cs).Nodup := by
  cases cs with
  | nil => exact List.nodup_nil
  | cons t ts =>
    have hnames := h.names
    rw [List.map_cons, List.nodup_cons] at hnames
    rw [entriesAll, List.nodup_append]
    refine ⟨nodup_entries t (h.sub List.mem_cons_self), nodup_entriesAll ts h.tail, ?_⟩
    rintro ⟨q, k⟩ hx _ hy rfl
    have hts : ∀ c ∈ ts, c.data.name ≠ t.data.name := fun c hc hname ↦
      hnames.1 (List.mem_map.mpr ⟨c, hc, hname⟩)
    rcases mem_entries.mp hx with hx | ⟨z, -, hx⟩
    · rw [hx] at hy
      exact notMem_entriesAll_cons hts hy
    · rw [hx] at hy
      exact notMem_entriesAll_cons hts hy

end

theorem Holds.perm {files : List FileEntry} {cs : List Node} (h : Holds files cs)
    (ht : Taken (files.map (·.path))) :
    List.Perm (entriesAll cs)
      ((subdirsOf (files.map (·.path))).map (fun q ↦ (q, none)) ++
        files.map fun f ↦ (f.path, some f)) := by
  have hne : ∀ p ∈ files.map (·.path), p ≠ [] := fun p hp ↦ (ht.1 p hp).1
  have hdirs : ((subdirsOf (files.map (·.path))).map
      (fun q : Path ↦ (q, (none : Option FileEntry)))).Nodup :=
    ((List.nodup_dedup _).filter _).map fun _ _ heq ↦ (Prod.mk.inj heq).1
  have hfiles : (files.map fun f ↦ (f.path, some f)).Nodup := by
    have hpaths : (files.map (·.path)).Nodup := by
      refine ht.2.imp fun hclash heq ↦ hclash (.inl ?_)
      exact heq ▸ List.prefix_refl _
    exact List.Nodup.of_map Prod.fst (by rwa [List.map_map])
  rw [List.perm_ext_iff_of_nodup (nodup_entriesAll cs h.grown)
    (List.nodup_append.mpr ⟨hdirs, hfiles, ?_⟩)]
  · intro x
    rw [h.mem_iff, List.mem_append, or_comm]
    refine or_congr ?_ ?_
    · rw [List.mem_map]
      constructor
      · rintro ⟨g, hg, q, rfl, habove⟩
        refine ⟨q, mem_subdirsOf.mpr ⟨?_, habove.1⟩, rfl⟩
        exact (mem_dirsOf hne habove.1).mpr ⟨g.path, List.mem_map_of_mem hg, habove⟩
      · rintro ⟨q, hq, rfl⟩
        obtain ⟨hmem, hnil⟩ := mem_subdirsOf.mp hq
        obtain ⟨p, hp, habove⟩ := (mem_dirsOf hne hnil).mp hmem
        obtain ⟨g, hg, rfl⟩ := List.mem_map.mp hp
        exact ⟨g, hg, q, rfl, habove⟩
    · rw [List.mem_map]
      exact exists_congr fun g ↦ and_congr_right fun _ ↦ eq_comm
  · rintro x hx _ hy rfl
    obtain ⟨q, -, rfl⟩ := List.mem_map.mp hx
    obtain ⟨f, -, heq⟩ := List.mem_map.mp hy
    cases (Prod.mk.inj heq).2

end Count

end Libobject.Squashfs
