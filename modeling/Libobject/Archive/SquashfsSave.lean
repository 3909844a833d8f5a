import Libobject.Archive.SquashfsTree

/-!
# What a save writes into its tables

The listings of the directories are checked before they are written, the inodes are not. A save
stays in its tables if the names have room in the rows for their segments and the inodes have room
in their block whenever the listings have room in theirs.
-/

namespace Libobject.Squashfs

open Rose

/-- What the name of a node takes in the listing of its directory. -/
def entryBytes (q : Path) : ℕ := q.getLast?.elim 0 fun s ↦ 8 + s.length

def listingBytes (ps : List Path) : ℕ :=
  ((dirsOf ps).map fun d ↦ 12 + entryBytes d).sum + (ps.map entryBytes).sum

def inodeBytes (files : List FileEntry) : ℕ :=
  32 * (dirsOf (files.map (·.path))).length + (files.map fun f ↦ inodeSize (some f)).sum

section Totals

/-- What the walks do not change. -/
def Meta.key (m : Meta) : Text × Option FileEntry := (m.name, m.file)

/-- What a node adds to the listings. -/
def listingCost (n : (Text × Option FileEntry) × List (Rose (Text × Option FileEntry))) : ℕ :=
  if n.1.2.isSome ∨ n.2 = [] then 0 else 12 + (n.2.map fun c ↦ 8 + c.data.1.length).sum

def listingTotal (t : Node) : ℕ := ((nodes (map Meta.key t)).map listingCost).sum

def inodeTotal (t : Node) : ℕ := ((toList (map Meta.key t)).map fun k ↦ inodeSize k.2).sum

/-- What a node other than the root adds to the listings, its own name with it. -/
def entryWeight (x : Path × Option FileEntry) : ℕ :=
  entryBytes x.1 + if x.2.isSome then 0 else 12

theorem listingCost_mapAll (m : Meta) (cs : List Node) :
    listingCost (m.key, mapAll Meta.key cs) =
      if m.file.isSome ∨ cs = [] then 0 else 12 + (cs.map fun c ↦ 8 + c.data.name.length).sum := by
  have hnames : (mapAll Meta.key cs).map (fun c ↦ 8 + c.data.1.length) =
      cs.map fun c ↦ 8 + c.data.name.length := by
    have hmap := congrArg (List.map fun k ↦ 8 + k.1.length) (map_data_mapAll Meta.key cs)
    rwa [List.map_map, List.map_map] at hmap
  rw [listingCost, hnames]
  exact if_congr (or_congr Iff.rfl (mapAll_eq_nil _)) rfl rfl

theorem entryBytes_cons {s : Text} {q : Path} (hq : q ≠ []) :
    entryBytes (s :: q) = entryBytes q := by
  rw [entryBytes, entryBytes, List.getLast?_cons_of_ne_nil hq]

theorem sum_entryWeight_cons (s : Text) (cs : List Node) :
    (((entriesAll cs).map fun x ↦ (s :: x.1, x.2)).map entryWeight).sum =
      ((entriesAll cs).map entryWeight).sum := by
  rw [List.map_map]
  refine congrArg List.sum (List.map_congr_left fun x hx ↦ ?_)
  rw [Function.comp_apply, entryWeight, entryWeight, entryBytes_cons (ne_nil_of_mem_entriesAll hx)]

mutual

theorem toList_entries (t : Node) :
    (toList (map Meta.key t)).map Prod.snd = (entries t).map Prod.snd := by
  obtain ⟨m, cs⟩ := t
  rw [map, toList, entries, List.map_cons, List.map_cons, toListAll_entriesAll cs, List.map_map]
  rfl

theorem toListAll_entriesAll (cs : List Node) :
    (toListAll (mapAll Meta.key cs)).map Prod.snd = (entriesAll cs).map Prod.snd := by
  cases cs with
  | nil => rfl
  | cons t ts =>
    rw [mapAll, toListAll, entriesAll, List.map_append, List.map_append, toList_entries t,
      toListAll_entriesAll ts]

end

mutual

theorem listing_entries (t : Node) (h : Grown t.child)
    (hkind : t.data.file.isSome ↔ t.child = []) :
    listingTotal t + (8 + t.data.name.length) = ((entries t).map entryWeight).sum := by
  obtain ⟨m, cs⟩ := t
  rw [data_node, child_node] at hkind
  have hsub := listingAll_entriesAll cs h
  have hself : entryWeight ([m.name], m.file) =
      8 + m.name.length + if m.file.isSome then 0 else 12 := rfl
  rw [listingTotal, map, nodes, entries, List.map_cons, List.sum_cons, List.map_cons,
    List.sum_cons, sum_entryWeight_cons, ← hsub, hself, data_node]
  rw [listingCost_mapAll]
  by_cases hfile : m.file.isSome
  · rw [if_pos (.inl hfile), if_pos hfile, hkind.mp hfile, List.map_nil, List.sum_nil]
    omega
  · rw [if_neg (not_or.mpr ⟨hfile, fun hcs ↦ hfile (hkind.mpr hcs)⟩), if_neg hfile]
    omega

theorem listingAll_entriesAll (cs : List Node) (h : Grown cs) :
    ((nodesAll (mapAll Meta.key cs)).map listingCost).sum +
      (cs.map fun c ↦ 8 + c.data.name.length).sum = ((entriesAll cs).map entryWeight).sum := by
  cases cs with
  | nil => rfl
  | cons t ts =>
    have ht := listing_entries t (h.sub List.mem_cons_self) (h.kind List.mem_cons_self)
    have hts := listingAll_entriesAll ts h.tail
    rw [listingTotal] at ht
    rw [mapAll, nodesAll, entriesAll, List.map_append, List.sum_append, List.map_append,
      List.sum_append, List.map_cons, List.sum_cons, ← ht, ← hts]
    omega

end

theorem Holds.totals {files : List FileEntry} {cs : List Node} (h : Holds files cs)
    (ht : Taken (files.map (·.path))) :
    inodeTotal (newNode [] none cs) = inodeBytes files ∧
      (cs ≠ [] → listingTotal (newNode [] none cs) = listingBytes (files.map (·.path))) := by
  have hperm := h.perm ht
  have hdirs := dirsOf_perm (files.map (·.path))
  generalize hps : files.map (·.path) = ps at hperm hdirs
  constructor
  · have hsizes := (hperm.map fun x ↦ inodeSize x.2).sum_eq
    have hlen := hdirs.length_eq
    have hentries := congrArg (fun l ↦ (l.map inodeSize).sum) (toListAll_entriesAll cs)
    have hroot : (((subdirsOf ps).map fun q ↦ (q, (none : Option FileEntry))).map
        fun x ↦ inodeSize x.2).sum = 32 * (subdirsOf ps).length := by
      have hconst : ((subdirsOf ps).map fun _ ↦ 32).sum = (subdirsOf ps).length * 32 := by
        rw [List.map_const', List.sum_replicate_nat]
      rw [List.map_map, Nat.mul_comm]
      exact hconst
    rw [List.map_append, List.sum_append, hroot, List.map_map] at hsizes
    simp only [List.map_map] at hentries
    rw [inodeTotal, newNode, map, toList, List.map_cons, List.sum_cons, inodeBytes, hps, hlen,
      List.length_cons]
    change 32 + ((toListAll (mapAll Meta.key cs)).map (inodeSize ∘ Prod.snd)).sum = _
    rw [hentries]
    change 32 + ((entriesAll cs).map fun x ↦ inodeSize x.2).sum = _
    rw [hsizes]
    change 32 + (_ + (files.map fun f ↦ inodeSize (some f)).sum) = _
    omega
  · intro hcs
    have hcost := listingAll_entriesAll cs h.grown
    have hweights := (hperm.map entryWeight).sum_eq
    have hlist := (hdirs.map fun d ↦ 12 + entryBytes d).sum_eq
    have hd : ((subdirsOf ps).map fun q ↦ (q, (none : Option FileEntry))).map entryWeight =
        (subdirsOf ps).map fun d ↦ 12 + entryBytes d := by
      rw [List.map_map]
      exact List.map_congr_left fun q _ ↦ Nat.add_comm _ 12
    have hf : (files.map fun f ↦ (f.path, some f)).map entryWeight = ps.map entryBytes := by
      rw [← hps, List.map_map, List.map_map]
      rfl
    rw [List.map_append, List.sum_append, hd, hf] at hweights
    rw [List.map_cons, List.sum_cons] at hlist
    rw [listingTotal, newNode, map, nodes, List.map_cons, List.sum_cons, listingCost_mapAll,
      if_neg (by simp [hcs]), listingBytes, hlist]
    have hzero : entryBytes [] = 0 := rfl
    omega

end Totals

section Walks

variable {c c' : Ctx} {ns : List (Meta × List Node)} {ms : List Meta} {r : ℤ}

/-- The size of an inode as the layout counts it. -/
def inodeSpan : Option FileEntry → UInt32
  | none => 32
  | some f => 32 + 4 * f.num_blocks

/-- The inodes stand one behind the other, from `off` on. -/
def Laid : UInt32 → List (UInt32 × Option FileEntry) → Prop
  | _, [] => True
  | off, x :: xs => x.1 = off ∧ Laid (off + inodeSpan x.2) xs

def Meta.place (m : Meta) : UInt32 × Option FileEntry := (m.inode_off, m.file)

theorem layout_visit_spec (parent : Option Meta) (m : Meta) (cs : List Node) (c : Ctx) :
    (layout_visit parent m cs c).2.2 = 0 ∧
      (layout_visit parent m cs c).1.place = (c.inode_off, m.file) ∧
      (layout_visit parent m cs c).2.1.inode_off = c.inode_off + inodeSpan m.file ∧
      (layout_visit parent m cs c).2.1.dir_off = c.dir_off ∧
      (layout_visit parent m cs c).2.1.err = c.err ∧
      (layout_visit parent m cs c).2.1.written = c.written := by
  rw [layout_visit]
  cases m.file with
  | none => exact ⟨rfl, rfl, rfl, rfl, rfl, rfl⟩
  | some f => exact ⟨rfl, rfl, rfl, rfl, rfl, rfl⟩

theorem layout_visit_key (parent : Option Meta) (m : Meta) (cs : List Node) (c : Ctx) :
    (layout_visit parent m cs c).1.key = m.key := by
  rw [layout_visit]
  split <;> rfl

theorem layout_visits (h : Visits layout_visit c ns ms c' r) :
    r = 0 ∧ Laid c.inode_off (ms.map Meta.place) ∧ c'.dir_off = c.dir_off ∧ c'.err = c.err ∧
      c'.written = c.written := by
  induction h with
  | nil s => exact ⟨rfl, trivial, rfl, rfl, rfl⟩
  | @stop parent m m' cs s s' r ns h hr =>
    have hstep := layout_visit_spec parent m cs s
    rw [h] at hstep
    exact absurd hstep.1 hr
  | @cons parent m m' cs s s' s'' r ns ms h _ ih =>
    have hstep := layout_visit_spec parent m cs s
    rw [h] at hstep
    obtain ⟨-, hplace, hoff, hdir', herr', hwritten'⟩ := hstep
    obtain ⟨hr, hlaid, hdir, herr, hwritten⟩ := ih
    rw [hoff] at hlaid
    rw [List.map_cons, hplace]
    exact ⟨hr, ⟨rfl, hlaid⟩, hdir.trans hdir', herr.trans herr', hwritten.trans hwritten'⟩

theorem length_dirEntry (first m : Meta) : (dirEntry first m).length = 8 + m.name.length := by
  simp only [dirEntry, List.length_append, length_leBytes]

theorem length_dirHeader (n : ℕ) (first : Meta) : (dirHeader n first).length = 12 := by
  simp only [dirHeader, List.length_append, length_leBytes]

theorem putEntries_spec (first : Meta) {off cap : ℕ} (hcap : off + cap ≤ 8192) (ns : List Node)
    {len : ℕ} (hlen : len ≤ cap) (c : Ctx) :
    (∃ ws, (putEntries first off cap ns len c).2.written = c.written ++ ws ∧
      ∀ w ∈ ws, w.Fits) ∧
    (putEntries first off cap ns len c).2.dir_off = c.dir_off ∧
    (putEntries first off cap ns len c).2.err = c.err ∧
    (putEntries first off cap ns len c).1 =
      if len + (ns.map fun n ↦ 8 + n.data.name.length).sum ≤ cap then
        some (len + (ns.map fun n ↦ 8 + n.data.name.length).sum)
      else none := by
  induction ns generalizing len c with
  | nil => exact ⟨⟨[], (List.append_nil _).symm, fun _ hw ↦ nomatch hw⟩, rfl, rfl,
      (if_pos hlen).symm⟩
  | cons n ns ih =>
    rw [putEntries, List.map_cons, List.sum_cons]
    by_cases hroom : len + 8 + n.data.name.length > cap
    · rw [if_pos hroom, if_neg (by omega)]
      exact ⟨⟨[], (List.append_nil _).symm, fun _ hw ↦ nomatch hw⟩, rfl, rfl, rfl⟩
    · rw [if_neg hroom]
      obtain ⟨⟨ws, hws, hfits⟩, hoff, herr, hres⟩ := ih (Nat.le_of_not_lt hroom)
        (c.write ⟨.dirs, off + len, 8 + n.data.name.length, dirEntry first n.data⟩)
      refine ⟨⟨_ :: ws, hws.trans (List.append_assoc _ [_] ws), ?_⟩, hoff, herr, ?_⟩
      · rw [List.forall_mem_cons]
        refine ⟨⟨length_dirEntry first n.data, ?_⟩, hfits⟩
        change off + len + (8 + n.data.name.length) ≤ 8192
        omega
      · rw [hres]
        have hsum : len + 8 + n.data.name.length + (ns.map fun n ↦ 8 + n.data.name.length).sum =
            len + (8 + n.data.name.length + (ns.map fun n ↦ 8 + n.data.name.length).sum) := by
          omega
        rw [hsum]

/-- The state after a visit has more good records, and the visit had room for `cost` or none. -/
def Serialized (c : Ctx) (cost : ℕ) (c' : Ctx) (r : ℤ) : Prop :=
  (∃ ws, c'.written = c.written ++ ws ∧ ∀ w ∈ ws, w.Fits) ∧
    ((r = 0 ∧ c'.err = 0) ∧ c'.dir_off = c.dir_off + cost ∧ c'.dir_off ≤ 8192 ∨
      (r ≠ 0 ∧ c'.err ≠ 0) ∧ 8192 < c.dir_off + cost)

theorem Serialized.skip (hoff : c.dir_off ≤ 8192) (herr : c.err = 0) : Serialized c 0 c 0 :=
  ⟨⟨[], (List.append_nil _).symm, fun _ hw ↦ nomatch hw⟩, .inl ⟨⟨rfl, herr⟩, rfl, hoff⟩⟩

theorem Serialized.trans {k k' : ℕ} {c'' : Ctx} (h : Serialized c k c' 0)
    (h' : Serialized c' k' c'' r) : Serialized c (k + k') c'' r := by
  obtain ⟨⟨ws, hws, hfits⟩, hroom⟩ := h
  obtain ⟨⟨ws', hws', hfits'⟩, hroom'⟩ := h'
  refine ⟨⟨ws ++ ws', ?_, List.forall_mem_append.mpr ⟨hfits, hfits'⟩⟩, ?_⟩
  · rw [hws', hws, List.append_assoc]
  · rcases hroom with ⟨-, hoff, -⟩ | ⟨⟨hne, -⟩, -⟩
    · rw [hoff, Nat.add_assoc] at hroom'
      exact hroom'
    · exact absurd rfl hne

theorem Serialized.extend {k : ℕ} (h : Serialized c k c' r) (k' : ℕ) (hr : r ≠ 0) :
    Serialized c (k + k') c' r := by
  obtain ⟨hwritten, hroom⟩ := h
  refine ⟨hwritten, .inr ?_⟩
  rcases hroom with ⟨⟨hzero, -⟩, -⟩ | ⟨hne, hfull⟩
  · exact absurd hzero hr
  · exact ⟨hne, by omega⟩

theorem serialize_visit_spec (parent : Option Meta) (m : Meta) (cs : List Node)
    (hoff : c.dir_off ≤ 8192) (herr : c.err = 0) :
    Serialized c (listingCost (m.key, mapAll Meta.key cs)) (serialize_visit parent m cs c).2.1
      (serialize_visit parent m cs c).2.2 := by
  have hminus : (-1 : ℤ) ≠ 0 := by decide
  rw [listingCost_mapAll, serialize_visit]
  by_cases hfile : m.file.isSome
  · rw [if_pos hfile, if_pos (.inl hfile)]
    exact .skip hoff herr
  · rw [if_neg hfile]
    cases cs with
    | nil =>
      rw [if_pos (.inr rfl)]
      exact .skip hoff herr
    | cons first cs =>
      rw [if_neg (not_or.mpr ⟨hfile, List.cons_ne_nil _ _⟩)]
      dsimp only
      by_cases hcap : 8192 - c.dir_off < 12
      · rw [if_pos hcap]
        refine ⟨⟨[], (List.append_nil _).symm, fun _ hw ↦ nomatch hw⟩, .inr ⟨?_, by omega⟩⟩
        exact ⟨hminus, hminus⟩
      · rw [if_neg hcap]
        obtain ⟨⟨ws, hws, hfits⟩, hdir, herr', hres⟩ := @putEntries_spec first.data
          c.dir_off (8192 - c.dir_off) (by omega) (first :: cs) 12
          (by omega) (c.write ⟨.dirs, c.dir_off, 12, dirHeader (first :: cs).length first.data⟩)
        generalize hput : putEntries first.data c.dir_off (8192 - c.dir_off) (first :: cs) 12
          (c.write ⟨.dirs, c.dir_off, 12, dirHeader (first :: cs).length first.data⟩) = res
        rw [hput] at hws hdir herr' hres
        obtain ⟨res, c₁⟩ := res
        dsimp only at hws hdir herr' hres
        have hwritten : ∃ ws, c₁.written = c.written ++ ws ∧ ∀ w ∈ ws, w.Fits := by
          refine ⟨_ :: ws, hws.trans (List.append_assoc _ [_] ws), ?_⟩
          rw [List.forall_mem_cons]
          refine ⟨⟨length_dirHeader _ _, ?_⟩, hfits⟩
          change c.dir_off + 12 ≤ 8192
          omega
        split at hres
        · next hroom =>
            subst hres
            refine ⟨hwritten, .inl ⟨⟨rfl, herr'.trans herr⟩, ?_, ?_⟩⟩
            · exact congrArg (· + _) hdir
            · change c₁.dir_off + _ ≤ 8192
              rw [hdir]
              change c.dir_off + _ ≤ 8192
              omega
        · next hfull =>
            subst hres
            exact ⟨hwritten, .inr ⟨⟨hminus, hminus⟩, by omega⟩⟩

theorem serialize_visit_place (parent : Option Meta) (m : Meta) (cs : List Node) (c : Ctx) :
    (serialize_visit parent m cs c).1.place = m.place := by
  rw [serialize_visit]
  split
  · rfl
  · dsimp only
    split
    · rfl
    · split
      · rfl
      · split <;> rfl

theorem serialize_visits (h : Visits serialize_visit c ns ms c' r) (hoff : c.dir_off ≤ 8192)
    (herr : c.err = 0) :
    Serialized c (ns.map fun n ↦ listingCost (n.1.key, mapAll Meta.key n.2)).sum c' r := by
  induction h with
  | nil s => exact .skip hoff herr
  | @stop parent m m' cs s s' r ns h hr =>
    have hstep := serialize_visit_spec parent m cs hoff herr
    rw [h] at hstep
    exact hstep.extend _ hr
  | @cons parent m m' cs s s' s'' r ns ms h _ ih =>
    have hstep := serialize_visit_spec parent m cs hoff herr
    rw [h] at hstep
    rcases hstep.2 with ⟨⟨-, herr'⟩, -, hoff'⟩ | ⟨⟨hne, -⟩, -⟩
    · exact hstep.trans (ih hoff' herr')
    · exact absurd rfl hne

theorem write_fits (m : Meta) (parent : Option Meta) (cs : List Node) :
    (Record.mk .inodes m.inode_off.toNat (inodeSize m.file) (inode parent m cs)).Fits ↔
      m.inode_off.toNat + inodeSize m.file ≤ 8192 := by
  refine and_iff_right_of_imp fun hin ↦ ?_
  change m.inode_off.toNat + inodeSize m.file ≤ 8192 at hin
  change (inode parent m cs).length = inodeSize m.file
  rw [inode]
  cases hfile : m.file with
  | none =>
    simp only [dirInode, inodeHead, List.length_append, length_leBytes, inodeSize]
  | some f =>
    rw [hfile, inodeSize] at hin
    have hlist := f.length_block_list
    have hcount : f.num_blocks.toBitVec.toInt.toNat = f.num_blocks.toNat := by
      rw [BitVec.toInt_eq_toNat_of_lt]
      · rfl
      · change 2 * f.num_blocks.toNat < 2 ^ 32
        omega
    have hblocks : ((f.block_list.take f.num_blocks.toNat).flatMap fun b ↦
        leBytes 4 b.toNat).length = 4 * f.num_blocks.toNat := by
      rw [← hlist, List.take_length, List.length_flatMap]
      simp [Nat.mul_comm]
    simp only [fileInode, inodeHead, hcount, List.length_append, length_leBytes, inodeSize,
      hblocks]

theorem write_visits (h : Visits write_visit c ns ms c' r) :
    ∃ ws, c'.written = c.written ++ ws ∧ ((∀ w ∈ ws, w.Fits) ↔
      ∀ x ∈ ns.map (·.1.place), x.1.toNat + inodeSize x.2 ≤ 8192) := by
  induction h with
  | nil s => exact ⟨[], (List.append_nil _).symm, iff_of_true (fun _ hw ↦ nomatch hw)
      fun x hx ↦ nomatch hx⟩
  | stop ns h hr =>
    rw [write_visit] at h
    exact absurd (Prod.mk.inj (Prod.mk.inj h).2).2.symm hr
  | @cons parent m m' cs s s' s'' r ns ms h _ ih =>
    obtain ⟨ws, hws, hfits⟩ := ih
    have hone := write_fits m parent cs
    have hstep : s'.written = s.written ++
        [Record.mk .inodes m.inode_off.toNat (inodeSize m.file) (inode parent m cs)] := by
      have hwritten := congrArg (fun x ↦ x.2.1.written) h
      rw [← hwritten, write_visit]
      exact (apply_ite Ctx.written _ _ _).trans (ite_self _)
    rw [hstep, List.append_assoc] at hws
    refine ⟨_, hws, ?_⟩
    rw [List.singleton_append, List.forall_mem_cons, List.map_cons, List.forall_mem_cons, hfits,
      hone]
    rfl

theorem toNat_add_inodeSpan {off : UInt32} {file : Option FileEntry}
    (h : off.toNat + inodeSize file ≤ 8192) :
    (off + inodeSpan file).toNat = off.toNat + inodeSize file := by
  have hspan : (inodeSpan file).toNat = inodeSize file := by
    cases file with
    | none => rfl
    | some f =>
      rw [inodeSize] at h
      rw [inodeSpan, inodeSize, UInt32.toNat_add, UInt32.toNat_mul]
      change (32 + 4 * f.num_blocks.toNat % 2 ^ 32) % 2 ^ 32 = _
      omega
  rw [UInt32.toNat_add, hspan]
  omega

theorem laid_iff {xs : List (UInt32 × Option FileEntry)} {off : UInt32} (h : Laid off xs)
    (hoff : off.toNat ≤ 8192) :
    (∀ x ∈ xs, x.1.toNat + inodeSize x.2 ≤ 8192) ↔
      off.toNat + (xs.map fun x ↦ inodeSize x.2).sum ≤ 8192 := by
  induction xs generalizing off with
  | nil => exact iff_of_true (fun x hx ↦ nomatch hx) hoff
  | cons x xs ih =>
    obtain ⟨rfl, hlaid⟩ := h
    rw [List.forall_mem_cons, List.map_cons, List.sum_cons]
    by_cases hroom : x.1.toNat + inodeSize x.2 ≤ 8192
    · have hspan := toNat_add_inodeSpan hroom
      rw [and_iff_right hroom, ih hlaid (by omega), hspan, Nat.add_assoc]
    · exact iff_of_false (fun hx ↦ hroom hx.1) (by omega)

theorem walks_fit (root : Node) :
    (∀ w ∈ (walks root Ctx.init).1.written, w.Fits) ↔
      (listingTotal root ≤ 8192 → inodeTotal root ≤ 8192) := by
  obtain ⟨ms₁, hvisits₁, hms₁⟩ := preorder_visits none root Ctx.init
  have hkey₁ : map Meta.key (root.preorder layout_visit none Ctx.init).1 = map Meta.key root :=
    map_preorder layout_visit_key none root Ctx.init
  rw [walks]
  generalize root.preorder layout_visit none Ctx.init = p₁ at hvisits₁ hms₁ hkey₁ ⊢
  obtain ⟨root₁, c₁, r₁⟩ := p₁
  dsimp only at hvisits₁ hms₁ hkey₁ ⊢
  obtain ⟨hr₁, hlaid, hdir₁, herr₁, hwritten₁⟩ := layout_visits hvisits₁
  rw [hms₁ hr₁] at hlaid
  have hinodes : inodeTotal root = inodeTotal root₁ := by rw [inodeTotal, inodeTotal, hkey₁]
  have hlisting : listingTotal root = listingTotal root₁ := by
    rw [listingTotal, listingTotal, hkey₁]
  rw [hinodes, hlisting]
  obtain ⟨ms₂, hvisits₂, -⟩ := preorder_visits none root₁ c₁
  have hplace₂ : map Meta.place (root₁.preorder serialize_visit none c₁).1 =
      map Meta.place root₁ :=
    map_preorder serialize_visit_place none root₁ c₁
  generalize root₁.preorder serialize_visit none c₁ = p₂ at hvisits₂ hplace₂ ⊢
  obtain ⟨root₂, c₂, r₂⟩ := p₂
  dsimp only at hvisits₂ hplace₂ ⊢
  obtain ⟨⟨ws₂, hwritten₂, hfits₂⟩, hroom⟩ :=
    serialize_visits hvisits₂ (hdir₁.trans_le (Nat.zero_le 8192)) herr₁
  have hcost : (nodes root₁).map (fun n ↦ listingCost (n.1.key, mapAll Meta.key n.2)) =
      (nodes (map Meta.key root₁)).map listingCost := by
    rw [nodes_map, List.map_map]
    rfl
  rw [hwritten₁] at hwritten₂
  rw [hdir₁, hcost] at hroom
  change c₂.written = ws₂ at hwritten₂
  rcases hroom with ⟨⟨-, herr₂⟩, hoff₂, hle⟩ | ⟨⟨-, herr₂⟩, hfull⟩
  · rw [if_neg (not_not.mpr herr₂)]
    obtain ⟨ms₃, hvisits₃, -⟩ := preorder_visits none root₂ c₂
    generalize root₂.preorder write_visit none c₂ = p₃ at hvisits₃ ⊢
    obtain ⟨root₃, c₃, r₃⟩ := p₃
    dsimp only at hvisits₃ ⊢
    obtain ⟨ws₃, hwritten₃, hfits₃⟩ := write_visits hvisits₃
    have hplaces : (nodes root₂).map (·.1.place) = (toList root₁).map Meta.place := by
      rw [← toList_map, ← hplace₂, toList_map, ← map_fst_nodes, List.map_map]
      rfl
    have hsizes : inodeTotal root₁ =
        (((toList root₁).map Meta.place).map fun x ↦ inodeSize x.2).sum := by
      rw [inodeTotal, toList_map, List.map_map, List.map_map]
      rfl
    have hall := laid_iff hlaid (Nat.zero_le 8192)
    rw [← hsizes] at hall
    change _ ↔ 0 + inodeTotal root₁ ≤ 8192 at hall
    rw [hplaces, hall, Nat.zero_add] at hfits₃
    have hlast : (if c₃.inode_len > 8192 then (c₃, (-1 : ℤ)) else (c₃, 1)).1.written =
        ws₂ ++ ws₃ := by
      rw [← hwritten₂, ← hwritten₃]
      split <;> rfl
    rw [hlast, List.forall_mem_append, and_iff_right hfits₂, hfits₃]
    have hlist : listingTotal root₁ ≤ 8192 := by
      change c₂.dir_off = 0 + _ at hoff₂
      rw [listingTotal]
      omega
    exact ⟨fun h _ ↦ h, fun h ↦ h hlist⟩
  · rw [if_pos herr₂, hwritten₂]
    refine iff_of_true hfits₂ fun h ↦ ?_
    rw [listingTotal] at h
    change 8192 < 0 + _ at hfull
    omega

end Walks

/-- No name up to the first that is refused has more than 64 segments, and if all names are taken
and the listings have room in the directory block, the inodes have room in theirs. -/
structure Roomy (files : List FileEntry) : Prop where
  rows : ∀ pre f post, files = pre ++ f :: post → Taken (pre.map (·.path)) → f.path.length ≤ 64
  block : Taken (files.map (·.path)) → listingBytes (files.map (·.path)) ≤ 8192 →
    inodeBytes files ≤ 8192

theorem Holds.walks_fit {files : List FileEntry} {cs : List Node} (h : Holds files cs)
    (ht : Taken (files.map (·.path))) :
    (∀ w ∈ (walks (newNode [] none cs) Ctx.init).1.written, w.Fits) ↔
      (listingBytes (files.map (·.path)) ≤ 8192 → inodeBytes files ≤ 8192) := by
  obtain ⟨hinodes, hlisting⟩ := h.totals ht
  rw [Squashfs.walks_fit, hinodes]
  by_cases hcs : cs = []
  · subst hcs
    have hfiles : files = [] := by
      rw [List.eq_nil_iff_forall_not_mem]
      intro g hg
      have hmem := (h.mem_iff (g.path, some g)).mpr (.inl ⟨g, hg, rfl⟩)
      exact nomatch hmem
    subst hfiles
    have hroot : inodeBytes [] ≤ 8192 := by decide
    exact ⟨fun _ _ ↦ hroot, fun _ _ ↦ hroot⟩
  · rw [hlisting hcs]

theorem save_fits_iff (compress : List UInt8 → ℕ → Option (List UInt8)) {sq : Archive}
    (hflag : sq.add_flag = true) : StaysInBounds compress sq ↔ Roomy sq.files := by
  rw [StaysInBounds, save, if_neg (by rw [hflag]; decide)]
  have htaken : Taken (([] : List FileEntry).map (·.path)) := taken_nil
  have hsome := @growAll_isSome [] sq.files [] .nil htaken
  have hrows := @growAll_fits [] sq.files [] .nil htaken
  have hholds cs := @growAll_holds [] sq.files [] .nil htaken cs
  simp only [List.nil_append] at hsome hrows hholds
  have hroomy : Roomy sq.files ↔ (∀ r ∈ (growAll sq.files []).2, r.Fits) ∧
      (Taken (sq.files.map (·.path)) → listingBytes (sq.files.map (·.path)) ≤ 8192 →
        inodeBytes sq.files ≤ 8192) := by
    rw [hrows]
    exact ⟨fun h ↦ ⟨h.rows, h.block⟩, fun h ↦ ⟨h.1, h.2⟩⟩
  rw [hroomy]
  generalize growAll sq.files [] = grown at hsome hholds ⊢
  obtain ⟨root, written⟩ := grown
  dsimp only at hsome hholds ⊢
  cases root with
  | none => exact (and_iff_left fun ht ↦ nomatch hsome.mpr ht).symm
  | some cs =>
    have ht := hsome.mp rfl
    rw [forall_prop_of_true ht, ← (hholds cs rfl).walks_fit ht, ← List.forall_mem_append]
    dsimp only
    split <;> rfl

theorem save_fits_of_not_flag (compress : List UInt8 → ℕ → Option (List UInt8)) {sq : Archive}
    (hflag : sq.add_flag = false) : StaysInBounds compress sq := by
  rw [StaysInBounds, save, if_pos hflag]
  exact fun _ hw ↦ nomatch hw

theorem stays_in_bounds_iff (compress : List UInt8 → ℕ → Option (List UInt8)) (sq : Archive) :
    StaysInBounds compress sq ↔ (sq.add_flag = true → Roomy sq.files) := by
  by_cases hflag : sq.add_flag = true
  · rw [forall_prop_of_true hflag]
    exact save_fits_iff compress hflag
  · exact iff_of_true (save_fits_of_not_flag compress (Bool.not_eq_true _ ▸ hflag))
      fun h ↦ absurd h hflag

/-- A file of 2041 blocks, whose inode is too long for the inode block together with the root's. -/
def hugeFile : FileEntry where
  name := [97]
  size := 2041 * 131072
  block_list := List.replicate 2041 0
  num_blocks := 2041
  pending_size := 96
  length_block_list := List.length_replicate

def newArchive (files : List FileEntry) : Archive := ⟨true, files, 131072, 17, 0, 96, 0, 0, 0⟩

theorem not_stays_in_bounds :
    ¬∀ (compress : List UInt8 → ℕ → Option (List UInt8)) (sq : Archive),
      StaysInBounds compress sq := by
  intro h
  have hbound := h (fun _ _ ↦ none) (newArchive [hugeFile])
  revert hbound
  decide +kernel

end Libobject.Squashfs
