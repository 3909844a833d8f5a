import Libobject.Core.FileSystem
import Mathlib.Algebra.BigOperators.Group.List.Basic
import Mathlib.Algebra.Group.Nat.Defs
import Mathlib.Data.List.Perm.Subperm

/-!
# The walk over a directory tree

`fs_tree` lists a directory, walks over the directories in it, down to a depth, and adds the listing
to a vector. A listing has the entries in the order of the system, which may list the directory
itself and its parent too. `FileSystem.Disk.fs_tree` is the same walk without a limit, over a disk;
here the directories are a tree. The vector's memory is left out.
-/

namespace Libobject.DirectoryWalk

open Scan FileSystem
open Disk (dotted)

/-- The name of an entry, other than those of the directory itself and of its parent. -/
structure Name where
  text : Text
  ne_nil : text ≠ []
  plain : 47 ∉ text
  other : text ≠ [46] ∧ text ≠ [46, 46]

/-- What is listed in a directory. -/
inductive Entry
  | self
  | parent
  | file (name : Name)
  | dir (name : Name) (listing : List Entry)

def Entry.name : Entry → Text
  | self => [46]
  | parent => [46, 46]
  | file name | dir name _ => name.text

/-- The vector, and the directories that were opened. -/
structure State where
  vector : List Text
  opened : List Text

/-! ## The walk -/

def next (depth : ℤ) : ℤ := if 0 < depth then depth - 1 else depth

/-- The paths of `fs_list`. -/
def listed (path : Text) (listing : List Entry) : List Text :=
  listing.map fun e ↦ slash path ++ e.name

/-- `fs_tree` but for its loop. The path with its slash has to fit a buffer of 1024 bytes, and an
`int` has to count the listing. -/
def enter (depth : ℤ) (path : Text) (listing : List Entry) (loop : State → Run State) (s : State) :
    Run (ℤ × State) :=
  if depth = 0 then .ok (0, s)
  else if 1024 ≤ (slash path).length ∨ 2 ^ 31 ≤ listing.length then .error .undefined
  else
    let s := { s with opened := s.opened ++ [path] }
    if listing.length = 2 then .ok (0, s)
    else
      match loop s with
      | .error e => .error e
      | .ok s =>
        let vector := s.vector ++ listed path listing
        .ok ((BitVec.ofNat 32 vector.length).toInt, { s with vector })

mutual

/-- One round of the loop in a listing of `path`. -/
def visit (depth : ℤ) (path : Text) : Entry → State → Run State
  | .self, s | .parent, s | .file _, s => .ok s
  | .dir name listing, s =>
    if dotted (slash path ++ name.text) then .ok s
    else
      match enter depth (slash path ++ name.text) listing
        (visitAll (next depth) (slash path ++ name.text) listing) s with
      | .error e => .error e
      | .ok (ret, s) => if ret < 0 then .error .thrown else .ok s

def visitAll (depth : ℤ) (path : Text) : List Entry → State → Run State
  | [], s => .ok s
  | e :: es, s =>
    match visit depth path e s with
    | .error e => .error e
    | .ok s => visitAll depth path es s

end

def fs_tree (depth : ℤ) (path : Text) (listing : List Entry) (s : State) : Run (ℤ × State) :=
  enter depth path listing (visitAll (next depth) path listing) s

/-! ## What is to be collected -/

mutual

/-- The entries of the tree with their depths. -/
def Entry.entries (k : ℕ) (path : Text) : Entry → List (ℕ × Text)
  | .self | .parent => []
  | .file name => [(k, slash path ++ name.text)]
  | .dir name listing =>
    (k, slash path ++ name.text) :: entriesAll (k + 1) (slash path ++ name.text) listing

def entriesAll (k : ℕ) (path : Text) : List Entry → List (ℕ × Text)
  | [] => []
  | e :: es => e.entries k path ++ entriesAll k path es

end

structure Dir where
  depth : ℕ
  path : Text
  listing : List Entry

mutual

def Entry.dirs (k : ℕ) (path : Text) : Entry → List Dir
  | .self | .parent | .file _ => []
  | .dir name listing =>
    ⟨k, slash path ++ name.text, listing⟩ :: dirsAll (k + 1) (slash path ++ name.text) listing

def dirsAll (k : ℕ) (path : Text) : List Entry → List Dir
  | [] => []
  | e :: es => e.dirs k path ++ dirsAll k path es

end

/-- A depth within the limit; a negative limit is none. -/
def Within (depth : ℤ) (k : ℕ) : Prop := depth < 0 ∨ (k : ℤ) ≤ depth

instance (depth : ℤ) (k : ℕ) : Decidable (Within depth k) := inferInstanceAs (Decidable (_ ∨ _))

/-- The entries within the limit; those of the directory itself have depth 1. -/
def entriesWithin (depth : ℤ) (path : Text) (listing : List Entry) : List Text :=
  ((entriesAll 1 path listing).filter fun x ↦ Within depth x.1).map Prod.snd

/-- The directories whose entries are within the limit. -/
def dirsWithin (depth : ℤ) (path : Text) (listing : List Entry) : List Dir :=
  (⟨0, path, listing⟩ :: dirsAll 1 path listing).filter fun x ↦ Within depth (x.depth + 1)

/-- The last component of a path. -/
def base (p : Text) : Text := (p.reverse.takeWhile fun c ↦ c ≠ 47).reverse

/-- The paths of a directory itself and of its parent, as listings give them. -/
def Dots (p : Text) : Prop := base p = [46] ∨ base p = [46, 46]

instance (p : Text) : Decidable (Dots p) := inferInstanceAs (Decidable (_ ∨ _))

/-- What is collected apart from the directories themselves and their parents. -/
def proper (l : List Text) : List Text := l.filter fun p ↦ ¬ Dots p

/-- Every entry within the limit is collected once, every directory within it is opened once, and
the number of what was collected is returned, whatever was in the vector. -/
def Collects (depth : ℤ) (path : Text) (listing : List Entry) (vector : List Text) : Prop :=
  ∃ new opened, fs_tree depth path listing ⟨vector, []⟩ =
      .ok ((new.length : ℤ), ⟨vector ++ new, opened⟩) ∧
    (proper new).Perm (entriesWithin depth path listing) ∧
    opened.Perm ((dirsWithin depth path listing).map Dir.path)

def Entry.IsMember : Entry → Bool
  | .self | .parent => false
  | .file _ | .dir .. => true

/-- The path fits the buffer and the listing an `int`; a listing of two entries has no file and no
directory. -/
def Dir.Sized (x : Dir) : Prop :=
  (slash x.path).length < 1024 ∧ x.listing.length < 2 ^ 31 ∧
    (x.listing.length = 2 → ∀ e ∈ x.listing, e.IsMember = false)

/-- It is as `fs_tree` needs it, and no name but that of the first directory ends with a dot. -/
def Dir.Fine (x : Dir) : Prop := x.Sized ∧ (x.depth ≠ 0 → dotted x.path = false)

/-- The number of entries that listings of the directories have, but for those with two. -/
def listings (dirs : List Dir) : ℕ :=
  (dirs.map fun x ↦ if x.listing.length = 2 then 0 else x.listing.length).sum

/-- The directories within the limit are fine, and the vector is empty, with an `int` counting what
comes into it, unless the first listing has two entries. -/
def Served (depth : ℤ) (path : Text) (listing : List Entry) (vector : List Text) : Prop :=
  depth = 0 ∨
    (∀ x ∈ dirsWithin depth path listing, x.Fine) ∧
    (listing.length = 2 ∨ vector = [] ∧ listings (dirsWithin depth path listing) < 2 ^ 31)

/-! ## The listings that are within the limit -/

/-- The members of a listing. -/
def members (path : Text) (listing : List Entry) : List Text :=
  listed path (listing.filter Entry.IsMember)

mutual

/-- What is below an entry of a listing, with this depth left. -/
def Entry.beneath (r : ℤ) (path : Text) : Entry → List Text
  | .self | .parent | .file _ => []
  | .dir name listing =>
    if r = 0 then []
    else
      beneathAll (next r) (slash path ++ name.text) listing ++
        members (slash path ++ name.text) listing

def beneathAll (r : ℤ) (path : Text) : List Entry → List Text
  | [] => []
  | e :: es => e.beneath r path ++ beneathAll r path es

end

mutual

def Entry.open (r : ℤ) (k : ℕ) (path : Text) : Entry → List Dir
  | .self | .parent | .file _ => []
  | .dir name listing =>
    if r = 0 then []
    else
      ⟨k, slash path ++ name.text, listing⟩ ::
        openAll (next r) (k + 1) (slash path ++ name.text) listing

def openAll (r : ℤ) (k : ℕ) (path : Text) : List Entry → List Dir
  | [] => []
  | e :: es => e.open r k path ++ openAll r k path es

end

mutual

/-- What the code collects below an entry if nothing goes wrong. -/
def Entry.collected (r : ℤ) (path : Text) : Entry → List Text
  | .self | .parent | .file _ => []
  | .dir name listing =>
    if r = 0 ∨ listing.length = 2 then []
    else
      collectedAll (next r) (slash path ++ name.text) listing ++
        listed (slash path ++ name.text) listing

def collectedAll (r : ℤ) (path : Text) : List Entry → List Text
  | [] => []
  | e :: es => e.collected r path ++ collectedAll r path es

end

theorem base_append {p s : Text} (hs : 47 ∉ s) (hp : p.getLast? = some 47) : base (p ++ s) = s := by
  obtain ⟨q, rfl⟩ := List.getLast?_eq_some_iff.mp hp
  have hrev : ∀ c ∈ s.reverse, decide (c ≠ 47) = true :=
    fun c hc ↦ decide_eq_true fun heq ↦ hs (heq ▸ List.mem_reverse.mp hc)
  have htake : ((q ++ [47]).reverse).takeWhile (fun c ↦ decide (c ≠ 47)) = [] := by
    rw [List.reverse_append]
    rfl
  rw [base, List.reverse_append, List.takeWhile_append_of_pos hrev, htake, List.append_nil,
    List.reverse_reverse]

theorem getLast?_slash (p : Text) : (slash p).getLast? = some 47 := by
  rw [slash]
  split
  · assumption
  · exact List.getLast?_concat

theorem base_listed (path : Text) (e : Entry) : base (slash path ++ e.name) = e.name := by
  refine base_append ?_ (getLast?_slash path)
  cases e with
  | self => decide
  | parent => decide
  | file name => exact name.plain
  | dir name listing => exact name.plain

theorem proper_listed (path : Text) (listing : List Entry) :
    proper (listed path listing) = members path listing := by
  rw [proper, listed, members, listed, List.filter_map]
  congr 1
  refine List.filter_congr fun e _ ↦ ?_
  rw [Function.comp_apply, Bool.eq_iff_iff, decide_eq_true_iff]
  have hdots : Dots (slash path ++ e.name) ↔ e.name = [46] ∨ e.name = [46, 46] := by
    rw [Dots, base_listed]
  rw [hdots]
  cases e with
  | self => exact iff_of_false (fun h ↦ h (.inl rfl)) Bool.false_ne_true
  | parent => exact iff_of_false (fun h ↦ h (.inr rfl)) Bool.false_ne_true
  | file name => exact iff_of_true (not_or.mpr name.other) rfl
  | dir name listing => exact iff_of_true (not_or.mpr name.other) rfl

theorem proper_append (l m : List Text) : proper (l ++ m) = proper l ++ proper m :=
  List.filter_append ..

/-! ## What the walk has done -/

/-- From one state to another no more was collected and opened than there is, and only if
everything was, all directories are fine; then what was collected is known. -/
def Went (below : List Text) (dirs : List Dir) (collected : List Text) (s s' : State) : Prop :=
  ∃ new opened, s' = ⟨s.vector ++ new, s.opened ++ opened⟩ ∧
    (proper new).length ≤ below.length ∧ opened.length ≤ dirs.length ∧
    ((proper new).length = below.length → opened.length = dirs.length → ∀ x ∈ dirs, x.Fine) ∧
    ((∀ x ∈ dirs, x.Fine) → new = collected ∧ opened = dirs.map Dir.path)

theorem Went.refl (s : State) : Went [] [] [] s s :=
  ⟨[], [], by simp, le_rfl, le_rfl, fun _ _ _ hx ↦ absurd hx List.not_mem_nil, fun _ ↦ ⟨rfl, rfl⟩⟩

theorem Went.trans {below₁ below₂ collected₁ collected₂ : List Text} {dirs₁ dirs₂ : List Dir}
    {s s' s'' : State} (h₁ : Went below₁ dirs₁ collected₁ s s')
    (h₂ : Went below₂ dirs₂ collected₂ s' s'') :
    Went (below₁ ++ below₂) (dirs₁ ++ dirs₂) (collected₁ ++ collected₂) s s'' := by
  obtain ⟨new₁, opened₁, rfl, hnew₁, hopened₁, hfine₁, hall₁⟩ := h₁
  obtain ⟨new₂, opened₂, rfl, hnew₂, hopened₂, hfine₂, hall₂⟩ := h₂
  refine ⟨new₁ ++ new₂, opened₁ ++ opened₂, by simp only [List.append_assoc], ?_, ?_, ?_, ?_⟩
  · rw [proper_append, List.length_append, List.length_append]
    exact Nat.add_le_add hnew₁ hnew₂
  · rw [List.length_append, List.length_append]
    exact Nat.add_le_add hopened₁ hopened₂
  · rw [proper_append, List.length_append, List.length_append, List.length_append,
      List.length_append]
    intro hnew hopened x hx
    rcases List.mem_append.mp hx with hx | hx
    · exact hfine₁ (by omega) (by omega) x hx
    · exact hfine₂ (by omega) (by omega) x hx
  · intro hall
    rw [List.forall_mem_append] at hall
    obtain ⟨rfl, rfl⟩ := hall₁ hall.1
    obtain ⟨rfl, rfl⟩ := hall₂ hall.2
    exact ⟨rfl, List.map_append.symm⟩

theorem Went.missed {below : List Text} {dirs : List Dir} {collected : List Text} (hne : dirs ≠ [])
    (hnot : ¬ ∀ x ∈ dirs, x.Fine) (s : State) : Went below dirs collected s s := by
  refine ⟨[], [], by simp, Nat.zero_le _, Nat.zero_le _, fun _ hlen ↦ ?_, fun h ↦ absurd h hnot⟩
  exact absurd (List.length_eq_zero_iff.mp hlen.symm) hne

theorem members_eq_nil_iff {path : Text} {listing : List Entry} :
    members path listing = [] ↔ ∀ e ∈ listing, e.IsMember = false := by
  rw [members, listed, List.map_eq_nil_iff, List.filter_eq_nil_iff]
  exact forall₂_congr fun e _ ↦ Bool.eq_false_iff.symm

theorem Entry.beneath_of_not_member (r : ℤ) (k : ℕ) (path : Text) : ∀ e : Entry,
    e.IsMember = false → e.beneath r path = [] ∧ e.open r k path = [] ∧ e.collected r path = []
  | .self, _ => ⟨rfl, rfl, rfl⟩
  | .parent, _ => ⟨rfl, rfl, rfl⟩
  | .file _, h => by cases h
  | .dir _ _, h => by cases h

theorem beneathAll_of_not_member (r : ℤ) (k : ℕ) (path : Text) {es : List Entry}
    (h : ∀ e ∈ es, e.IsMember = false) :
    beneathAll r path es = [] ∧ openAll r k path es = [] ∧ collectedAll r path es = [] := by
  induction es with
  | nil => exact ⟨rfl, rfl, rfl⟩
  | cons e es ih =>
    rw [List.forall_mem_cons] at h
    obtain ⟨hbeneath, hopen, hcollected⟩ := e.beneath_of_not_member r k path h.1
    obtain ⟨hbeneath', hopen', hcollected'⟩ := ih h.2
    rw [beneathAll, openAll, collectedAll, hbeneath, hopen, hcollected, hbeneath', hopen',
      hcollected']
    exact ⟨rfl, rfl, rfl⟩

theorem enter_went {depth : ℤ} {path : Text} {listing : List Entry} {loop : State → Run State}
    {s s' : State} {ret : ℤ} {k : ℕ} (hdepth : depth ≠ 0)
    (hloop : ∀ s s', loop s = .ok s' → Went (beneathAll (next depth) path listing)
      (openAll (next depth) (k + 1) path listing) (collectedAll (next depth) path listing) s s')
    (h : enter depth path listing loop s = .ok (ret, s')) (hdot : k ≠ 0 → dotted path = false) :
    Went (beneathAll (next depth) path listing ++ members path listing)
      (⟨k, path, listing⟩ :: openAll (next depth) (k + 1) path listing)
      (if listing.length = 2 then []
        else collectedAll (next depth) path listing ++ listed path listing) s s' := by
  rw [enter, if_neg hdepth] at h
  split at h
  · cases h
  next hsize =>
  obtain ⟨hpath, hlisting⟩ := not_or.mp hsize
  split at h
  · next htwo =>
    cases h
    rw [if_pos htwo]
    refine ⟨[], [path], by simp, Nat.zero_le _, Nat.le_add_left _ _, fun hnew _ ↦ ?_, fun hall ↦ ?_⟩
    · have hbelow := List.append_eq_nil_iff.mp (List.length_eq_zero_iff.mp hnew.symm)
      have hmember := members_eq_nil_iff.mp hbelow.2
      intro x hx
      rw [(beneathAll_of_not_member (next depth) (k + 1) path hmember).2.1,
        List.mem_singleton] at hx
      rw [hx]
      exact ⟨⟨not_le.mp hpath, not_le.mp hlisting, fun _ ↦ hmember⟩, hdot⟩
    · have hmember := (hall _ List.mem_cons_self).1.2.2 htwo
      rw [(beneathAll_of_not_member (next depth) (k + 1) path hmember).2.1]
      exact ⟨rfl, rfl⟩
  · next htwo =>
    dsimp only at h
    split at h
    · cases h
    next s₁ hrun =>
    cases h
    rw [if_neg htwo]
    obtain ⟨new, opened, rfl, hnew, hopened, hfine, hall⟩ := hloop _ _ hrun
    refine ⟨new ++ listed path listing, path :: opened, ?_, ?_, ?_, ?_, ?_⟩
    · simp only [List.append_assoc, List.singleton_append]
    · rw [proper_append, proper_listed, List.length_append, List.length_append]
      exact Nat.add_le_add_right hnew _
    · exact Nat.succ_le_succ hopened
    · rw [proper_append, proper_listed, List.length_append, List.length_append, List.length_cons,
        List.length_cons]
      intro hlen hlen' x hx
      rcases List.mem_cons.mp hx with rfl | hx
      · exact ⟨⟨not_le.mp hpath, not_le.mp hlisting, fun heq ↦ absurd heq htwo⟩, hdot⟩
      · exact hfine (by omega) (by omega) x hx
    · intro h
      rw [List.forall_mem_cons] at h
      obtain ⟨rfl, rfl⟩ := hall h.2
      exact ⟨rfl, rfl⟩

mutual

theorem visit_went (r : ℤ) {k : ℕ} (hk : k ≠ 0) (path : Text) : ∀ (e : Entry) (s s' : State),
    visit r path e s = .ok s' → Went (e.beneath r path) (e.open r k path) (e.collected r path) s s'
  | .self, s, s', h => by
    cases h
    exact Went.refl s
  | .parent, s, s', h => by
    cases h
    exact Went.refl s
  | .file _, s, s', h => by
    cases h
    exact Went.refl s
  | .dir name listing, s, s', h => by
    rw [visit] at h
    rw [Entry.beneath, Entry.open, Entry.collected]
    by_cases hr : r = 0
    · rw [if_pos hr, if_pos hr, if_pos (.inl hr)]
      split at h
      · cases h
        exact Went.refl s
      · rw [enter, if_pos hr] at h
        cases h
        exact Went.refl s
    rw [if_neg hr, if_neg hr, if_congr (or_iff_right hr) rfl rfl]
    split at h
    · next hdot =>
      cases h
      refine Went.missed (List.cons_ne_nil _ _) (fun hall ↦ ?_) s
      exact absurd hdot (Bool.eq_false_iff.mp ((hall _ List.mem_cons_self).2 hk))
    · next hdot =>
      split at h
      · cases h
      next ret s₁ hrun =>
      split at h
      · cases h
      cases h
      exact enter_went hr
        (visitAll_went (next r) k.succ_ne_zero (slash path ++ name.text) listing) hrun
        fun _ ↦ Bool.eq_false_iff.mpr hdot

theorem visitAll_went (r : ℤ) {k : ℕ} (hk : k ≠ 0) (path : Text) :
    ∀ (es : List Entry) (s s' : State),
    visitAll r path es s = .ok s' →
      Went (beneathAll r path es) (openAll r k path es) (collectedAll r path es) s s'
  | [], s, s', h => by
    cases h
    exact Went.refl s
  | e :: es, s, s', h => by
    rw [visitAll] at h
    split at h
    · cases h
    next s₁ hrun =>
    exact (visit_went r hk path e s s₁ hrun).trans (visitAll_went r hk path es s₁ s' h)

end

/-! ## The walk where nothing goes wrong -/

theorem count_eq {n : ℕ} (h : n < 2 ^ 31) : (BitVec.ofNat 32 n).toInt = n := by
  rw [BitVec.toInt_ofNat']
  exact Int.bmod_eq_of_le (by omega) (by omega)

theorem enter_ok {depth : ℤ} {path : Text} {listing : List Entry} {loop : State → Run State}
    {s : State} {k : ℕ} (hdepth : depth ≠ 0) (hsized : Dir.Sized ⟨k, path, listing⟩)
    {new opened : List Text}
    (hloop : loop ⟨s.vector, s.opened ++ [path]⟩ =
      .ok ⟨s.vector ++ new, (s.opened ++ [path]) ++ opened⟩)
    (hempty : listing.length = 2 → opened = []) :
    enter depth path listing loop s =
      .ok (if listing.length = 2 then 0
          else (BitVec.ofNat 32 (s.vector ++ (new ++ listed path listing)).length).toInt,
        ⟨s.vector ++ (if listing.length = 2 then [] else new ++ listed path listing),
          s.opened ++ (path :: opened)⟩) := by
  rw [enter, if_neg hdepth, if_neg (not_or.mpr ⟨not_le.mpr hsized.1, not_le.mpr hsized.2.1⟩)]
  dsimp only
  split
  · next htwo => rw [hempty htwo, List.append_nil]
  · next htwo =>
    rw [hloop]
    simp only [List.append_assoc, List.singleton_append]

mutual

theorem visit_ok (r : ℤ) {k : ℕ} (hk : k ≠ 0) (path : Text) : ∀ (e : Entry) (s : State),
    (∀ x ∈ e.open r k path, x.Fine) → s.vector.length + (e.collected r path).length < 2 ^ 31 →
      visit r path e s =
        .ok ⟨s.vector ++ e.collected r path, s.opened ++ (e.open r k path).map Dir.path⟩
  | .self, s, _, _ => by simp [visit, Entry.collected, Entry.open]
  | .parent, s, _, _ => by simp [visit, Entry.collected, Entry.open]
  | .file _, s, _, _ => by simp [visit, Entry.collected, Entry.open]
  | .dir name listing, s, hfine, hlen => by
    rw [visit]
    rw [Entry.open] at hfine ⊢
    rw [Entry.collected] at hlen ⊢
    by_cases hr : r = 0
    · have hnone : r = 0 ∨ listing.length = 2 := .inl hr
      rw [if_pos hr, if_pos hnone, List.map_nil, List.append_nil, List.append_nil]
      split
      · rfl
      · rw [enter, if_pos hr]
        rfl
    rw [if_neg hr] at hfine ⊢
    rw [if_congr (or_iff_right hr) rfl rfl] at hlen ⊢
    obtain ⟨⟨hsized, hdot⟩, hbelow⟩ := List.forall_mem_cons.mp hfine
    rw [if_neg (Bool.eq_false_iff.mp (hdot hk))]
    have hempty (htwo : listing.length = 2) : ∀ e ∈ listing, e.IsMember = false := hsized.2.2 htwo
    have hloop := visitAll_ok (next r) k.succ_ne_zero (slash path ++ name.text) listing
      ⟨s.vector, s.opened ++ [slash path ++ name.text]⟩ hbelow
      (by
        by_cases htwo : listing.length = 2
        · rw [(beneathAll_of_not_member (next r) (k + 1) _ (hempty htwo)).2.2]
          rw [if_pos htwo] at hlen
          exact hlen
        · rw [if_neg htwo, List.length_append] at hlen
          exact lt_of_le_of_lt (Nat.add_le_add_left (Nat.le_add_right _ _) _) hlen)
    rw [enter_ok hr hsized hloop fun htwo ↦ by
      rw [(beneathAll_of_not_member (next r) (k + 1) _ (hempty htwo)).2.1]
      rfl]
    dsimp only
    rw [if_neg]
    · rfl
    · split
      · exact lt_irrefl 0
      · next htwo =>
        rw [if_neg htwo] at hlen
        rw [count_eq (by rw [List.length_append]; exact hlen)]
        omega

theorem visitAll_ok (r : ℤ) {k : ℕ} (hk : k ≠ 0) (path : Text) : ∀ (es : List Entry) (s : State),
    (∀ x ∈ openAll r k path es, x.Fine) →
      s.vector.length + (collectedAll r path es).length < 2 ^ 31 →
        visitAll r path es s =
          .ok ⟨s.vector ++ collectedAll r path es, s.opened ++ (openAll r k path es).map Dir.path⟩
  | [], s, _, _ => by simp [visitAll, collectedAll, openAll]
  | e :: es, s, hfine, hlen => by
    rw [openAll] at hfine ⊢
    rw [collectedAll, List.length_append] at hlen
    rw [List.forall_mem_append] at hfine
    rw [visitAll, visit_ok r hk path e s hfine.1 (by omega)]
    dsimp only
    rw [visitAll_ok r hk path es _ hfine.2 (by rw [List.length_append]; omega), collectedAll,
      List.map_append, List.append_assoc, List.append_assoc]

end

mutual

theorem Entry.proper_collected (r : ℤ) (k : ℕ) (path : Text) : ∀ e : Entry,
    (∀ x ∈ e.open r k path, x.Fine) → proper (e.collected r path) = e.beneath r path
  | .self, _ => rfl
  | .parent, _ => rfl
  | .file _, _ => rfl
  | .dir name listing, hfine => by
    rw [Entry.open] at hfine
    rw [Entry.collected, Entry.beneath]
    by_cases hr : r = 0
    · rw [if_pos hr, if_pos (.inl hr)]
      rfl
    rw [if_neg hr] at hfine ⊢
    obtain ⟨⟨hsized, -⟩, hbelow⟩ := List.forall_mem_cons.mp hfine
    by_cases htwo : listing.length = 2
    · have hmember := hsized.2.2 htwo
      rw [if_pos (.inr htwo), (beneathAll_of_not_member _ (k + 1) _ hmember).1,
        members_eq_nil_iff.mpr hmember]
      rfl
    · rw [if_neg (not_or.mpr ⟨hr, htwo⟩), proper_append, proper_listed,
        proper_collectedAll (next r) (k + 1) _ listing hbelow]

theorem proper_collectedAll (r : ℤ) (k : ℕ) (path : Text) : ∀ es : List Entry,
    (∀ x ∈ openAll r k path es, x.Fine) → proper (collectedAll r path es) = beneathAll r path es
  | [], _ => rfl
  | e :: es, hfine => by
    rw [openAll, List.forall_mem_append] at hfine
    rw [collectedAll, beneathAll, proper_append, e.proper_collected r k path hfine.1,
      proper_collectedAll r k path es hfine.2]

end

/-! ## Depths -/

/-- In a listing whose entries have depth `k`, the depth `r` is left. -/
def Left (depth : ℤ) (k : ℕ) (r : ℤ) : Prop :=
  depth < 0 ∧ r = depth ∨ (k : ℤ) ≤ depth ∧ r = depth - k

theorem Left.within {depth r : ℤ} {k : ℕ} (h : Left depth k r) : Within depth k :=
  h.imp And.left And.left

theorem Left.next {depth r : ℤ} {k : ℕ} (h : Left depth k r) (hr : r ≠ 0) :
    Left depth (k + 1) (next r) := by
  rw [DirectoryWalk.next]
  rcases h with ⟨hneg, rfl⟩ | ⟨hle, rfl⟩
  · exact .inl ⟨hneg, if_neg (by omega)⟩
  · rw [if_pos (by omega)]
    exact .inr ⟨by omega, by omega⟩

theorem Left.beyond {depth : ℤ} {k : ℕ} (h : Left depth k 0) {j : ℕ} (hj : k < j) :
    ¬ Within depth j := by
  rw [Within]
  rcases h with ⟨hneg, hzero⟩ | ⟨hle, hzero⟩ <;> omega

mutual

theorem Entry.le_depth (k : ℕ) (path : Text) : ∀ e : Entry,
    (∀ x ∈ e.entries k path, k ≤ x.1) ∧ ∀ x ∈ e.dirs k path, k ≤ x.depth
  | .self => ⟨fun _ hx ↦ absurd hx List.not_mem_nil, fun _ hx ↦ absurd hx List.not_mem_nil⟩
  | .parent => ⟨fun _ hx ↦ absurd hx List.not_mem_nil, fun _ hx ↦ absurd hx List.not_mem_nil⟩
  | .file _ =>
    ⟨fun _ hx ↦ (List.mem_singleton.mp hx).symm ▸ le_rfl, fun _ hx ↦ absurd hx List.not_mem_nil⟩
  | .dir name listing => by
    obtain ⟨hentries, hdirs⟩ := le_depthAll (k + 1) (slash path ++ name.text) listing
    rw [Entry.entries, Entry.dirs, List.forall_mem_cons, List.forall_mem_cons]
    exact ⟨⟨le_rfl, fun x hx ↦ (Nat.le_succ k).trans (hentries x hx)⟩,
      le_rfl, fun x hx ↦ (Nat.le_succ k).trans (hdirs x hx)⟩

theorem le_depthAll (k : ℕ) (path : Text) : ∀ es : List Entry,
    (∀ x ∈ entriesAll k path es, k ≤ x.1) ∧ ∀ x ∈ dirsAll k path es, k ≤ x.depth
  | [] => ⟨fun _ hx ↦ absurd hx List.not_mem_nil, fun _ hx ↦ absurd hx List.not_mem_nil⟩
  | e :: es => by
    obtain ⟨hentries, hdirs⟩ := e.le_depth k path
    obtain ⟨hentries', hdirs'⟩ := le_depthAll k path es
    rw [entriesAll, dirsAll, List.forall_mem_append, List.forall_mem_append]
    exact ⟨⟨hentries, hentries'⟩, hdirs, hdirs'⟩

end

theorem members_cons (path : Text) (e : Entry) (es : List Entry) :
    members path (e :: es) =
      (if e.IsMember then [slash path ++ e.name] else []) ++ members path es := by
  rw [members, List.filter_cons]
  split <;> rfl

mutual

theorem Entry.entries_filter {depth r : ℤ} {k : ℕ} (h : Left depth k r) (path : Text) :
    ∀ e : Entry, (((e.entries k path).filter fun x ↦ Within depth x.1).map Prod.snd).Perm
      ((if e.IsMember then [slash path ++ e.name] else []) ++ e.beneath r path)
  | .self => .nil
  | .parent => .nil
  | .file name => by
    rw [Entry.entries, List.filter_singleton, decide_eq_true h.within]
    exact .refl _
  | .dir name listing => by
    rw [Entry.entries, List.filter_cons, if_pos (decide_eq_true h.within), Entry.beneath]
    refine List.Perm.cons _ ?_
    by_cases hr : r = 0
    · subst hr
      rw [if_pos rfl, List.filter_eq_nil_iff.mpr fun x hx ↦ ?_]
      · exact .nil
      · have hdepth := (le_depthAll (k + 1) (slash path ++ name.text) listing).1 x hx
        simpa using h.beyond (Nat.lt_of_succ_le hdepth)
    · rw [if_neg hr]
      exact (entriesAll_filter (h.next hr) (slash path ++ name.text) listing).trans
        List.perm_append_comm

theorem entriesAll_filter {depth r : ℤ} {k : ℕ} (h : Left depth k r) (path : Text) :
    ∀ es : List Entry, (((entriesAll k path es).filter fun x ↦ Within depth x.1).map Prod.snd).Perm
      (members path es ++ beneathAll r path es)
  | [] => .nil
  | e :: es => by
    rw [entriesAll, List.filter_append, List.map_append, members_cons, beneathAll]
    refine ((e.entries_filter h path).append (entriesAll_filter h path es)).trans ?_
    rw [List.append_assoc, List.append_assoc]
    refine List.Perm.append_left _ ?_
    rw [← List.append_assoc, ← List.append_assoc]
    exact List.perm_append_comm.append_right _

end

mutual

theorem Entry.dirs_filter {depth r : ℤ} {k : ℕ} (h : Left depth k r) (path : Text) :
    ∀ e : Entry, ((e.dirs k path).filter fun x ↦ Within depth (x.depth + 1)) = e.open r k path
  | .self => rfl
  | .parent => rfl
  | .file _ => rfl
  | .dir name listing => by
    rw [Entry.dirs, Entry.open]
    by_cases hr : r = 0
    · subst hr
      rw [if_pos rfl, List.filter_eq_nil_iff]
      intro x hx
      have hdepth : k ≤ x.depth :=
        ((Entry.dir name listing).le_depth k path).2 x (by rw [Entry.dirs]; exact hx)
      simpa using h.beyond (Nat.lt_succ_of_le hdepth)
    · have hnext := h.next hr
      rw [if_neg hr, List.filter_cons, if_pos (decide_eq_true hnext.within),
        dirsAll_filter hnext (slash path ++ name.text) listing]

theorem dirsAll_filter {depth r : ℤ} {k : ℕ} (h : Left depth k r) (path : Text) :
    ∀ es : List Entry,
      ((dirsAll k path es).filter fun x ↦ Within depth (x.depth + 1)) = openAll r k path es
  | [] => rfl
  | e :: es => by
    rw [dirsAll, List.filter_append, openAll, e.dirs_filter h path, dirsAll_filter h path es]

end

mutual

theorem Entry.length_collected (r : ℤ) (k : ℕ) (path : Text) : ∀ e : Entry,
    (∀ x ∈ e.open r k path, x.Fine) → (e.collected r path).length = listings (e.open r k path)
  | .self, _ => rfl
  | .parent, _ => rfl
  | .file _, _ => rfl
  | .dir name listing, hfine => by
    rw [Entry.open] at hfine ⊢
    rw [Entry.collected]
    by_cases hr : r = 0
    · have hnone : r = 0 ∨ listing.length = 2 := .inl hr
      rw [if_pos hr, if_pos hnone]
      rfl
    rw [if_neg hr] at hfine ⊢
    obtain ⟨⟨hsized, -⟩, hbelow⟩ := List.forall_mem_cons.mp hfine
    rw [listings, List.map_cons, List.sum_cons]
    by_cases htwo : listing.length = 2
    · rw [if_pos (.inr htwo), if_pos htwo,
        (beneathAll_of_not_member _ (k + 1) _ (hsized.2.2 htwo)).2.1]
      rfl
    · rw [if_neg (not_or.mpr ⟨hr, htwo⟩), if_neg htwo, List.length_append,
        length_collectedAll (next r) (k + 1) _ listing hbelow, listed, List.length_map, add_comm]
      rfl

theorem length_collectedAll (r : ℤ) (k : ℕ) (path : Text) : ∀ es : List Entry,
    (∀ x ∈ openAll r k path es, x.Fine) →
      (collectedAll r path es).length = listings (openAll r k path es)
  | [], _ => rfl
  | e :: es, hfine => by
    rw [openAll, List.forall_mem_append] at hfine
    rw [collectedAll, openAll, List.length_append, listings, List.map_append, List.sum_append,
      e.length_collected r k path hfine.1, length_collectedAll r k path es hfine.2]
    rfl

end

/-! ## The whole walk -/

section Whole

variable {depth : ℤ} (hdepth : depth ≠ 0) (path : Text) (listing : List Entry)

include hdepth

theorem left_next : Left depth 1 (next depth) := by
  rw [next]
  rcases lt_or_gt_of_ne hdepth with hneg | hpos
  · exact .inl ⟨hneg, if_neg hneg.not_gt⟩
  · rw [if_pos hpos]
    exact .inr ⟨by omega, by omega⟩

theorem entriesWithin_perm : (entriesWithin depth path listing).Perm
    (beneathAll (next depth) path listing ++ members path listing) :=
  (entriesAll_filter (left_next hdepth) path listing).trans List.perm_append_comm

theorem dirsWithin_eq : dirsWithin depth path listing =
    ⟨0, path, listing⟩ :: openAll (next depth) 1 path listing := by
  have hleft := left_next hdepth
  rw [dirsWithin, List.filter_cons, if_pos (decide_eq_true hleft.within), dirsAll_filter hleft]

end Whole

theorem collects_zero (path : Text) (listing : List Entry) (vector : List Text) :
    Collects 0 path listing vector := by
  have hwithin (k : ℕ) : ¬ Within 0 (k + 1) := by
    rw [Within]
    omega
  refine ⟨[], [], ?_, ?_, ?_⟩
  · rw [fs_tree, enter, if_pos rfl, List.append_nil]
    rfl
  · rw [entriesWithin, List.filter_eq_nil_iff.mpr fun x hx ↦ ?_]
    · exact .nil
    · obtain ⟨k, hk⟩ := Nat.exists_eq_add_of_le' ((le_depthAll 1 path listing).1 x hx)
      rw [hk]
      simpa using hwithin k
  · rw [dirsWithin, List.filter_eq_nil_iff.mpr fun x _ ↦ by simpa using hwithin x.depth]
    exact .nil

theorem enter_ret {depth : ℤ} {path : Text} {listing : List Entry} {loop : State → Run State}
    {s s' : State} {ret : ℤ} (hdepth : depth ≠ 0) (htwo : listing.length ≠ 2)
    (h : enter depth path listing loop s = .ok (ret, s')) :
    ret = (BitVec.ofNat 32 s'.vector.length).toInt := by
  rw [enter, if_neg hdepth] at h
  split at h
  · cases h
  dsimp only at h
  split at h
  · cases h
  · cases h
    rfl

theorem eq_zero_of_count {v n : ℕ} (hv : v < 2 ^ 32)
    (h : (n : ℤ) = (BitVec.ofNat 32 (v + n)).toInt) : v = 0 ∧ n < 2 ^ 31 := by
  rw [BitVec.toInt_ofNat', Int.bmod_def] at h
  split at h <;> omega

theorem listings_dirsWithin {depth : ℤ} (hdepth : depth ≠ 0) (path : Text) {listing : List Entry}
    (htwo : listing.length ≠ 2) (hfine : ∀ x ∈ openAll (next depth) 1 path listing, x.Fine) :
    listings (dirsWithin depth path listing) =
      (collectedAll (next depth) path listing ++ listed path listing).length := by
  rw [dirsWithin_eq hdepth, listings, List.map_cons, List.sum_cons, if_neg htwo, List.length_append,
    length_collectedAll _ 1 path listing hfine, listed, List.length_map, add_comm]
  rfl

theorem Collects.served {depth : ℤ} {path : Text} {listing : List Entry} {vector : List Text}
    (h : Collects depth path listing vector) (hvector : vector.length < 2 ^ 32) :
    Served depth path listing vector := by
  by_cases hdepth : depth = 0
  · exact .inl hdepth
  have hdirs := dirsWithin_eq hdepth path listing
  obtain ⟨new, opened, hrun, hnew, hopened⟩ := h
  obtain ⟨new', opened', hstate, -, -, hfine, hall⟩ := enter_went (k := 0) hdepth
    (visitAll_went (next depth) one_ne_zero path listing) hrun (fun h ↦ absurd rfl h)
  obtain ⟨rfl, rfl⟩ : new = new' ∧ opened = opened' := by
    rw [State.mk.injEq] at hstate
    exact ⟨List.append_cancel_left hstate.1, hstate.2⟩
  have hfine' := hfine (hnew.trans (entriesWithin_perm hdepth path listing)).length_eq (by
    rw [hopened.length_eq, List.length_map, hdirs])
  refine .inr ⟨hdirs ▸ hfine', or_iff_not_imp_left.mpr fun htwo ↦ ?_⟩
  have hret := enter_ret hdepth htwo hrun
  rw [List.length_append] at hret
  obtain ⟨hzero, hlen⟩ := eq_zero_of_count hvector hret
  refine ⟨List.length_eq_zero_iff.mp hzero, ?_⟩
  rw [listings_dirsWithin hdepth path htwo (List.forall_mem_cons.mp hfine').2]
  rwa [(hall hfine').1, if_neg htwo] at hlen

theorem Served.collects {depth : ℤ} {path : Text} {listing : List Entry} {vector : List Text}
    (h : Served depth path listing vector) : Collects depth path listing vector := by
  by_cases hdepth : depth = 0
  · rw [hdepth]
    exact collects_zero path listing vector
  have hentries := entriesWithin_perm hdepth path listing
  have hdirs := dirsWithin_eq hdepth path listing
  obtain ⟨hfine, hvector⟩ := h.resolve_left hdepth
  rw [hdirs] at hfine
  obtain ⟨⟨hsized, -⟩, hbelow⟩ := List.forall_mem_cons.mp hfine
  by_cases htwo : listing.length = 2
  · have hmember := hsized.2.2 htwo
    obtain ⟨hbeneath, hopen, -⟩ := beneathAll_of_not_member (next depth) 1 path hmember
    refine ⟨[], [path], ?_, ?_, ?_⟩
    · rw [fs_tree, enter, if_neg hdepth,
        if_neg (not_or.mpr ⟨not_le.mpr hsized.1, not_le.mpr hsized.2.1⟩)]
      dsimp only
      rw [if_pos htwo, List.append_nil]
      rfl
    · refine List.Perm.symm (hentries.trans ?_)
      rw [hbeneath, members_eq_nil_iff.mpr hmember]
      exact .nil
    · rw [hdirs, hopen]
      exact .refl _
  · obtain ⟨rfl, hlen⟩ := hvector.resolve_left htwo
    rw [listings_dirsWithin hdepth path htwo hbelow] at hlen
    have hloop := visitAll_ok (next depth) one_ne_zero path listing ⟨[], [path]⟩ hbelow (by
      rw [List.length_append] at hlen
      exact lt_of_le_of_lt (by simp) hlen)
    have hrun := enter_ok (s := ⟨[], []⟩) hdepth hsized hloop fun h ↦ absurd h htwo
    rw [if_neg htwo, if_neg htwo, List.nil_append, count_eq hlen] at hrun
    refine ⟨_, _, hrun, ?_, ?_⟩
    · rw [proper_append, proper_listed, proper_collectedAll _ 1 path listing hbelow]
      exact hentries.symm
    · rw [hdirs]
      exact .refl _

/-- The walk does what it should exactly where the directories are as it needs them. -/
theorem collects_iff (depth : ℤ) (path : Text) (listing : List Entry)
    (vector : {l : List Text // l.length < 2 ^ 32}) :
    Collects depth path listing vector.1 ↔ Served depth path listing vector.1 :=
  ⟨fun h ↦ h.served vector.2, Served.collects⟩

/-- `a.` -/
def dotName : Name := ⟨[97, 46], by decide, by decide, by decide⟩

/-- `b` -/
def plainName : Name := ⟨[98], by decide, by decide, by decide⟩

/-- In the directory `d` there is a directory `a.` with a file `b`, which is not collected. -/
theorem not_collects :
    ¬ Collects (-1) [100] [.self, .parent, .dir dotName [.self, .parent, .file plainName]] [] := by
  intro h
  obtain ⟨hfine, -⟩ := (h.served (by decide)).resolve_left (by decide)
  have hdot := (hfine ⟨1, [100, 47, 97, 46], [.self, .parent, .file plainName]⟩ (by
    exact List.mem_cons_of_mem _ List.mem_cons_self)).2 one_ne_zero
  cases hdot

end Libobject.DirectoryWalk
