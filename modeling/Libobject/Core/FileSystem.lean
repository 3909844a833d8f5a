import Mathlib.Data.Int.Notation
import Mathlib.Logic.Function.Basic
import Mathlib.Data.List.Basic
import Libobject.Lib.Scan

/-!
# The file system

A disk holds files and directories under their paths, as the system calls see them. A path that
begins with `~` is expanded by `fs_is_exist` and by `File`, and by nothing else. A buffer that a
path does not fit in with its end is read past its own.

The system may refuse to make, open or remove what is at a path. Reading and writing do not fail, a
file that is written to in mode `a+` grows at its end, and the directories that `fs_mkfile` makes on
the way to a file are not recorded.
-/

namespace Libobject.FileSystem

open Scan

abbrev Content := List UInt8

/-- Without a slash at the end. -/
def trim (p : Text) : Text := if p.getLast? = some 47 then p.dropLast else p

/-- With a slash at the end. -/
def slash (p : Text) : Text := if p.getLast? = some 47 then p else p ++ [47]

/-- A directory has the names that are in it, without those of itself and of its parent. -/
structure Disk where
  home : Text
  files : Text → Option Content
  dirs : Text → Option (List Text)
  refuses : Text → Bool
  names : ∀ p ns, dirs p = some ns → ∀ n ∈ ns, n ≠ [] ∧ 47 ∉ n
  nodup : ∀ p ns, dirs p = some ns → ns.Nodup

/-- How a call ends that does not return: it throws, nothing is known of what it does, or it runs
on. -/
inductive Stop
  | thrown
  | undefined
  | endless
  deriving DecidableEq

abbrev Run := Except Stop

namespace Disk

/-- There is no directory. -/
def ofFiles (files : Text → Option Content) : Disk where
  home := []
  files := files
  dirs := fun _ ↦ none
  refuses := fun _ ↦ false
  names := nofun
  nodup := nofun

/-- There is nothing at the empty path. -/
def dirAt (d : Disk) (p : Text) : Option (List Text) := if p = [] then none else d.dirs (trim p)

def put (d : Disk) (p : Text) (c : Option Content) : Disk :=
  { d with files := Function.update d.files p c }

def fs_gethome (d : Disk) (max_len : ℕ) : Text := d.home.take (max_len - 1)

/-- The path in a buffer of the given size. -/
def expand (d : Disk) (max_len : ℕ) (p : Text) : Run Text :=
  let e := if p.head? = some 126 then d.fs_gethome max_len ++ p.drop 1 else p
  if max_len ≤ e.length then .error .undefined else .ok e

/-- The path fits the buffer with its end. -/
def Fits (d : Disk) (max_len : ℕ) (p : Text) : Prop :=
  (if p.head? = some 126 then (d.fs_gethome max_len).length + (p.length - 1) else p.length) <
    max_len

def fs_is_exist (d : Disk) (p : Text) : Run Bool := do
  let e ← d.expand 128 p
  return (d.files e).isSome || (d.dirAt e).isSome

def fs_is_directory (d : Disk) (p : Text) : ℤ :=
  if (d.dirAt p).isSome then 1 else if (d.files p).isSome then 0 else -1

/-- The size as a C integer. -/
def fs_get_size (d : Disk) (p : Text) : BitVec 32 :=
  match d.files p with
  | none => -1
  | some c => BitVec.ofNat 32 c.length

def removeDir (d : Disk) (p : Text) : Disk :=
  { d with
    dirs := fun q ↦ if q = trim p then none else d.dirs q
    names := fun q ns h ↦ by
      split_ifs at h
      exact d.names q ns h
    nodup := fun q ns h ↦ by
      split_ifs at h
      exact d.nodup q ns h }

/-- `remove`: also a directory that is empty. -/
def fs_rmfile (d : Disk) (p : Text) : Run Disk :=
  if d.refuses p then .error .thrown
  else if (d.files p).isSome then .ok (d.put p none)
  else
    match d.dirAt p with
    | some [] => .ok (d.removeDir p)
    | _ => .error .thrown

/-- Without a separator the path itself is made a directory, and is no file then. -/
def fs_mkfile (d : Disk) (p : Text) : Run Disk :=
  if d.refuses p ∨ (d.dirAt p).isSome ∨ (47 ∉ p ∧ 92 ∉ p) then .error .thrown
  else .ok (d.put p (some []))

/-- `open` in mode `r+`, and what is read of the file. -/
def openRead (d : Disk) (p : Text) : Run Content := do
  let e ← d.expand 1024 p
  if d.refuses e then .error .thrown
  else
    match d.files e with
    | none => .error .thrown
    | some c => .ok c

/-- `open` in mode `a+`, which makes a file that is not there: the path that it has then. -/
def openAppend (d : Disk) (p : Text) : Run (Disk × Text) := do
  let e ← d.expand 1024 p
  if d.refuses e ∨ (d.dirAt e).isSome then .error .thrown
  else .ok (if (d.files e).isSome then d else d.put e (some []), e)

/-- `write` to a file that is open in mode `a+`, whatever was sought before. -/
def write (d : Disk) (e : Text) (bs : List UInt8) : Disk :=
  d.put e (some ((d.files e).getD [] ++ bs))

/-- A listing has the entries of the directory itself and of its parent too. -/
def entries (ns : List Text) : List Text := [46] :: [46, 46] :: ns

def fs_list (d : Disk) (path : Text) : List Text :=
  if d.fs_is_directory path = 0 then [path]
  else
    match d.dirAt path with
    | none => []
    | some ns => (entries ns).map (slash path ++ ·)

/-- The last character of the name is a dot. -/
def dotted (p : Text) : Bool := p.getLast? = some 46

/-- What is listed in a directory, behind what is below it, to any depth; a directory of two entries
counts as empty. The buffer of a path is left out; `DirectoryWalk.fs_tree` has it. -/
def fs_tree : ℕ → Disk → Text → Run (List Text)
  | 0, _, _ => .error .endless
  | n + 1, d, path =>
    let list := d.fs_list path
    if list.length = 2 then .ok []
    else do
      let below ← list.foldlM (fun below p ↦
        if (d.dirAt p).isSome ∧ dotted p = false then do
          let more ← fs_tree n d p
          return below ++ more
        else return below) []
      return below ++ list

/-- Of an empty root the byte in front is read. -/
def fs_get_relative_path (path root : Text) : Run Text :=
  match root.isPrefixOf? path with
  | none => .error .thrown
  | some rel =>
    if root = [] then .error .undefined
    else if root.getLast? = some 47 then .ok rel else .error .thrown

/-! ## Paths that are taken as they are -/

/-- The path is not expanded, and fits in the smallest buffer. -/
def Plain (p : Text) : Prop := p.head? ≠ some 126 ∧ p.length < 128

instance decidablePlain (p : Text) : Decidable (Plain p) := inferInstanceAs (Decidable (_ ∧ _))

section Plain

variable {d : Disk} {p q : Text}

theorem expand_plain (hp : Plain p) {n : ℕ} (hn : 128 ≤ n) : d.expand n p = .ok p := by
  have hlen : ¬n ≤ p.length := Nat.not_le.mpr (Nat.lt_of_lt_of_le hp.2 hn)
  unfold expand
  rw [if_neg hp.1, if_neg hlen]

theorem expand_isSome_iff {n : ℕ} : (d.expand n p).toOption.isSome ↔ d.Fits n p := by
  have hbuffer (e : Text) :
      (if n ≤ e.length then .error .undefined else .ok e : Run Text).toOption.isSome ↔
        e.length < n := by
    split_ifs with hlong
    · exact iff_of_false nofun (Nat.not_lt.mpr hlong)
    · exact iff_of_true rfl (Nat.lt_of_not_le hlong)
  rw [expand, Fits, hbuffer, apply_ite List.length, List.length_append, List.length_drop]

theorem fs_is_exist_plain (hp : Plain p) :
    d.fs_is_exist p = .ok ((d.files p).isSome || (d.dirAt p).isSome) := by
  rw [fs_is_exist, expand_plain hp le_rfl]
  rfl

theorem openRead_plain (hp : Plain p) :
    d.openRead p =
      if d.refuses p then .error .thrown
      else
        match d.files p with
        | none => .error .thrown
        | some c => .ok c := by
  rw [openRead, expand_plain hp (by decide)]
  rfl

theorem openAppend_plain (hp : Plain p) :
    d.openAppend p =
      if d.refuses p ∨ (d.dirAt p).isSome then .error .thrown
      else .ok (if (d.files p).isSome then d else d.put p (some []), p) := by
  rw [openAppend, expand_plain hp (by decide)]
  rfl

end Plain

/-! ## What is listed in a directory -/

/-- What `fs_tree` lists. -/
inductive Listed (d : Disk) : Text → Text → Prop
  | entry {p n : Text} {ns : List Text} (hdir : d.dirAt p = some ns) (hne : ns ≠ [])
      (hn : n ∈ entries ns) : Listed d p (slash p ++ n)
  | inside {p n q : Text} {ns : List Text} (hdir : d.dirAt p = some ns) (hn : n ∈ ns)
      (hdot : dotted (slash p ++ n) = false) (hq : Listed d (slash p ++ n) q) : Listed d p q

/-- What is in a directory, wherever. -/
inductive Below (d : Disk) : Text → Text → Prop
  | entry {p n : Text} {ns : List Text} (hdir : d.dirAt p = some ns) (hn : n ∈ ns) :
      Below d p (slash p ++ n)
  | inside {p n q : Text} {ns : List Text} (hdir : d.dirAt p = some ns) (hn : n ∈ ns)
      (hq : Below d (slash p ++ n) q) : Below d p q

section Listing

variable {d : Disk} {p q r : Text}

theorem dirs_of_dirAt {ns : List Text} (h : d.dirAt p = some ns) :
    p ≠ [] ∧ d.dirs (trim p) = some ns := by
  unfold dirAt at h
  split_ifs at h with hp
  exact ⟨hp, h⟩

theorem name_of_dirAt {ns : List Text} (h : d.dirAt p = some ns) {n : Text} (hn : n ∈ ns) :
    n ≠ [] ∧ 47 ∉ n := d.names _ ns (dirs_of_dirAt h).2 n hn

theorem dirAt_removeDir (d : Disk) (p q : Text) :
    (d.removeDir p).dirAt q = if trim q = trim p then none else d.dirAt q := by
  by_cases hq : q = []
  · simp [dirAt, hq]
  · simp [dirAt, removeDir, hq]

theorem slash_append (p : Text) : ∃ u, slash p = p ++ u := by
  unfold slash
  split_ifs
  · exact ⟨[], (List.append_nil p).symm⟩
  · exact ⟨[47], rfl⟩

theorem getLast?_slash_append {n : Text} (hne : n ≠ []) :
    (slash p ++ n).getLast? = n.getLast? := by
  rw [List.getLast?_append, List.getLast?_eq_some_getLast hne]
  rfl

theorem dotted_self (p : Text) : dotted (slash p ++ [46]) = true := by
  rw [dotted, getLast?_slash_append (List.cons_ne_nil _ _)]
  rfl

theorem dotted_parent (p : Text) : dotted (slash p ++ [46, 46]) = true := by
  rw [dotted, getLast?_slash_append (List.cons_ne_nil _ _)]
  rfl

theorem name_of_entries {ns : List Text} {n : Text} (h : n ∈ entries ns)
    (hdot : dotted (slash p ++ n) = false) : n ∈ ns := by
  rcases List.mem_cons.mp h with rfl | h
  · rw [dotted_self] at hdot
    exact nomatch hdot
  · rcases List.mem_cons.mp h with rfl | h
    · rw [dotted_parent] at hdot
      exact nomatch hdot
    · exact h

theorem Listed.to_below (h : Listed d p q) (hdot : dotted q = false) : Below d p q := by
  induction h with
  | entry hdir _ hn => exact .entry hdir (name_of_entries hn hdot)
  | inside hdir hn _ _ ih => exact .inside hdir hn (ih hdot)

theorem Below.ne_nil (h : Below d p q) : p ≠ [] := by
  cases h with
  | entry hdir hn => exact (dirs_of_dirAt hdir).1
  | inside hdir hn hq => exact (dirs_of_dirAt hdir).1

theorem Below.starts (h : Below d p q) : ∃ u, u ≠ [] ∧ q = slash p ++ u := by
  induction h with
  | @entry p n ns hdir hn => exact ⟨n, (name_of_dirAt hdir hn).1, rfl⟩
  | @inside p n q ns hdir hn hq ih =>
    obtain ⟨u, -, rfl⟩ := ih
    obtain ⟨v, hv⟩ := slash_append (slash p ++ n)
    refine ⟨n ++ (v ++ u), ?_, by rw [hv]; simp only [List.append_assoc]⟩
    simp [(name_of_dirAt hdir hn).1]

theorem Below.last (h : Below d p q) : q.getLast? ≠ some 47 := by
  induction h with
  | @entry p n ns hdir hn =>
    obtain ⟨hne, hmem⟩ := name_of_dirAt hdir hn
    rw [getLast?_slash_append hne]
    exact fun hlast ↦ hmem (List.mem_of_getLast? hlast)
  | inside hdir hn hq ih => exact ih

theorem trim_of_last (h : p.getLast? ≠ some 47) : trim p = p := if_neg h

theorem relative_path {root u : Text} (h : root.getLast? = some 47) :
    fs_get_relative_path (root ++ u) root = .ok u := by
  have hprefix : root.isPrefixOf? (root ++ u) = some u :=
    List.isPrefixOf?_eq_some_iff_append_eq.mpr rfl
  have hne : root ≠ [] := fun hnil ↦ by simp [hnil] at h
  rw [fs_get_relative_path, hprefix]
  exact (if_neg hne).trans (if_pos h)

theorem relative_path_thrown {root u : Text} (hne : root ≠ []) (h : root.getLast? ≠ some 47) :
    fs_get_relative_path (root ++ u) root = .error .thrown := by
  have hprefix : root.isPrefixOf? (root ++ u) = some u :=
    List.isPrefixOf?_eq_some_iff_append_eq.mpr rfl
  rw [fs_get_relative_path, hprefix]
  exact (if_neg hne).trans (if_neg h)

theorem fs_list_dir {ns : List Text} (h : d.dirAt p = some ns) :
    d.fs_list p = (entries ns).map (slash p ++ ·) := by
  have hdirectory : d.fs_is_directory p ≠ 0 := by
    rw [fs_is_directory, h]
    exact Int.one_ne_zero
  rw [fs_list, if_neg hdirectory, h]

end Listing

section Tree

variable {d : Disk} {p q : Text} {n : ℕ}

/-- What one entry of a listing adds to what is below it. -/
def belowStep (d : Disk) (n : ℕ) (below : List Text) (p : Text) : Run (List Text) :=
  if (d.dirAt p).isSome ∧ dotted p = false then do
    let more ← fs_tree n d p
    return below ++ more
  else return below

theorem fs_tree_succ (n : ℕ) (d : Disk) (path : Text) :
    fs_tree (n + 1) d path =
      if (d.fs_list path).length = 2 then .ok []
      else do
        let below ← (d.fs_list path).foldlM (belowStep d n) []
        return below ++ d.fs_list path := rfl

theorem foldlM_below {list acc res : List Text} (h : list.foldlM (belowStep d n) acc = .ok res) :
    (∀ r ∈ list, (d.dirAt r).isSome → dotted r = false → ∃ more, fs_tree n d r = .ok more) ∧
      ∀ q, q ∈ res ↔ q ∈ acc ∨ ∃ r ∈ list, (d.dirAt r).isSome ∧ dotted r = false ∧
        ∃ more, fs_tree n d r = .ok more ∧ q ∈ more := by
  induction list generalizing acc with
  | nil =>
    have hres : acc = res := Except.ok.inj h
    subst hres
    exact ⟨nofun, fun q ↦ by simp⟩
  | cons p list ih =>
    rw [List.foldlM_cons] at h
    by_cases hgo : (d.dirAt p).isSome ∧ dotted p = false
    · cases htree : fs_tree n d p with
      | error e =>
        rw [belowStep, if_pos hgo, htree] at h
        exact nomatch h
      | ok more =>
        rw [belowStep, if_pos hgo, htree] at h
        obtain ⟨htrees, hmem⟩ := ih h
        refine ⟨List.forall_mem_cons.mpr ⟨fun _ _ ↦ ⟨more, htree⟩, htrees⟩, fun q ↦ ?_⟩
        rw [hmem, List.mem_append, or_assoc]
        refine or_congr_right ?_
        constructor
        · rintro (hq | ⟨r, hr, hrest⟩)
          · exact ⟨p, List.mem_cons_self, hgo.1, hgo.2, more, htree, hq⟩
          · exact ⟨r, List.mem_cons_of_mem p hr, hrest⟩
        · rintro ⟨r, hr, hdir, hdot, l, hl, hq⟩
          rcases List.mem_cons.mp hr with rfl | hr
          · rw [htree] at hl
            cases hl
            exact .inl hq
          · exact .inr ⟨r, hr, hdir, hdot, l, hl, hq⟩
    · rw [belowStep, if_neg hgo] at h
      obtain ⟨htrees, hmem⟩ := ih h
      refine ⟨List.forall_mem_cons.mpr ⟨fun hdir hdot ↦ absurd ⟨hdir, hdot⟩ hgo, htrees⟩,
        fun q ↦ ?_⟩
      rw [hmem]
      refine or_congr_right ?_
      constructor
      · rintro ⟨r, hr, hrest⟩
        exact ⟨r, List.mem_cons_of_mem p hr, hrest⟩
      · rintro ⟨r, hr, hrest⟩
        rcases List.mem_cons.mp hr with rfl | hr
        · exact absurd ⟨hrest.1, hrest.2.1⟩ hgo
        · exact ⟨r, hr, hrest⟩

theorem foldlM_below_cases (htree : ∀ r, (∃ l, fs_tree n d r = .ok l) ∨
    fs_tree n d r = .error .endless) (list acc : List Text) :
    (∃ l, list.foldlM (belowStep d n) acc = .ok l) ∨
      list.foldlM (belowStep d n) acc = .error .endless := by
  induction list generalizing acc with
  | nil => exact .inl ⟨acc, rfl⟩
  | cons p list ih =>
    rw [List.foldlM_cons]
    by_cases hgo : (d.dirAt p).isSome ∧ dotted p = false
    · rcases htree p with ⟨l, hl⟩ | hl
      · rw [belowStep, if_pos hgo, hl]
        exact ih _
      · rw [belowStep, if_pos hgo, hl]
        exact .inr rfl
    · rw [belowStep, if_neg hgo]
      exact ih _

theorem fs_tree_cases (n : ℕ) (d : Disk) (p : Text) :
    (∃ l, fs_tree n d p = .ok l) ∨ fs_tree n d p = .error .endless := by
  induction n generalizing p with
  | zero => exact .inr rfl
  | succ n ih =>
    rw [fs_tree_succ]
    split_ifs
    · exact .inl ⟨[], rfl⟩
    · rcases foldlM_below_cases ih (d.fs_list p) [] with ⟨l, hl⟩ | hl
      · rw [hl]
        exact .inl ⟨_, rfl⟩
      · rw [hl]
        exact .inr rfl

theorem mem_fs_list {ns : List Text} (hdir : d.dirAt p = some ns) :
    q ∈ d.fs_list p ↔ ∃ m ∈ entries ns, slash p ++ m = q := by
  rw [fs_list_dir hdir, List.mem_map]

theorem Listed.dir (h : Listed d p q) : (d.dirAt p).isSome := by
  cases h with
  | entry hdir _ hn => rw [hdir]; rfl
  | inside hdir hn hdot hq => rw [hdir]; rfl

theorem listed_iff {ns : List Text} (hdir : d.dirAt p = some ns) :
    Listed d p q ↔ ns ≠ [] ∧ ∃ m ∈ entries ns, slash p ++ m = q ∨
      dotted (slash p ++ m) = false ∧ Listed d (slash p ++ m) q := by
  constructor
  · intro h
    cases h with
    | @entry _ m ns' hdir' hne hm =>
      rw [hdir] at hdir'
      cases hdir'
      exact ⟨hne, m, hm, .inl rfl⟩
    | @inside _ m _ ns' hdir' hm hdot hq =>
      rw [hdir] at hdir'
      cases hdir'
      have hm' : m ∈ entries ns := List.mem_cons_of_mem _ (List.mem_cons_of_mem _ hm)
      exact ⟨List.ne_nil_of_mem hm, m, hm', .inr ⟨hdot, hq⟩⟩
  · rintro ⟨hne, m, hm, rfl | ⟨hdot, hq⟩⟩
    · exact .entry hdir hne hm
    · exact .inside hdir (name_of_entries hm hdot) hdot hq

theorem mem_fs_tree {ns list : List Text} (hdir : d.dirAt p = some ns)
    (h : fs_tree n d p = .ok list) : q ∈ list ↔ Listed d p q := by
  induction n generalizing p q ns list with
  | zero => exact nomatch h
  | succ n ih =>
    rw [fs_tree_succ] at h
    rw [listed_iff hdir]
    have hlen : (d.fs_list p).length = 2 ↔ ns = [] := by
      rw [fs_list_dir hdir, List.length_map, entries, List.length_cons, List.length_cons,
        ← List.length_eq_zero_iff]
      omega
    by_cases hempty : ns = []
    · rw [if_pos (hlen.mpr hempty)] at h
      cases h
      exact iff_of_false List.not_mem_nil fun h ↦ h.1 hempty
    · rw [if_neg fun h ↦ hempty (hlen.mp h)] at h
      cases hfold : (d.fs_list p).foldlM (belowStep d n) [] with
      | error e =>
        rw [hfold] at h
        exact nomatch h
      | ok below =>
        rw [hfold] at h
        have hlist : below ++ d.fs_list p = list := Except.ok.inj h
        subst hlist
        obtain ⟨htrees, hmem⟩ := foldlM_below hfold
        rw [List.mem_append, hmem, mem_fs_list hdir]
        constructor
        · rintro ((hnil | ⟨r, hr, hrdir, hrdot, more, hmore, hq⟩) | ⟨m, hm, hmq⟩)
          · exact nomatch hnil
          · obtain ⟨m, hm, rfl⟩ := (mem_fs_list hdir).mp hr
            obtain ⟨ns', hns'⟩ := Option.isSome_iff_exists.mp hrdir
            exact ⟨hempty, m, hm, .inr ⟨hrdot, (ih hns' hmore).mp hq⟩⟩
          · exact ⟨hempty, m, hm, .inl hmq⟩
        · rintro ⟨-, m, hm, hmq | ⟨hdot, hlisted⟩⟩
          · exact .inr ⟨m, hm, hmq⟩
          · have hr : slash p ++ m ∈ d.fs_list p := (mem_fs_list hdir).mpr ⟨m, hm, rfl⟩
            have hrdir := hlisted.dir
            obtain ⟨more, hmore⟩ := htrees _ hr hrdir hdot
            obtain ⟨ns', hns'⟩ := Option.isSome_iff_exists.mp hrdir
            exact .inl (.inr ⟨_, hr, hrdir, hdot, more, hmore, (ih hns' hmore).mpr hlisted⟩)

end Tree

end Disk

/-! ## Making directories -/

/-- What the system answers: what is there when a call begins, what `access` finds and which
directories `mkdir` makes on the way, and which files can be opened for writing. -/
structure System where
  disk : Disk
  access : Text → Bool
  mkdir : Text → Bool
  opens : Text → Bool

namespace System

/-- The path in a buffer of 128 bytes. -/
def fs_is_exist (sys : System) (p : Text) : Run Bool :=
  (sys.disk.expand 128 p).map sys.access

/-- Where the first piece of a path leads: a relative path is taken as an absolute one, unless it
begins with a dot. -/
def first (sys : System) (path_len : ℕ) (p : Text) : Text :=
  if p = [46] then p else if p = [126] then sys.disk.fs_gethome path_len else 47 :: p

/-- The paths that `__mkdir` comes to, one for each piece that is not empty. -/
def ways (sys : System) (path : Text) : List Text :=
  match (path.splitOn 47).filter (· ≠ []) with
  | [] => []
  | p :: ps => ps.scanl (fun tmp p ↦ tmp ++ 47 :: p) (sys.first path.length p)

/-- The directories that are made, and whether all of them could be. -/
def mkdirFrom (sys : System) : List Text → Run (List Text × Bool)
  | [] => .ok ([], true)
  | q :: qs => do
    if ← sys.fs_is_exist q then mkdirFrom sys qs
    else if sys.mkdir q then (mkdirFrom sys qs).map fun r ↦ (q :: r.1, r.2)
    else return ([], false)

/-- `tmp` has room for the path and, in front of it, a slash. -/
def Roomy (path : Text) : Prop := path.length = 1 → path = [47] ∨ path = [46] ∨ path = [126]

instance decidableRoomy (path : Text) : Decidable (Roomy path) :=
  inferInstanceAs (Decidable (_ → _))

def fs_mkdir (sys : System) (path : Text) : Run (List Text × Bool) := do
  if (← sys.disk.fs_is_exist path) ∧ sys.disk.fs_is_directory path = 1 then return ([], true)
  else if Roomy path then sys.mkdirFrom (sys.ways path)
  else .error .undefined

/-- `if (!fs_is_exist(path)) fs_mkdir(path)` -/
def provide (sys : System) (path : Text) : Run (List Text × Bool) := do
  if ← sys.disk.fs_is_exist path then return ([], true) else sys.fs_mkdir path

/-- A directory on the way is there or can be made. -/
def Passes (sys : System) (q : Text) : Prop :=
  ∃ e, sys.disk.expand 128 q = .ok e ∧ (sys.access e = true ∨ sys.mkdir q = true)

/-- The directories that are come to on the way have paths that fit. -/
def Visits (sys : System) : List Text → Prop
  | [] => True
  | q :: qs => sys.disk.Fits 128 q ∧ (sys.Passes q → sys.Visits qs)

/-- The directory can be looked for, and it is there or its paths on the way fit. -/
def Makes (sys : System) (path : Text) : Prop :=
  sys.disk.Fits 128 path ∧
    (sys.disk.fs_is_exist path = .ok true ∧ sys.disk.fs_is_directory path = 1 ∨
      Roomy path ∧ sys.Visits (sys.ways path))

/-- The same where it is made only if it is missing. -/
def Provides (sys : System) (path : Text) : Prop :=
  sys.disk.Fits 128 path ∧ (sys.disk.fs_is_exist path = .ok true ∨ sys.Makes path)

/-- A directory is not there, where one is looked for. -/
def lacks (sys : System) (q : Text) : Bool :=
  match sys.fs_is_exist q with
  | .ok false => true
  | _ => false

/-- There is a file at every path. -/
def everywhere : System where
  disk := .ofFiles fun _ ↦ some []
  access := fun _ ↦ true
  mkdir := fun _ ↦ false
  opens := fun _ ↦ true

variable {sys : System} {path q : Text} {qs made : List Text}

theorem passes_iff : sys.Passes q ↔ sys.fs_is_exist q = .ok true ∨
    sys.fs_is_exist q = .ok false ∧ sys.mkdir q = true := by
  rw [Passes, fs_is_exist]
  cases sys.disk.expand 128 q with
  | error e => simp [Except.map]
  | ok e =>
    rw [Except.map, Except.ok.injEq, Except.ok.injEq]
    cases haccess : sys.access e <;> simp [haccess]

theorem mkdirFrom_isSome_iff : (sys.mkdirFrom qs).toOption.isSome ↔ sys.Visits qs := by
  induction qs with
  | nil => exact iff_of_true rfl trivial
  | cons q qs ih =>
    rw [mkdirFrom, Visits, ← Disk.expand_isSome_iff, passes_iff, fs_is_exist]
    cases hexpand : sys.disk.expand 128 q with
    | error stop => exact iff_of_false nofun fun h ↦ nomatch h.1
    | ok e =>
      have hfits : (Except.ok e : Run Text).toOption.isSome := rfl
      rw [← ih, and_iff_right hfits]
      cases haccess : sys.access e with
      | true => simp [bind, Except.bind, Except.map, haccess]
      | false =>
        cases hmkdir : sys.mkdir q with
        | false =>
          simp [bind, Except.bind, Except.map, haccess, pure, Except.pure, Except.toOption]
        | true =>
          cases sys.mkdirFrom qs with
          | error stop => simp [bind, Except.bind, Except.map, haccess, Except.toOption]
          | ok made => simp [bind, Except.bind, Except.map, haccess, Except.toOption]

theorem fs_mkdir_isSome_iff : (sys.fs_mkdir path).toOption.isSome ↔ sys.Makes path := by
  rw [fs_mkdir, Makes, ← Disk.expand_isSome_iff, ← mkdirFrom_isSome_iff, Disk.fs_is_exist]
  cases sys.disk.expand 128 path with
  | error stop => exact iff_of_false nofun fun h ↦ nomatch h.1
  | ok e =>
    simp only [bind, Except.bind, pure, Except.pure, Except.ok.injEq]
    split_ifs with hthere hroomy
    · exact iff_of_true rfl ⟨rfl, .inl hthere⟩
    · rw [or_iff_right hthere, and_iff_right hroomy]
      exact (and_iff_right rfl).symm
    · exact iff_of_false nofun fun h ↦ h.2.elim hthere fun h ↦ hroomy h.1

theorem provide_isSome_iff : (sys.provide path).toOption.isSome ↔ sys.Provides path := by
  rw [provide, Provides, ← fs_mkdir_isSome_iff, ← Disk.expand_isSome_iff, Disk.fs_is_exist]
  cases sys.disk.expand 128 path with
  | error stop => exact iff_of_false nofun fun h ↦ nomatch h.1
  | ok e =>
    simp only [bind, Except.bind, pure, Except.pure, Except.ok.injEq]
    split_ifs with hthere
    · exact iff_of_true rfl ⟨rfl, .inl hthere⟩
    · simp [hthere, Except.toOption]

theorem mkdirFrom_iff :
    sys.mkdirFrom qs = .ok (made, true) ↔ made = qs.filter sys.lacks ∧ ∀ q ∈ qs, sys.Passes q := by
  induction qs generalizing made with
  | nil =>
    rw [mkdirFrom, List.filter_nil, Except.ok.injEq, Prod.mk.injEq, and_iff_left rfl]
    exact ⟨fun h ↦ ⟨h.symm, nofun⟩, fun h ↦ h.1.symm⟩
  | cons q qs ih =>
    rw [mkdirFrom, List.filter_cons, List.forall_mem_cons, passes_iff]
    cases hexist : sys.fs_is_exist q with
    | error e => exact iff_of_false nofun (by simp)
    | ok found =>
      have hlacks : sys.lacks q = !found := by
        rw [lacks, hexist]
        cases found <;> rfl
      rw [hlacks]
      cases found with
      | true => simpa [bind, Except.bind] using ih
      | false =>
        cases hmkdir : sys.mkdir q with
        | false => exact iff_of_false (fun h ↦ by cases h) (by simp)
        | true =>
          have hrun : sys.mkdirFrom qs = .ok (made.tail, true) ∧ made = q :: made.tail ↔
              (sys.mkdirFrom qs).map (fun r ↦ (q :: r.1, r.2)) = .ok (made, true) := by
            cases sys.mkdirFrom qs with
            | error e => exact iff_of_false nofun nofun
            | ok r =>
              cases made with
              | nil => simp [Except.map]
              | cons p made =>
                simp only [Except.map, Except.ok.injEq, Prod.ext_iff, List.tail_cons,
                  List.cons.injEq, and_true, eq_comm (a := p)]
                exact ⟨fun h ↦ ⟨⟨h.2, h.1.1⟩, h.1.2⟩, fun h ↦ ⟨⟨h.1.2, h.2⟩, h.1.1⟩⟩
          have hall : (made.tail = qs.filter sys.lacks ∧ ∀ q ∈ qs, sys.Passes q) ∧
              made = q :: made.tail ↔
                made = q :: qs.filter sys.lacks ∧ ∀ q ∈ qs, sys.Passes q :=
            ⟨fun h ↦ ⟨h.1.1 ▸ h.2, h.1.2⟩, fun h ↦ by rw [h.1]; exact ⟨⟨rfl, h.2⟩, rfl⟩⟩
          rw [ih, hall] at hrun
          simpa [bind, Except.bind] using hrun.symm

theorem provide_iff : sys.provide path = .ok (made, true) ↔
    sys.disk.fs_is_exist path = .ok true ∧ made = [] ∨
      sys.disk.fs_is_exist path = .ok false ∧ Roomy path ∧
        made = (sys.ways path).filter sys.lacks ∧ ∀ q ∈ sys.ways path, sys.Passes q := by
  rw [← mkdirFrom_iff, provide, fs_mkdir]
  cases sys.disk.fs_is_exist path with
  | error e => exact iff_of_false nofun (by simp)
  | ok found =>
    cases found with
    | true => simp [bind, Except.bind, pure, Except.pure, eq_comm]
    | false => by_cases hroomy : Roomy path <;> simp [bind, Except.bind, hroomy]

end System

end Libobject.FileSystem
