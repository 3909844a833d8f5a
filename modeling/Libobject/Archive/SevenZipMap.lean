import Libobject.Archive.SevenZip
import Mathlib.Algebra.Group.Nat.Defs
import Mathlib.Data.List.Nodup

/-!
# Which sub-stream a file gets

The files take the sub-streams of the folders one after another. A file without a stream takes one
too, which is then missing for the files behind it.
-/

namespace Libobject.SevenZip

section Map

/-- The size that a file is given for the sub-stream `i`. -/
def Folder.fileSize (folder : Folder) (i : ℕ) : Option UInt64 :=
  if folder.substream_sizes.isSome ∧ i + 1 < folder.count then folder.substreamSize i
  else folder.unpackSize

/-- The CRC that a file has behind it. -/
def Folder.fileCrc (folder : Folder) (i : ℕ) (crc : UInt32) : Option UInt32 :=
  match folder.substream_crcs with
  | some crcs => crcs[i]?
  | none => some crc

def FileInfo.mapTo (file : FileInfo) (folder : Folder) (f i : ℕ) : Option FileInfo := do
  let size ← folder.fileSize i
  let crc ← folder.fileCrc i file.crc
  return { file with
    folder_index := UInt32.ofNat f
    substream_index := UInt32.ofNat i
    size
    crc }

/-- The sub-streams of a folder from `i` on, `k` of them. -/
def mapFolder (folder : Folder) (f : ℕ) : ℕ → ℕ → ℕ × List FileInfo → Option (ℕ × List FileInfo)
  | 0, _, s => some s
  | k + 1, i, (global, files) =>
    match files[global]? with
    | none => some (global, files)
    | some file =>
      if file.empty_stream then mapFolder folder f k (i + 1) (global + 1, files)
      else do
        let file ← file.mapTo folder f i
        mapFolder folder f k (i + 1) (global + 1, files.set global file)

def mapFolders : List Folder → ℕ → ℕ × List FileInfo → Option (ℕ × List FileInfo)
  | [], _, s => some s
  | folder :: folders, f, s => do
    let s ← mapFolder folder f folder.count 0 s
    mapFolders folders (f + 1) s

def map_files_to_substreams (folders : List Folder) (files : List FileInfo) :
    Option (List FileInfo) :=
  (mapFolders folders 0 (0, files)).map Prod.snd

/-- Where the sub-stream `k` starts. -/
def Folder.offset (folder : Folder) : ℕ → Option UInt64
  | 0 => some 0
  | k + 1 => do
    let o ← folder.offset k
    let size ← folder.substreamSize k
    return o + size

def get_substream_span (folder : Folder) (si : ℕ) : Option (UInt64 × UInt64) := do
  let o ← folder.offset (min si (folder.count - 1))
  if si + 1 < folder.count then do
    let len ← folder.substreamSize si
    return (o, len)
  else do
    let size ← folder.unpackSize
    return (o, size - o)

end Map

/-- A sub-stream: its folder, the folder's number and its own number there. -/
structure Substream where
  folder : Folder
  f : ℕ
  i : ℕ

/-- All sub-streams in their order. -/
def substreams : List Folder → ℕ → List Substream
  | [], _ => []
  | folder :: folders, f =>
    (List.range folder.count).map (⟨folder, f, ·⟩) ++ substreams folders (f + 1)

/-- How many files with a stream stand before the file `g`. -/
def rank (files : List FileInfo) (g : ℕ) : ℕ := (files.take g).countP fun file ↦ !file.empty_stream

/-- What a file with a stream gets: its sub-stream, if there is one, with the length of its span. -/
def FileInfo.Gets (file : FileInfo) : Option Substream → Prop
  | some s => file.folder_index = UInt32.ofNat s.f ∧ file.substream_index = UInt32.ofNat s.i ∧
      ∃ off, get_substream_span s.folder s.i = some (off, file.size)
  | none => file.folder_index = 0xFFFFFFFF

/-- The files with a stream get the sub-streams in order, the others none and the size 0. -/
def MapsWell (folders : List Folder) (files : List FileInfo) : Prop :=
  ∃ files', map_files_to_substreams folders files = some files' ∧
    files'.length = files.length ∧ ∀ (g : ℕ) (file file' : FileInfo), files[g]? = some file →
      files'[g]? = some file' →
      if file.empty_stream then file'.folder_index = 0xFFFFFFFF ∧ file'.size = 0
      else file'.Gets (substreams folders 0)[rank files g]?

/-- A sub-stream has the sizes and the CRC that are looked for, and if it is the last one of its
folder the others come to nothing. -/
def Substream.Sized (s : Substream) : Prop :=
  (s.i + 1 = s.folder.count →
    s.folder.unpackSize.isSome ∧ s.folder.offset (s.folder.count - 1) = some 0) ∧
  ∀ crcs ∈ s.folder.substream_crcs, s.i < crcs.length

/-- No file without a stream stands before one that is to get a sub-stream, and the sub-streams
have their sizes. -/
def Mappable (folders : List Folder) (files : List FileInfo) : Prop :=
  ∀ (g : ℕ) (file : FileInfo), files[g]? = some file → file.empty_stream = false →
    ∀ s ∈ (substreams folders 0)[rank files g]?, rank files g = g ∧ s.Sized

/-- What the header's sections leave: a folder with more than one sub-stream has a table for the
sizes of all but the last one, and no file has got anything yet. -/
structure Parsed (folders : List Folder) (files : List FileInfo) : Prop where
  few : folders.length < 2 ^ 32
  sizes : ∀ folder ∈ folders, 1 < folder.count →
    ∃ sizes ∈ folder.substream_sizes, folder.count ≤ sizes.length + 1
  fresh : ∀ file ∈ files, file.folder_index = 0xFFFFFFFF ∧ file.size = 0

section Rows

/-- What becomes of a file in the place of a sub-stream. -/
def FileInfo.placed (file : FileInfo) : Option Substream → Option FileInfo
  | none => some file
  | some s => if file.empty_stream then some file else file.mapTo s.folder s.f s.i

/-- Each file takes the sub-stream in its own place. -/
def mapped : List Substream → List FileInfo → Option (List FileInfo)
  | [], files => some files
  | _ :: _, [] => some []
  | s :: subs, file :: files => do
    let file ← file.placed (some s)
    let files ← mapped subs files
    return file :: files

theorem mapped_append (subs subs' : List Substream) (files : List FileInfo) :
    mapped (subs ++ subs') files = (mapped subs files).bind fun files ↦
      (mapped subs' (files.drop subs.length)).map (files.take subs.length ++ ·) := by
  induction subs generalizing files with
  | nil => simp [mapped]
  | cons s subs ih =>
    cases files with
    | nil => cases subs' <;> simp [mapped]
    | cons file files =>
      simp only [List.cons_append, mapped, ih, Option.bind_eq_bind, Option.bind_assoc]
      apply Option.bind_congr
      intro file' _
      cases mapped subs files with
      | none => rfl
      | some files' =>
        simp only [Option.bind_some, Option.pure_def, List.length_cons, List.drop_succ_cons,
          List.take_succ_cons, Option.bind_map]
        cases mapped subs' (files'.drop subs.length) <;> rfl

theorem mapped_eq_some {subs : List Substream} {files files' : List FileInfo} :
    mapped subs files = some files' ↔ files'.length = files.length ∧
      ∀ (g : ℕ) (file : FileInfo), files[g]? = some file →
        ∃ file', files'[g]? = some file' ∧ file.placed subs[g]? = some file' := by
  induction subs generalizing files files' with
  | nil =>
    rw [mapped, Option.some.injEq]
    constructor
    · rintro rfl
      exact ⟨rfl, fun g file hg ↦ ⟨file, hg, rfl⟩⟩
    · rintro ⟨hlen, hall⟩
      apply List.ext_getElem?
      intro g
      cases hg : files[g]? with
      | none =>
        rw [List.getElem?_eq_none_iff] at hg
        exact (List.getElem?_eq_none_iff.mpr (hlen ▸ hg)).symm
      | some file =>
        obtain ⟨file', hg', hplaced⟩ := hall g file hg
        rw [hg', ← hplaced]
        rfl
  | cons s subs ih =>
    cases files with
    | nil =>
      rw [mapped, Option.some.injEq]
      constructor
      · rintro rfl
        exact ⟨rfl, fun g file hg ↦ nomatch hg⟩
      · rintro ⟨hlen, -⟩
        exact (List.length_eq_zero_iff.mp hlen).symm
    | cons file files =>
      simp only [mapped, Option.bind_eq_bind, Option.bind_eq_some_iff, Option.pure_def,
        Option.some.injEq]
      constructor
      · rintro ⟨file₁, hplaced, files₁, hrest, rfl⟩
        obtain ⟨hlen, hall⟩ := ih.mp hrest
        refine ⟨congrArg (· + 1) hlen, ?_⟩
        intro g file' hg
        cases g with
        | zero =>
          obtain rfl := Option.some.inj hg
          exact ⟨file₁, rfl, hplaced⟩
        | succ g => exact hall g file' hg
      · rintro ⟨hlen, hall⟩
        obtain ⟨file₁, hfirst, hplaced⟩ := hall 0 file rfl
        cases files' with
        | nil => exact nomatch hfirst
        | cons file₂ files₂ =>
          obtain rfl := Option.some.inj hfirst
          refine ⟨_, hplaced, files₂, ih.mpr ⟨Nat.succ.inj hlen, ?_⟩, rfl⟩
          exact fun g file' hg ↦ hall (g + 1) file' hg

theorem mapFolder_eq (folder : Folder) (f k i : ℕ) (pre post : List FileInfo) :
    mapFolder folder f k i (pre.length, pre ++ post) =
      (mapped ((List.range' i k).map (⟨folder, f, ·⟩)) post).map fun post' ↦
        (pre.length + min k post.length, pre ++ post') := by
  induction k generalizing i pre post with
  | zero => simp [mapFolder, mapped]
  | succ k ih =>
    cases post with
    | nil => simp [mapFolder, mapped, List.range'_succ]
    | cons file post =>
      have hget : (pre ++ file :: post)[pre.length]? = some file := by
        rw [List.getElem?_append_right (Nat.le_refl _), Nat.sub_self]
        rfl
      have hstep (file' : FileInfo) :
          mapFolder folder f k (i + 1) (pre.length + 1, pre ++ file' :: post) =
            (mapped ((List.range' (i + 1) k).map (⟨folder, f, ·⟩)) post).map fun post' ↦
              (pre.length + 1 + min k post.length, pre ++ file' :: post') := by
        have happend := ih (i + 1) (pre ++ [file']) post
        simpa using happend
      have hcount : pre.length + min (k + 1) (post.length + 1) =
          pre.length + 1 + min k post.length := by omega
      have hset (file' : FileInfo) :
          (pre ++ file :: post).set pre.length file' = pre ++ file' :: post := by
        rw [List.set_append_right _ _ (Nat.le_refl _), Nat.sub_self]
        rfl
      simp only [mapFolder, hget, List.range'_succ, List.map_cons, mapped, FileInfo.placed,
        List.length_cons, hcount, hset, hstep]
      split
      · simp only [Option.bind_eq_bind, Option.bind_some, Option.pure_def]
        cases mapped ((List.range' (i + 1) k).map (⟨folder, f, ·⟩)) post <;> rfl
      · cases file.mapTo folder f i with
        | none => rfl
        | some file' =>
          simp only [Option.bind_eq_bind, Option.bind_some, Option.pure_def]
          cases mapped ((List.range' (i + 1) k).map (⟨folder, f, ·⟩)) post <;> rfl

theorem mapFolders_eq (folders : List Folder) (f : ℕ) (pre post : List FileInfo) :
    (mapFolders folders f (pre.length, pre ++ post)).map Prod.snd =
      (mapped (substreams folders f) post).map (pre ++ ·) := by
  induction folders generalizing f pre post with
  | nil => rfl
  | cons folder folders ih =>
    rw [mapFolders, mapFolder_eq, substreams, mapped_append, List.range_eq_range']
    cases hfirst : mapped ((List.range' 0 folder.count).map (⟨folder, f, ·⟩)) post with
    | none => rfl
    | some post' =>
      have hlen : post'.length = post.length := (mapped_eq_some.mp hfirst).1
      have hpre : pre.length + min folder.count post.length =
          (pre ++ post'.take folder.count).length := by
        rw [List.length_append, List.length_take, hlen]
      have hsplit : pre ++ post' =
          (pre ++ post'.take folder.count) ++ post'.drop folder.count := by
        rw [List.append_assoc, List.take_append_drop]
      simp only [Option.map_some, Option.bind_eq_bind, Option.bind_some, List.length_map,
        List.length_range']
      rw [hpre, hsplit, ih, Option.map_map]
      congr 1
      funext files
      exact List.append_assoc _ _ _

theorem map_files_eq (folders : List Folder) (files : List FileInfo) :
    map_files_to_substreams folders files = mapped (substreams folders 0) files := by
  have h := mapFolders_eq folders 0 [] files
  rw [map_files_to_substreams]
  simpa using h

end Rows

section Numbers

variable {folders : List Folder} {files : List FileInfo}

theorem mem_substreams {f₀ : ℕ} {s : Substream} (h : s ∈ substreams folders f₀) :
    s.folder ∈ folders ∧ f₀ ≤ s.f ∧ s.f < f₀ + folders.length ∧ s.i < s.folder.count := by
  induction folders generalizing f₀ with
  | nil => exact absurd h List.not_mem_nil
  | cons folder folders ih =>
    rcases List.mem_append.mp h with h | h
    · obtain ⟨i, hi, rfl⟩ := List.mem_map.mp h
      refine ⟨List.mem_cons_self, Nat.le_refl _, ?_, List.mem_range.mp hi⟩
      exact Nat.lt_add_of_pos_right (Nat.succ_pos _)
    · obtain ⟨hmem, hlow, hhigh, hi⟩ := ih h
      rw [List.length_cons]
      exact ⟨List.mem_cons_of_mem folder hmem, by omega, by omega, hi⟩

theorem nodup_substreams (folders : List Folder) (f₀ : ℕ) :
    ((substreams folders f₀).map fun s ↦ (s.f, s.i)).Nodup := by
  induction folders generalizing f₀ with
  | nil => exact List.nodup_nil
  | cons folder folders ih =>
    rw [substreams, List.map_append, List.map_map]
    refine List.nodup_append.mpr ⟨?_, ih (f₀ + 1), ?_⟩
    · apply List.nodup_range.map
      intro i j hij
      exact (Prod.mk.inj hij).2
    · rintro x hx y hy rfl
      obtain ⟨i, -, rfl⟩ := List.mem_map.mp hx
      obtain ⟨s, hs, heq⟩ := List.mem_map.mp hy
      have hlow := (mem_substreams hs).2.1
      have hf : s.f = f₀ := (Prod.mk.inj heq).1
      omega

theorem substreams_inj {s t : Substream} {j k : ℕ} (hs : (substreams folders 0)[j]? = some s)
    (ht : (substreams folders 0)[k]? = some t) (hf : s.f = t.f) (hi : s.i = t.i) : j = k := by
  have hmap {l : ℕ} {u : Substream} (hu : (substreams folders 0)[l]? = some u) :
      ((substreams folders 0).map fun s ↦ (s.f, s.i))[l]? = some (u.f, u.i) := by
    rw [List.getElem?_map, hu]
    rfl
  have hsame := (hmap hs).trans ((congrArg some (Prod.ext hf hi)).trans (hmap ht).symm)
  obtain ⟨hj, -⟩ := List.getElem?_eq_some_iff.mp (hmap hs)
  exact (List.getElem?_inj hj (nodup_substreams folders 0)).mp hsame

theorem rank_le (files : List FileInfo) (g : ℕ) : rank files g ≤ g :=
  Nat.le_trans List.countP_le_length (List.length_take_le g files)

end Numbers

section Sizes

variable {folder : Folder} {i : ℕ}

theorem substreamSize_isSome {sizes : List UInt64} (hsizes : sizes ∈ folder.substream_sizes)
    (hcount : folder.count ≤ sizes.length + 1) (hi : i + 1 < folder.count) :
    ∃ size, folder.substreamSize i = some size := by
  rw [Folder.substreamSize, hsizes]
  exact ⟨_, List.getElem?_eq_getElem (by omega)⟩

theorem offset_isSome {sizes : List UInt64} (hsizes : sizes ∈ folder.substream_sizes)
    (hcount : folder.count ≤ sizes.length + 1) (hi : i < folder.count) :
    ∃ o, folder.offset i = some o := by
  induction i with
  | zero => exact ⟨0, rfl⟩
  | succ i ih =>
    obtain ⟨o, ho⟩ := ih (by omega)
    obtain ⟨size, hsize⟩ := substreamSize_isSome hsizes hcount hi
    exact ⟨o + size, by rw [Folder.offset, ho, hsize]; rfl⟩

theorem span_eq_iff {size : UInt64} (hi : i < folder.count)
    (hsizes : 1 < folder.count → ∃ sizes ∈ folder.substream_sizes, folder.count ≤ sizes.length + 1)
    (hsize : folder.fileSize i = some size) :
    (∃ off, get_substream_span folder i = some (off, size)) ↔
      (i + 1 = folder.count → folder.offset (folder.count - 1) = some 0) := by
  by_cases hlast : i + 1 < folder.count
  · obtain ⟨sizes, hmem, hcount⟩ := hsizes (by omega)
    obtain ⟨o, ho⟩ := offset_isSome hmem hcount hi
    have hmin : min i (folder.count - 1) = i := by omega
    have hsome : folder.substream_sizes.isSome := by rw [hmem]; rfl
    rw [Folder.fileSize, if_pos ⟨hsome, hlast⟩] at hsize
    have hspan : get_substream_span folder i = some (o, size) := by
      simp only [get_substream_span, hmin, ho, Option.bind_eq_bind, Option.bind_some, if_pos hlast,
        hsize, Option.pure_def]
    exact iff_of_true ⟨o, hspan⟩ fun heq ↦ absurd heq (Nat.ne_of_lt hlast)
  · have hi' : i = folder.count - 1 := by omega
    have hmin : min i (folder.count - 1) = folder.count - 1 := by omega
    rw [Folder.fileSize, if_neg fun h ↦ hlast h.2] at hsize
    obtain ⟨o, ho⟩ : ∃ o, folder.offset (folder.count - 1) = some o := by
      obtain hone | hmore := Nat.lt_or_ge 1 folder.count
      · obtain ⟨sizes, hmem, hcount⟩ := hsizes hone
        exact offset_isSome hmem hcount (by omega)
      · have hzero : folder.count - 1 = 0 := by omega
        rw [hzero]
        exact ⟨0, rfl⟩
    have hspan : get_substream_span folder i = some (o, size - o) := by
      simp only [get_substream_span, hmin, ho, Option.bind_eq_bind, Option.bind_some, if_neg hlast,
        hsize, Option.pure_def]
    have hend : i + 1 = folder.count := by omega
    rw [hspan, ho]
    constructor
    · rintro ⟨off, heq⟩ -
      obtain ⟨-, hsub⟩ := Prod.mk.inj (Option.some.inj heq)
      have hsum := UInt64.sub_add_cancel size o
      have hback := UInt64.add_sub_cancel o size
      rw [hsub, UInt64.add_comm] at hsum
      rw [hsum, UInt64.sub_self] at hback
      rw [← hback]
    · intro hzero
      obtain rfl := Option.some.inj (hzero hend)
      exact ⟨0, by rw [UInt64.sub_zero]⟩

end Sizes

section Claim

variable {folders : List Folder} {files : List FileInfo}

theorem placed_of_empty {file : FileInfo} (h : file.empty_stream = true) (o : Option Substream) :
    file.placed o = some file := by
  cases o with
  | none => rfl
  | some s => exact if_pos h

theorem mapTo_eq_some {file file' : FileInfo} {folder : Folder} {f i : ℕ} :
    file.mapTo folder f i = some file' ↔ ∃ size crc, folder.fileSize i = some size ∧
      folder.fileCrc i file.crc = some crc ∧
      { file with
        folder_index := UInt32.ofNat f
        substream_index := UInt32.ofNat i
        size
        crc } = file' := by
  simp only [FileInfo.mapTo, Option.bind_eq_bind, Option.bind_eq_some_iff, Option.pure_def,
    Option.some.injEq]
  constructor
  · rintro ⟨size, hsize, crc, hcrc, heq⟩
    exact ⟨size, crc, hsize, hcrc, heq⟩
  · rintro ⟨size, crc, hsize, hcrc, heq⟩
    exact ⟨size, hsize, crc, hcrc, heq⟩

theorem fileCrc_isSome_iff {folder : Folder} {i : ℕ} {crc : UInt32} :
    (∃ crc', folder.fileCrc i crc = some crc') ↔
    ∀ crcs ∈ folder.substream_crcs, i < crcs.length := by
  rw [Folder.fileCrc]
  cases folder.substream_crcs with
  | none => exact iff_of_true ⟨crc, rfl⟩ fun _ h ↦ nomatch h
  | some crcs =>
    constructor
    · rintro ⟨crc', h⟩ crcs' hmem
      obtain rfl := Option.some.inj hmem
      exact (List.getElem?_eq_some_iff.mp h).1
    · intro h
      exact ⟨_, List.getElem?_eq_getElem (h crcs rfl)⟩

theorem Parsed.gets_iff (h : Parsed folders files) {s : Substream} {k : ℕ}
    (hs : (substreams folders 0)[k]? = some s) {file : FileInfo}
    (hempty : file.empty_stream = false) :
    (∃ file', file.placed (some s) = some file' ∧ file'.Gets (some s)) ↔ s.Sized := by
  obtain ⟨hmem, -, -, hi⟩ := mem_substreams (List.mem_of_getElem? hs)
  have hplaced : file.placed (some s) = file.mapTo s.folder s.f s.i :=
    if_neg (by rw [hempty]; decide)
  have hspan (size : UInt64) := @span_eq_iff s.folder s.i size hi (h.sizes s.folder hmem)
  rw [hplaced, Substream.Sized, ← fileCrc_isSome_iff]
  constructor
  · rintro ⟨file', hmap, -, -, off⟩
    obtain ⟨size, crc, hsize, hcrc, rfl⟩ := mapTo_eq_some.mp hmap
    refine ⟨fun hlast ↦ ⟨?_, (hspan _ hsize).mp off hlast⟩, crc, hcrc⟩
    rw [Folder.fileSize, if_neg fun hless ↦ Nat.ne_of_lt hless.2 hlast] at hsize
    rw [hsize]
    rfl
  · rintro ⟨hlast, crc, hcrc⟩
    obtain ⟨size, hsize⟩ : ∃ size, s.folder.fileSize s.i = some size := by
      by_cases hend : s.i + 1 = s.folder.count
      · rw [Folder.fileSize, if_neg fun hless ↦ Nat.ne_of_lt hless.2 hend]
        exact Option.isSome_iff_exists.mp (hlast hend).1
      · obtain ⟨sizes, hsizes, hcount⟩ := h.sizes s.folder hmem (by omega)
        rw [Folder.fileSize, if_pos ⟨by rw [hsizes]; rfl, by omega⟩]
        exact substreamSize_isSome hsizes hcount (by omega)
    exact ⟨_, mapTo_eq_some.mpr ⟨size, crc, hsize, hcrc, rfl⟩, rfl, rfl,
      (hspan _ hsize).mpr fun hend ↦ (hlast hend).2⟩

theorem Parsed.index_inj (h : Parsed folders files) {s t : Substream}
    (hs : s ∈ substreams folders 0) (ht : t ∈ substreams folders 0) :
    UInt32.ofNat s.f ≠ 0xFFFFFFFF ∧ (UInt32.ofNat s.f = UInt32.ofNat t.f → s.f = t.f) ∧
      (UInt32.ofNat s.i = UInt32.ofNat t.i → s.i = t.i) := by
  have hfew := h.few
  obtain ⟨-, -, hsf, hsi⟩ := mem_substreams hs
  obtain ⟨-, -, htf, hti⟩ := mem_substreams ht
  have hsc := s.folder.count_lt
  have htc := t.folder.count_lt
  have hinj {a b : ℕ} (ha : a < 2 ^ 32) (hb : b < 2 ^ 32)
      (heq : UInt32.ofNat a = UInt32.ofNat b) : a = b := by
    have hnat := congrArg UInt32.toNat heq
    rwa [UInt32.toNat_ofNat_of_lt' ha, UInt32.toNat_ofNat_of_lt' hb] at hnat
  refine ⟨?_, hinj (by omega) (by omega), hinj (by omega) (by omega)⟩
  intro heq
  have hnat := congrArg UInt32.toNat heq
  rw [UInt32.toNat_ofNat_of_lt' (by omega : s.f < 2 ^ 32)] at hnat
  have hmax : (0xFFFFFFFF : UInt32).toNat = 2 ^ 32 - 1 := rfl
  omega

/-- The files get their sub-streams exactly if none without a stream stands in front of one that is
to get one, the sizes and CRCs are there, and the last sub-stream of a folder has nothing in front
of it. -/
theorem maps_well_iff (h : Parsed folders files) :
    MapsWell folders files ↔ Mappable folders files := by
  rw [MapsWell, map_files_eq]
  simp only [mapped_eq_some]
  constructor
  · rintro ⟨files', ⟨hlen, hplaced⟩, -, hgets⟩ g file hg hempty s hs
    obtain ⟨file', hg', hfile'⟩ := hplaced g file hg
    have hgot := hgets g file file' hg hg'
    rw [if_neg (by rw [hempty]; decide), hs] at hgot
    cases ht : (substreams folders 0)[g]? with
    | none =>
      rw [ht] at hfile'
      obtain rfl := Option.some.inj hfile'
      have hmem := List.mem_of_getElem? hs
      exact absurd (hgot.1.symm.trans (h.fresh file (List.mem_of_getElem? hg)).1)
        (h.index_inj hmem hmem).1
    | some t =>
      rw [ht] at hfile'
      have hmap : file.mapTo t.folder t.f t.i = some file' := by
        rwa [FileInfo.placed, if_neg (by rw [hempty]; decide)] at hfile'
      obtain ⟨size, crc, -, -, rfl⟩ := mapTo_eq_some.mp hmap
      obtain ⟨-, hf, hi⟩ := h.index_inj (List.mem_of_getElem? ht) (List.mem_of_getElem? hs)
      have hrank := substreams_inj hs ht (hf hgot.1).symm (hi hgot.2.1).symm
      refine ⟨hrank, ?_⟩
      obtain rfl := Option.some.inj ((hrank ▸ hs).symm.trans ht)
      exact (h.gets_iff hs hempty).mp ⟨_, hfile', hgot⟩
  · intro hmappable
    have hplace (g : ℕ) (file : FileInfo) (hg : files[g]? = some file) :
        ∃ file', file.placed (substreams folders 0)[g]? = some file' ∧
          if file.empty_stream then file'.folder_index = 0xFFFFFFFF ∧ file'.size = 0
          else file'.Gets (substreams folders 0)[rank files g]? := by
      have hfresh := h.fresh file (List.mem_of_getElem? hg)
      cases hempty : file.empty_stream with
      | true => exact ⟨file, placed_of_empty hempty _, hfresh⟩
      | false =>
        cases hs : (substreams folders 0)[rank files g]? with
        | none =>
          have hnone : (substreams folders 0)[g]? = none := by
            rw [List.getElem?_eq_none_iff] at hs ⊢
            exact Nat.le_trans hs (rank_le files g)
          rw [hnone]
          exact ⟨file, rfl, hfresh.1⟩
        | some s =>
          obtain ⟨hrank, hsized⟩ := hmappable g file hg hempty s hs
          obtain ⟨file', hplaced, hgets⟩ := (h.gets_iff hs hempty).mpr hsized
          rw [hrank] at hs
          rw [hs]
          exact ⟨file', hplaced, hgets⟩
    choose! result hplaced hgets using hplace
    have hget (g : ℕ) (file : FileInfo) (hg : files[g]? = some file) :
        (files.mapIdx result)[g]? = some (result g file) := by
      rw [List.getElem?_mapIdx, hg]
      rfl
    refine ⟨files.mapIdx result, ⟨List.length_mapIdx, ?_⟩, List.length_mapIdx, ?_⟩
    · exact fun g file hg ↦ ⟨_, hget g file hg, hplaced g file hg⟩
    · intro g file file' hg hg'
      obtain rfl := Option.some.inj ((hget g file hg).symm.trans hg')
      exact hgets g file hg

/-- A folder of one coder whose output is cut into sub-streams of these sizes. -/
def Folder.cut (unpack_size : UInt64) (sizes : List UInt64) : Folder where
  coders := [⟨[0x21], 1, 1, none⟩]
  bind_pairs := []
  packed_indices := [0]
  first_packed_stream := 0
  unpack_sizes := some [unpack_size]
  total_out_streams := 1
  num_substreams := UInt32.ofNat (sizes.length + 1)
  substream_sizes := some sizes
  substream_crcs := none

def FileInfo.fresh (empty_stream : Bool) : FileInfo where
  name := none
  size := 0
  crc := 0xFFFFFFFF
  empty_stream
  empty_file := false
  folder_index := 0xFFFFFFFF
  substream_index := 0

/-- Two folders, the first one with an empty sub-stream in front of its last, and a directory behind
the files. -/
theorem maps_well_few :
    MapsWell [.cut 7 [0], .cut 9 []] [.fresh false, .fresh false, .fresh false, .fresh true] := by
  refine (maps_well_iff ⟨by decide, ?_, by decide⟩).mpr ?_
  · intro folder hmem hcount
    rcases List.mem_cons.mp hmem with rfl | hmem
    · exact ⟨[0], rfl, by decide⟩
    · obtain rfl := List.mem_singleton.mp hmem
      exact ⟨[], rfl, by decide⟩
  · rintro (_ | _ | _ | _ | g) file hg hempty s hs
    · obtain rfl := Option.some.inj hs
      exact ⟨rfl, fun h ↦ absurd h (by decide), fun _ h ↦ nomatch h⟩
    · obtain rfl := Option.some.inj hs
      exact ⟨rfl, fun _ ↦ by decide, fun _ h ↦ nomatch h⟩
    · obtain rfl := Option.some.inj hs
      exact ⟨rfl, fun _ ↦ by decide, fun _ h ↦ nomatch h⟩
    · obtain rfl := Option.some.inj hg
      exact nomatch hempty
    · exact nomatch hg

/-- A directory in front of a file takes the file's sub-stream. -/
theorem not_maps_well : ¬∀ (folders : List Folder) (files : List FileInfo),
    Parsed folders files → MapsWell folders files := by
  intro h
  obtain ⟨files', hmap, -, hgets⟩ := h [.cut 5 []] [.fresh true, .fresh false]
    ⟨by decide, fun _ hmem _ ↦ ⟨[], List.mem_singleton.mp hmem ▸ rfl,
      List.mem_singleton.mp hmem ▸ by decide⟩, by decide⟩
  have hcode : map_files_to_substreams [.cut 5 []] [.fresh true, .fresh false] =
      some [.fresh true, .fresh false] := by decide
  obtain rfl := Option.some.inj (hcode.symm.trans hmap)
  exact absurd (hgets 1 (.fresh false) (.fresh false) rfl rfl).1 (by decide)

end Claim

end Libobject.SevenZip
