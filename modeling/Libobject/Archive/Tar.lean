import Libobject.Core.File
import Libobject.Core.FileSystem
import Libobject.Core.String
import Libobject.Lib.Octal
import Libobject.Lib.Refine
import Libobject.Lib.Scan

/-!
# Tar archives

An archive is a row of blocks of 512 bytes: for each entry a header and its content, filled up with
zeros, and zero blocks at the end. A file is added in front of the last two blocks. Numbers are C
integers, and one that is too large is undefined; so is a field that does not end in its block, and
a listing that does not come to an end.

The paths are put together in strings. The directory of a file that is extracted is made where it
is missing, whatever comes of that.
-/

namespace Libobject

/-- What the adding of files can meet under a name. -/
inductive Node
  | missing
  | file (content : List UInt8) (mtime : ℕ) (readable : Bool)
  | directory (size mtime : ℕ)

namespace Tar

open FileSystem

/-- `tmp` takes the name of a file that is added, `file_name` the path of one that is extracted. -/
structure Archive where
  file : File
  tmp : Str
  file_name : Str

def zeros (n : ℕ) : List UInt8 := List.replicate n 0

/-- The fields of `struct posix_tar_header` that are written; the others stay zero. -/
structure Header where
  name : Text
  mode : Text
  size : Text
  mtime : Text
  chksum : Text
  typeflag : UInt8
  magic : Text

/-- Between the fields are `uid` and `gid`, `linkname`, and what follows `magic`. -/
def Header.bytes (h : Header) : List UInt8 :=
  h.name ++ h.mode ++ zeros 16 ++ h.size ++ h.mtime ++ h.chksum ++ h.typeflag :: zeros 100 ++
    h.magic ++ zeros 247

/-- `snprintf` of a text into a field of `n` bytes, all of them zero. -/
def field (n : ℕ) (s : Text) : Text := s.take (n - 1) ++ zeros (n - min s.length (n - 1))

/-- The bytes of a header, added up with the checksum field taken as spaces. -/
def checksum (header : List UInt8) : ℕ :=
  ((header.take 148 ++ List.replicate 8 0x20 ++ header.drop 156).map UInt8.toNat).sum

/-- Six digits and a zero are printed over eight spaces. -/
def add_check_sum (h : Header) : Header :=
  { h with chksum := Octal.print 6 (checksum h.bytes) ++ [0, 0x20] }

/-- The header before its type is set; `size` is an `int`, printed as an unsigned one. -/
def header (name : Text) (size : BitVec 32) (mtime : ℕ) : Header :=
  add_check_sum
    { name := field 100 name
      mode := Scan.ascii "0000777" ++ [0]
      size := field 12 (Octal.print 11 size.toNat)
      mtime := field 12 (Octal.print 11 mtime)
      chksum := zeros 8
      typeflag := 0
      magic := Scan.ascii "ustar  " ++ [0] }

/-- One block of content after another, the last one filled up with zeros. -/
def writeBlocks : ℕ → File → List UInt8 → File
  | 0, a, _ => a
  | n + 1, a, content =>
    writeBlocks n (a.write ((content ++ zeros 512).take 512)) (content.drop 512)

/-- The archive, what is returned and the header that was written. What `File` opens under a name
that begins with `~`, or that does not fit its buffer, is not known. -/
def add_file (ar : Archive) (adding_path file_name : Text) (node : Node) :
    Option (Archive × ℤ × Option (List UInt8)) := do
  let (size, a) := ar.file.get_size
  if size < 0 then return ({ ar with file := a }, -1, none)
  else
    let a := if size ≠ 0 then a.seek (-1024) .fromEnd else a
    let tmp ← ar.tmp.reset.assign file_name
    let ar := { ar with file := a, tmp := tmp }
    match Disk.fs_get_relative_path (Scan.cString tmp.value) adding_path, node with
    | .error .thrown, _ | .ok _, .missing => return (ar, -1, none)
    | .error _, _ => none
    | .ok name, .directory size mtime =>
      let h := { header name (BitVec.ofNat 32 size) mtime with typeflag := 53 }
      return ({ ar with file := (a.write h.bytes).write (zeros 1024) }, 1, some h.bytes)
    | .ok name, .file content mtime readable =>
      let size := BitVec.ofNat 32 content.length
      let h := header name size mtime
      let a := a.write h.bytes
      if file_name.head? = some 126 ∨ 1024 ≤ file_name.length then none
      else if readable then
        let a := writeBlocks ((size.toInt.toNat + 511) / 512) a content
        return ({ ar with file := a.write (zeros 1024) }, 1, some h.bytes)
      else return ({ ar with file := a }, -1, some h.bytes)

/-- What an `int` can hold. -/
def int (v : ℤ) : Option ℤ := if -2147483648 ≤ v ∧ v < 2147483648 then some v else none

/-- What a `char` is worth. -/
def char (c : UInt8) : ℤ := if c < 128 then c.toNat else (c.toNat : ℤ) - 256

/-- `while (*p) size = (size * 8) + (*p++ - '0')` -/
def readSize : List UInt8 → ℤ → Option ℤ
  | [], _ => none
  | c :: p, size =>
    if c = 0 then some size
    else do
      let eight ← int (size * 8)
      let size ← int (eight + (char c - 48))
      readSize p size

structure Info where
  file_name : Text
  size : ℤ
  offset : ℤ
  deriving DecidableEq

/-- The next 512 bytes, over what the buffer holds. -/
def readBuf (a : File) (buf : List UInt8) : List UInt8 × File :=
  let (bs, a) := a.read 512
  (bs ++ buf.drop bs.length, a)

/-- Behind the header, and behind the content unless the entry is a directory. -/
def nextOffset (typeflag : Option UInt8) (offset size : ℤ) : Option ℤ :=
  if typeflag = some 53 then int (offset + 512)
  else do
    let up ← int (size + 511)
    int (offset + (512 + up.tdiv 512 * 512))

/-- The loop of `__list`, at most `n` times around. -/
def listFrom : ℕ → File → List UInt8 → ℤ → Option (List Info × File)
  | 0, _, _, _ => none
  | n + 1, a, buf, offset =>
    let (buf, a) := readBuf (a.seek offset .set) buf
    if buf.head? = some 0 then some ([], a)
    else do
      let size ← readSize (buf.drop 124) 0
      let next ← nextOffset buf[156]? offset size
      if 0 ∈ buf then
        let (infos, a) ← listFrom n (a.seek size .cur) buf next
        some (⟨Scan.cString buf, size, offset⟩ :: infos, a)
      else none

def list (a : File) : Option (List Info × File) := listFrom (a.bytes.length + 1) a (zeros 512) 0

/-- What the extraction of an entry makes: a directory, or a file with its content. -/
inductive Extracted
  | dir (path : Text)
  | file (path : Text) (content : List UInt8)
  deriving DecidableEq

/-- `while (len)`, in pieces of at most 512 bytes. -/
def readBlocks : ℕ → ℕ → File → List UInt8 → List UInt8 × File
  | 0, _, a, _ => ([], a)
  | n + 1, len, a, buf =>
    let read_len := min 512 len
    let (bs, a) := a.read read_len
    let buf := bs ++ buf.drop bs.length
    let a := if read_len < 512 then a.seek (512 - read_len : ℕ) .cur else a
    let (content, a) := readBlocks n (len - read_len) a buf
    (buf.take read_len ++ content, a)

/-- The path of what is extracted, put together in `file_name`. -/
def joined (s : Str) (extracting_path name : Text) : Option Str := do
  let s ← s.assign extracting_path
  s.append (some name) name.length

/-- What is in front of the last separator, or all of the path. -/
def fs_get_path_and_name (path : Text) : Text :=
  if 47 ∈ path then (path.rdropWhile (· ≠ 47)).dropLast
  else if 92 ∈ path then (path.rdropWhile (· ≠ 92)).dropLast
  else path

/-- Whether the file can be opened, its directory once looked for and made; the path has to fit the
buffer `tmp`. -/
def opening (sys : System) (path : Text) : Option Bool :=
  if 512 ≤ path.length then none
  else do
    let _ ← (sys.provide (fs_get_path_and_name path)).toOption
    let e ← (sys.disk.expand 1024 path).toOption
    return sys.opens e

/-- How far the extraction of an entry gets before it copies anything. -/
inductive Start
  | dir (path : Text)
  | refused
  | file (path : Text) (len : ℤ)

def extract_start (ar : Archive) (extracting_path : Text) (sys : System) (offset : ℤ) :
    Option (Archive × List UInt8 × Start) := do
  let (buf, a) := readBuf ((ar.file.seek 0 .set).seek offset .cur) (zeros 512)
  let len ← readSize (buf.drop 124) 0
  if 0 ∉ buf then none
  else
    let name ← joined ar.file_name extracting_path (Scan.cString buf)
    let ar := { ar with file := a, file_name := name }
    if buf[156]? = some 53 then
      let _ ← (sys.fs_mkdir (Scan.cString buf)).toOption
      return (ar, buf, .dir (Scan.cString buf))
    else
      let path := Scan.cString name.value
      let opened ← opening sys path
      return (ar, buf, if opened then .file path len else .refused)

/-- `None` is a file that cannot be opened for writing. -/
def extract_file (ar : Archive) (extracting_path : Text) (sys : System) (info : Info) :
    Option (Archive × Option Extracted) := do
  let (ar, buf, start) ← extract_start ar extracting_path sys info.offset
  match start with
  | .dir path => return (ar, some (.dir path))
  | .refused => return (ar, none)
  | .file path len =>
    if len < 0 then none
    else
      let (content, a) := readBlocks ((len.toNat + 511) / 512) len.toNat ar.file buf
      return ({ ar with file := a }, some (.file path content))

/-- The entries are extracted one after another until one fails; `sys` is the system at each. -/
def extract_files (ar : Archive) (extracting_path : Text) (sys : ℤ → System) :
    List Info → Option (Archive × List Extracted × ℤ)
  | [] => some (ar, [], 1)
  | info :: infos => do
    let (ar, x) ← extract_file ar extracting_path (sys info.offset) info
    match x with
    | none => return (ar, [], -1)
    | some x =>
      let (ar, xs, ret) ← extract_files ar extracting_path sys infos
      return (ar, x :: xs, ret)

inductive Call
  | add_file (adding_path file_name : CText) (node : Node)
  | list
  | extract (extracting_path : CText) (sys : ℤ → System)

inductive Answer
  | added (ret : ℤ) (header : Option (List UInt8))
  | infos (infos : List Info)
  | extracted (files : List Extracted) (ret : ℤ)
  deriving DecidableEq

def call (ar : Archive) : Call → Option (Archive × Answer)
  | .add_file adding_path file_name node => do
    let (ar, ret, header) ← add_file ar adding_path.1 file_name.1 node
    return (ar, .added ret header)
  | .list => do
    let (infos, a) ← list ar.file
    return ({ ar with file := a }, .infos infos)
  | .extract extracting_path sys => do
    let (infos, a) ← list ar.file
    let (ar, files, ret) ← extract_files { ar with file := a } extracting_path.1 sys infos
    return (ar, .extracted files ret)

/-! ## What it is for -/

/-- An entry as a user of the archive sees it; a directory has no content. -/
structure Entry where
  name : Text
  size : ℕ
  directory : Bool
  content : List UInt8

/-- The checksum of a header is that of its final bytes. -/
def Checked (header : List UInt8) : Prop :=
  Octal.value (((header.drop 148).take 8).takeWhile fun c ↦ Octal.IsDigit c) = checksum header

/-- What a file that was added is in the archive. -/
def entryOf (adding_path file_name : Text) : Node → Entry
  | .missing => ⟨file_name.drop adding_path.length, 0, false, []⟩
  | .file content _ _ => ⟨file_name.drop adding_path.length, content.length, false, content⟩
  | .directory size _ => ⟨file_name.drop adding_path.length, size, true, []⟩

/-- An extracted entry is a directory, or the file with its content under the extracting path. -/
def Matches (extracting_path : Text) (e : Entry) : Extracted → Prop
  | .dir _ => e.directory = true
  | .file path content =>
    e.directory = false ∧ path = extracting_path ++ e.name ∧ content = e.content

/-- A row of entries: an added file is the last one, the listing shows all of them and extraction
reproduces them. -/
def row : Spec (List Entry) Call Answer where
  ok es
    | .add_file _ _ _, .added _ header => ∀ h ∈ header, Checked h
    | .list, .infos infos =>
      infos.map (fun i ↦ (i.file_name, i.size)) = es.map fun e ↦ (e.name, (e.size : ℤ))
    | .extract extracting_path _, .extracted files ret =>
      ret = 1 ∧ files.length = es.length ∧
        ∀ x ∈ es.zip files, Matches extracting_path.1 x.1 x.2
    | _, _ => False
  next es
    | .add_file adding_path file_name node, .added ret _ =>
      if ret = 1 then es ++ [entryOf adding_path.1 file_name.1 node] else es
    | _, _ => es

/-- The bytes behind the content that fill up its last block. -/
def fill (size : ℕ) : ℕ := 512 * ((size + 511) / 512) - size

/-- What a header has to be for an entry with a name of less than 100 bytes, in its place; the size
ends with a zero. -/
structure Plain (h : List UInt8) (e : Entry) : Prop where
  length_eq : h.length = 512
  name_eq : ∃ rest, h = e.name ++ 0 :: rest
  name_ne : e.name ≠ []
  name_notMem : 0 ∉ e.name
  name_lt : e.name.length < 100
  no_more_name : h[345]? = some 0
  size_eq : ∃ ds rest, h.drop 124 = ds ++ 0 :: rest ∧ (∀ c ∈ ds, Octal.IsDigit c) ∧
    Octal.value ds = e.size
  size_lt : e.size < 2147483648
  type_iff : h[156]? = some 53 ↔ e.directory = true
  content_eq : e.content.length = if e.directory = true then 0 else e.size

/-- The bytes of the entries. -/
def Records : List Entry → List UInt8 → Prop
  | [], bs => bs = []
  | e :: es, bs => ∃ h pad rest, bs = h ++ (e.content ++ (pad ++ rest)) ∧ Plain h e ∧
      pad.length = (if e.directory = true then 0 else fill e.size) ∧ Records es rest

/-- An archive that ends in `n` blocks of zeros. -/
def Valid (n : ℕ) (es : List Entry) (bs : List UInt8) : Prop :=
  ∃ records, Records es records ∧ bs = records ++ zeros (512 * n)

/-- The entries, wherever they begin, can be extracted one after the other: their paths fit the
string, the directories that are looked for have paths that fit a buffer, and the files can be
opened. -/
def Extracts (bytes : List UInt8) (extracting_path : Text) (sys : ℤ → System) :
    Str → List Info → Prop
  | _, [] => True
  | s, i :: infos => ∃ s' ∈ joined s extracting_path i.file_name,
    (if bytes[i.offset.toNat + 156]? = some 53 then
      ((sys i.offset).fs_mkdir i.file_name).toOption.isSome = true
    else opening (sys i.offset) (extracting_path ++ i.file_name) = some true) ∧
      Extracts bytes extracting_path sys s' infos

/-- The path that files are added from is not empty, and a string takes the name. A file that is
added is no directory, can be read under a name that is not expanded and has a relative name of 1
to 99 bytes, and the archive stays small enough for its size to be a C integer. -/
def Regular (ar : Archive) : Call → Prop
  | .add_file adding_path file_name node =>
    adding_path.1 ≠ [] ∧ (ar.tmp.reset.assign file_name.1).isSome ∧
      ∀ name ∈ (Disk.fs_get_relative_path file_name.1 adding_path.1).toOption,
        match node with
        | .missing => True
        | .directory _ _ => False
        | .file content _ readable =>
          (file_name.1.head? ≠ some 126 ∧ file_name.1.length < 1024) ∧ readable = true ∧
            (name ≠ [] ∧ name.length < 100) ∧
              ar.file.bytes.length - 1024 +
                  (512 + (content.length + fill content.length) + 1024) < 2147483648
  | .list => True
  | .extract extracting_path sys => ∀ infos ∈ list ar.file,
    Extracts ar.file.bytes extracting_path.1 sys ar.file_name infos.1

/-- A string as its operations leave it. -/
def Sound (s : Str) : Prop := Str.Holds s (Scan.cString s.value)

/-- The file has the entries and ends in two blocks of zeros, or it is a new one. -/
structure Kept (a : File) (es : List Entry) : Prop where
  bytes_eq : Valid 2 es a.bytes ∨ a.bytes = [] ∧ es = []
  length_lt : a.bytes.length < 2147483648

/-- An archive of the entries. -/
structure Holds (ar : Archive) (es : List Entry) : Prop where
  file : Kept ar.file es
  tmp : Sound ar.tmp
  file_name : Sound ar.file_name

section Records

@[simp] theorem length_zeros (n : ℕ) : (zeros n).length = n := List.length_replicate

theorem records_append {es es' : List Entry} {x y : List UInt8} (hx : Records es x)
    (hy : Records es' y) : Records (es ++ es') (x ++ y) := by
  induction es generalizing x with
  | nil =>
    rw [Records] at hx
    subst hx
    exact hy
  | cons e es ih =>
    obtain ⟨h, pad, rest, rfl, hplain, hpad, hrest⟩ := hx
    refine ⟨h, pad, rest ++ y, ?_, hplain, hpad, ih hrest⟩
    simp only [List.append_assoc]

theorem int_natCast {v : ℕ} (h : v < 2147483648) : int (v : ℤ) = some (v : ℤ) := by
  apply if_pos
  omega

theorem char_digit {c : UInt8} (h : Octal.IsDigit c) : char c - 48 = ((c.toNat - 48 : ℕ) : ℤ) := by
  obtain ⟨hlow, hhigh⟩ := h
  have hsmall : c < 128 := by
    rw [UInt8.lt_iff_toNat_lt]
    exact Nat.lt_trans hhigh (by decide)
  rw [char, if_pos hsmall]
  omega

theorem readSize_digits {ds rest : List UInt8} (hds : ∀ c ∈ ds, Octal.IsDigit c) {v : ℕ}
    (hlt : Octal.valueFrom v ds < 2147483648) :
    readSize (ds ++ 0 :: rest) v = some (Octal.valueFrom v ds : ℤ) := by
  induction ds generalizing v with
  | nil => simp [readSize, Octal.valueFrom]
  | cons c ds ih =>
    have hdigit := hds c List.mem_cons_self
    have hne : c ≠ 0 := by
      rintro rfl
      exact absurd hdigit (by decide)
    rw [Octal.valueFrom_cons] at hlt ⊢
    have hle := Octal.le_valueFrom ds (v * 8 + (c.toNat - 48))
    have height : int ((v : ℤ) * 8) = some ((v * 8 : ℕ) : ℤ) := by
      rw [← int_natCast (by omega)]
      push_cast
      rfl
    have hsum : int (((v * 8 : ℕ) : ℤ) + ((c.toNat - 48 : ℕ) : ℤ)) =
        some ((v * 8 + (c.toNat - 48) : ℕ) : ℤ) := by
      rw [← int_natCast (by omega), Nat.cast_add]
    have hrest := ih (fun d hd ↦ hds d (List.mem_cons_of_mem c hd)) hlt
    rw [List.cons_append, readSize, if_neg hne, char_digit hdigit, height, Option.bind_eq_bind,
      Option.bind_some, hsum, Option.bind_some, hrest]

theorem Plain.readSize {h : List UInt8} {e : Entry} (hplain : Plain h e) :
    Tar.readSize (h.drop 124) 0 = some (e.size : ℤ) := by
  obtain ⟨ds, rest, hdrop, hds, hvalue⟩ := hplain.size_eq
  have hlt := hplain.size_lt
  rw [← hvalue] at hlt
  rw [hdrop, ← hvalue]
  exact readSize_digits hds hlt

theorem Plain.cString {h : List UInt8} {e : Entry} (hplain : Plain h e) :
    Scan.cString h = e.name ∧ 0 ∈ h ∧ h.head? ≠ some 0 := by
  obtain ⟨rest, rfl⟩ := hplain.name_eq
  refine ⟨Scan.cString_append hplain.name_notMem rest, by simp, ?_⟩
  obtain ⟨c, name, hname⟩ := List.exists_cons_of_ne_nil hplain.name_ne
  have hnot := hplain.name_notMem
  rw [hname] at hnot ⊢
  rw [List.mem_cons, not_or] at hnot
  intro hhead
  exact hnot.1 (Option.some.inj hhead).symm

/-- The bytes of an entry. -/
def extent (e : Entry) : ℕ :=
  512 + (e.content.length + if e.directory = true then 0 else fill e.size)

/-- What the listing shows of entries that begin at an offset. -/
def infosFrom : ℕ → List Entry → List Info
  | _, [] => []
  | offset, e :: es => ⟨e.name, e.size, offset⟩ :: infosFrom (offset + extent e) es

variable {a : File} {x y h : List UInt8} {e : Entry}

theorem readBuf_header (hbytes : a.bytes = x ++ (h ++ y)) (hpos : a.pos = x.length)
    (hlen : h.length = 512) {buf : List UInt8} (hbuf : buf.length = 512) :
    readBuf a buf = (h, { a with pos := x.length + 512 }) := by
  have htake : (h ++ y).take 512 = h := List.take_left' hlen
  rw [readBuf, File.read_at hbytes hpos, htake]
  dsimp only
  rw [hlen, ← hbuf, List.drop_length, List.append_nil]

theorem Plain.next (hplain : Plain h e) {offset : ℕ} (hlt : offset + extent e + 512 < 2147483648) :
    nextOffset h[156]? offset e.size = some ((offset + extent e : ℕ) : ℤ) := by
  have hcontent := hplain.content_eq
  rw [nextOffset]
  by_cases hdir : e.directory = true
  · rw [if_pos hdir] at hcontent
    rw [extent, hcontent, if_pos hdir] at hlt ⊢
    rw [if_pos (hplain.type_iff.mpr hdir), ← int_natCast (by omega)]
    rfl
  · rw [if_neg hdir] at hcontent
    rw [extent, hcontent, if_neg hdir, fill] at hlt ⊢
    have hup : int ((e.size : ℤ) + 511) = some ((e.size + 511 : ℕ) : ℤ) := by
      rw [← int_natCast (by omega)]
      rfl
    have hdiv : ((e.size + 511 : ℕ) : ℤ).tdiv 512 = ((e.size + 511) / 512 : ℕ) := rfl
    have hsum : (offset : ℤ) + (512 + ((e.size + 511) / 512 : ℕ) * 512) =
        ((offset + (512 + (e.size + (512 * ((e.size + 511) / 512) - e.size))) : ℕ) : ℤ) := by
      omega
    rw [if_neg (fun h ↦ hdir (hplain.type_iff.mp h)), hup, Option.bind_eq_bind, Option.bind_some,
      hdiv, hsum]
    exact int_natCast (by omega)

theorem listFrom_records {es : List Entry} {records tail : List UInt8}
    (hr : Records es records) (hbytes : a.bytes = x ++ (records ++ tail))
    (hzero : tail.head? = some 0) (htail : 512 ≤ tail.length)
    (hlt : a.bytes.length < 2147483648) {n : ℕ} (hn : es.length < n) {buf : List UInt8}
    (hbuf : buf.length = 512) :
    ∃ a', listFrom n a buf x.length = some (infosFrom x.length es, a') ∧ a'.bytes = a.bytes := by
  induction es generalizing records x a n buf with
  | nil =>
    obtain ⟨n, rfl⟩ : ∃ k, n = k + 1 := ⟨n - 1, by omega⟩
    rw [Records] at hr
    subst hr
    have htake : (tail.take 512).length = 512 := List.length_take_of_le htail
    have hread := File.read_at (f := a.seek x.length .set) (by rw [File.seek_set]; exact hbytes)
      (by rw [File.seek_set]) 512
    rw [List.nil_append] at hread
    have hhead : (tail.take 512 ++ buf.drop (tail.take 512).length).head? = some 0 := by
      obtain ⟨rest, rfl⟩ := List.head?_eq_some_iff.mp hzero
      rfl
    refine ⟨(readBuf (a.seek x.length .set) buf).2, ?_, ?_⟩
    · rw [listFrom]
      simp only [readBuf, hread, hhead, if_true]
      rfl
    · rw [readBuf, hread, File.seek_set]
  | cons e es ih =>
    obtain ⟨n, rfl⟩ : ∃ k, n = k + 1 := ⟨n - 1, by omega⟩
    obtain ⟨h, pad, rest, rfl, hplain, hpad, hrest⟩ := hr
    obtain ⟨hname, hmem, hhead⟩ := hplain.cString
    have hbytes' : (a.seek x.length .set).bytes =
        x ++ (h ++ (e.content ++ (pad ++ rest) ++ tail)) := by
      rw [File.seek_set, hbytes, List.append_assoc]
    have hread := readBuf_header hbytes' (by rw [File.seek_set]) hplain.length_eq hbuf
    -- the next entry begins behind this one
    have hfront : (x ++ (h ++ (e.content ++ pad))).length = x.length + extent e := by
      rw [extent, ← hpad]
      simp only [List.length_append, hplain.length_eq]
    have hsplit : a.bytes = x ++ (h ++ (e.content ++ pad)) ++ (rest ++ tail) := by
      rw [hbytes]
      simp only [List.append_assoc]
    have hroom : x.length + extent e + 512 < 2147483648 := by
      rw [hsplit, List.length_append, hfront, List.length_append] at hlt
      omega
    obtain ⟨a', hlist, ha'⟩ := ih (n := n)
      (a := ({ a with pos := x.length + 512 } : File).seek e.size .cur) hrest
      (by rw [File.seek_cur]; exact hsplit) (by rw [File.seek_cur]; exact hlt) (by simpa using hn)
      hplain.length_eq
    refine ⟨a', ?_, ?_⟩
    · rw [listFrom, hread]
      dsimp only
      rw [if_neg hhead, hplain.readSize, Option.bind_eq_bind, Option.bind_some,
        hplain.next hroom, Option.bind_some, if_pos hmem, hname]
      rw [hfront] at hlist
      rw [File.seek_set, hlist]
      rfl
    · rw [ha', File.seek_cur]

theorem readBlocks_content {content : List UInt8} {n : ℕ} (hn : n = (content.length + 511) / 512)
    (hbytes : a.bytes = x ++ (content ++ y)) (hpos : a.pos = x.length) {buf : List UInt8}
    (hbuf : buf.length = 512) :
    ∃ a', readBlocks n content.length a buf = (content, a') ∧ a'.bytes = a.bytes := by
  induction n generalizing content x a buf with
  | zero =>
    have hnil : content = [] := List.length_eq_zero_iff.mp (by omega)
    subst hnil
    exact ⟨a, rfl, rfl⟩
  | succ n ih =>
    have hle : min 512 content.length ≤ content.length := Nat.min_le_right _ _
    have htake : (content ++ y).take (min 512 content.length) =
        content.take (min 512 content.length) := List.take_append_of_le_length hle
    have hlen : (content.take (min 512 content.length)).length = min 512 content.length :=
      List.length_take_of_le hle
    have hread := File.read_at hbytes hpos (min 512 content.length)
    rw [htake, hlen] at hread
    have hfirst : (content.take (min 512 content.length) ++
        buf.drop (min 512 content.length)).take (min 512 content.length) =
          content.take (min 512 content.length) := List.take_left' hlen
    rw [readBlocks]
    simp only [hread, hlen, hfirst]
    by_cases hlast : content.length < 512
    · have hmin : min 512 content.length = content.length := Nat.min_eq_right hlast.le
      have hzero : n = 0 := by omega
      subst hzero
      rw [hmin, if_pos hlast, Nat.sub_self, List.take_length]
      refine ⟨_, by rw [readBlocks, List.append_nil], ?_⟩
      rw [File.seek_cur]
    · have hmin : min 512 content.length = 512 := Nat.min_eq_left (by omega)
      rw [hmin] at hlen ⊢
      rw [if_neg (Nat.lt_irrefl 512)]
      have hdrop : (content.drop 512).length = content.length - 512 := List.length_drop
      have hbytes' : ({ a with pos := x.length + 512 } : File).bytes =
          x ++ content.take 512 ++ (content.drop 512 ++ y) := by
        rw [hbytes, List.append_assoc, ← List.append_assoc (content.take 512),
          List.take_append_drop]
      have hpos' : ({ a with pos := x.length + 512 } : File).pos =
          (x ++ content.take 512).length := by
        rw [List.length_append, hlen]
      have hbuf' : (content.take 512 ++ buf.drop 512).length = 512 := by
        rw [List.length_append, List.length_drop, hlen, hbuf]
      obtain ⟨a', hrest, ha'⟩ := ih (by rw [hdrop]; omega) hbytes' hpos' hbuf'
      rw [hdrop] at hrest
      refine ⟨a', ?_, ha'⟩
      rw [hrest]
      dsimp only
      rw [List.take_append_drop]

/-- What the extraction of an entry makes. -/
def extracted (extracting_path : Text) (e : Entry) : Extracted :=
  if e.directory = true then .dir e.name else .file (extracting_path ++ e.name) e.content

theorem joined_holds {s s' : Str} (hs : Sound s) {extracting_path : CText} {name : Text}
    (hzero : 0 ∉ name) (h : joined s extracting_path.1 name = some s') :
    Sound s' ∧ Scan.cString s'.value = extracting_path.1 ++ name := by
  obtain ⟨s₁, hassign, happend⟩ := Option.bind_eq_some_iff.mp h
  have hs' := (Str.Holds.assign_holds hs extracting_path hassign).append_holds hzero happend
  have htext := hs'.cString
  rw [← htext] at hs'
  exact ⟨hs', htext⟩

variable {ar : Archive}

theorem extract_file_record (hplain : Plain h e) {rest : List UInt8}
    (hbytes : ar.file.bytes = x ++ (h ++ (e.content ++ rest))) (hs : Sound ar.file_name)
    {extracting_path : CText} {s : Str}
    (hjoined : joined ar.file_name extracting_path.1 e.name = some s) {sys : System}
    (hdir : e.directory = true → (sys.fs_mkdir e.name).toOption.isSome)
    (hfile : e.directory = false → opening sys (extracting_path.1 ++ e.name) = some true)
    (size : ℤ) :
    ∃ a', extract_file ar extracting_path.1 sys ⟨e.name, size, x.length⟩ =
      some ({ ar with file := a', file_name := s }, some (extracted extracting_path.1 e)) ∧
        a'.bytes = ar.file.bytes := by
  obtain ⟨hname, hmem, -⟩ := hplain.cString
  obtain ⟨-, htext⟩ := joined_holds hs hplain.name_notMem hjoined
  have hseek : (ar.file.seek 0 .set).seek (x.length : ℤ) .cur =
      { ar.file with pos := x.length } := by
    have hzero : ar.file.seek 0 .set = { ar.file with pos := 0 } := File.seek_set ar.file 0
    rw [hzero, File.seek_cur, Nat.zero_add]
  have hread := readBuf_header (a := { ar.file with pos := x.length }) hbytes rfl
    hplain.length_eq (length_zeros 512)
  rw [extract_file, extract_start, hseek, hread]
  simp only [Option.bind_eq_bind, hplain.readSize, Option.bind_some, if_neg (not_not.mpr hmem),
    hname, hjoined, htext]
  cases hdirectory : e.directory with
  | true =>
    obtain ⟨made, hmade⟩ := Option.isSome_iff_exists.mp (hdir hdirectory)
    rw [if_pos (hplain.type_iff.mpr hdirectory), hmade, extracted, if_pos hdirectory]
    exact ⟨_, rfl, rfl⟩
  | false =>
    have hnot : ¬e.directory = true := by rw [hdirectory]; exact Bool.false_ne_true
    have hcontent := hplain.content_eq
    rw [if_neg hnot] at hcontent
    have hfront : ar.file.bytes = x ++ h ++ (e.content ++ rest) := by
      rw [hbytes, List.append_assoc]
    obtain ⟨a', hblocks, ha'⟩ := readBlocks_content
      (a := { ar.file with pos := x.length + 512 }) rfl hfront
      (by rw [List.length_append, hplain.length_eq]) hplain.length_eq
    rw [if_neg (fun h ↦ hnot (hplain.type_iff.mp h)), hfile hdirectory, extracted, if_neg hnot]
    refine ⟨a', ?_, ha'⟩
    rw [hcontent] at hblocks
    have hlen : ¬(e.size : ℤ) < 0 := by omega
    simp only [Option.bind_some, Option.pure_def, if_true, hlen, if_false, Int.toNat_natCast]
    rw [hblocks]

theorem extract_files_records {es : List Entry} {records tail : List UInt8}
    (hr : Records es records) (hbytes : ar.file.bytes = x ++ (records ++ tail))
    (hs : Sound ar.file_name) {extracting_path : CText} {sys : ℤ → System}
    (hextracts : Extracts ar.file.bytes extracting_path.1 sys ar.file_name
      (infosFrom x.length es)) :
    ∃ a' s', extract_files ar extracting_path.1 sys (infosFrom x.length es) =
      some ({ ar with file := a', file_name := s' }, es.map (extracted extracting_path.1), 1) ∧
        a'.bytes = ar.file.bytes ∧ Sound s' := by
  induction es generalizing records x ar with
  | nil => exact ⟨ar.file, ar.file_name, rfl, rfl, hs⟩
  | cons e es ih =>
    obtain ⟨h, pad, rest, rfl, hplain, hpad, hrest⟩ := hr
    obtain ⟨s, hjoined, hmade, hextracts⟩ := hextracts
    have hrecord : ar.file.bytes = x ++ (h ++ (e.content ++ (pad ++ rest ++ tail))) := by
      rw [hbytes]
      simp only [List.append_assoc]
    have htype : ar.file.bytes[((x.length : ℕ) : ℤ).toNat + 156]? = some 53 ↔
        e.directory = true := by
      rw [Int.toNat_natCast, hrecord, List.getElem?_append_right (Nat.le_add_right _ _),
        Nat.add_sub_cancel_left, List.getElem?_append_left (by rw [hplain.length_eq]; omega),
        hplain.type_iff]
    have hdir (hd : e.directory = true) :
        ((sys x.length).fs_mkdir e.name).toOption.isSome := by
      rwa [if_pos (htype.mpr hd)] at hmade
    have hfile (hd : e.directory = false) :
        opening (sys x.length) (extracting_path.1 ++ e.name) = some true := by
      rwa [if_neg (by rw [htype, hd]; exact Bool.false_ne_true)] at hmade
    obtain ⟨a₁, hextracted, ha₁⟩ := extract_file_record hplain hrecord hs hjoined hdir hfile
      (e.size : ℤ)
    have hfront : (x ++ (h ++ (e.content ++ pad))).length = x.length + extent e := by
      rw [extent, ← hpad]
      simp only [List.length_append, hplain.length_eq]
    have hsplit : ({ ar with file := a₁, file_name := s } : Archive).file.bytes =
        x ++ (h ++ (e.content ++ pad)) ++ (rest ++ tail) := by
      rw [ha₁, hbytes]
      simp only [List.append_assoc]
    obtain ⟨a', s', hfiles, ha', hs'⟩ :=
      ih hrest hsplit (joined_holds hs hplain.name_notMem hjoined).1
        (by rw [hfront, ha₁]; exact hextracts)
    rw [hfront] at hfiles
    refine ⟨a', s', ?_, ha'.trans ha₁, hs'⟩
    rw [infosFrom, extract_files, hextracted, Option.bind_eq_bind, Option.bind_some]
    dsimp only
    rw [hfiles]
    rfl

end Records

section Header

theorem length_field {n : ℕ} (hn : 0 < n) (s : Text) : (field n s).length = n := by
  rw [field, zeros, List.length_append, List.length_take, List.length_replicate]
  omega

theorem field_of_lt {n : ℕ} {s : Text} (h : s.length < n) :
    field n s = s ++ 0 :: zeros (n - s.length - 1) := by
  have hpad : n - min s.length (n - 1) = n - s.length - 1 + 1 := by omega
  rw [field, List.take_of_length_le (by omega), hpad, zeros, zeros, List.replicate_succ]

def Header.front (h : Header) : List UInt8 := h.name ++ h.mode ++ zeros 16 ++ h.size ++ h.mtime

def Header.back (h : Header) : List UInt8 :=
  h.typeflag :: zeros 100 ++ h.magic ++ zeros 247

/-- All fields have the lengths that `struct posix_tar_header` gives them. -/
structure Header.Sized (h : Header) : Prop where
  name : h.name.length = 100
  mode : h.mode.length = 8
  size : h.size.length = 12
  mtime : h.mtime.length = 12
  chksum : h.chksum.length = 8
  magic : h.magic.length = 8

variable {h : Header}

theorem Header.bytes_eq (h : Header) : h.bytes = h.front ++ (h.chksum ++ h.back) := by
  simp only [Header.bytes, Header.front, Header.back, List.append_assoc, List.cons_append]

theorem Header.Sized.length_front (hs : h.Sized) : h.front.length = 148 := by
  simp only [Header.front, List.length_append, hs.name, hs.mode, length_zeros, hs.size, hs.mtime]

theorem Header.Sized.length_back (hs : h.Sized) : h.back.length = 356 := by
  simp only [Header.back, List.length_append, List.length_cons, length_zeros, hs.magic]

theorem Header.Sized.length_bytes (hs : h.Sized) : h.bytes.length = 512 := by
  rw [h.bytes_eq, List.length_append, List.length_append, hs.length_front, hs.chksum,
    hs.length_back]

theorem Header.Sized.checksum_eq (hs : h.Sized) : checksum h.bytes =
    ((h.front ++ List.replicate 8 0x20 ++ h.back).map UInt8.toNat).sum := by
  have htake : h.bytes.take 148 = h.front := by
    rw [h.bytes_eq]
    exact List.take_left' hs.length_front
  have hdrop : h.bytes.drop 156 = h.back := by
    rw [h.bytes_eq, ← List.append_assoc]
    apply List.drop_left'
    rw [List.length_append, hs.length_front, hs.chksum]
  rw [checksum, htake, hdrop]

theorem sum_le (bs : List UInt8) : (bs.map UInt8.toNat).sum ≤ 255 * bs.length := by
  induction bs with
  | nil => exact le_rfl
  | cons b bs ih =>
    have hb := b.toNat_lt
    rw [List.map_cons, List.sum_cons, List.length_cons]
    omega

theorem Header.Sized.checksum_lt (hs : h.Sized) : checksum h.bytes < 8 ^ 6 := by
  have hle := sum_le (h.front ++ List.replicate 8 0x20 ++ h.back)
  rw [List.length_append, List.length_append, hs.length_front, List.length_replicate,
    hs.length_back] at hle
  rw [hs.checksum_eq]
  omega

theorem Header.Sized.set_chksum (hs : h.Sized) {c : Text}
    (hc : c = Octal.fixed 6 (checksum h.bytes) ++ [0, 0x20]) :
    ({ h with chksum := c } : Header).Sized ∧ Checked ({ h with chksum := c } : Header).bytes := by
  have hlen : c.length = 8 := by
    rw [hc, List.length_append, Octal.length_fixed, List.length_cons, List.length_singleton]
  have hsized : ({ h with chksum := c } : Header).Sized :=
    ⟨hs.name, hs.mode, hs.size, hs.mtime, hlen, hs.magic⟩
  refine ⟨hsized, ?_⟩
  have hfield : (({ h with chksum := c } : Header).bytes.drop 148).take 8 = c := by
    rw [Header.bytes_eq, List.drop_left' hsized.length_front]
    exact List.take_left' hlen
  have hdigits : c.takeWhile (fun d ↦ decide (Octal.IsDigit d)) =
      Octal.fixed 6 (checksum h.bytes) := by
    rw [hc, List.takeWhile_append_of_pos]
    · rw [List.takeWhile_cons_of_neg (by decide), List.append_nil]
    · intro d hd
      exact decide_eq_true (Octal.isDigit_of_mem_fixed hd)
  rw [Checked, hfield, hdigits, Octal.value_fixed hs.checksum_lt, hsized.checksum_eq,
    hs.checksum_eq]
  rfl

theorem Header.Sized.add_check_sum (hs : h.Sized) :
    (add_check_sum h).Sized ∧ Checked (add_check_sum h).bytes := by
  rw [Tar.add_check_sum, Octal.print_of_lt hs.checksum_lt]
  exact hs.set_chksum rfl

theorem bytes_add_check_sum (hs : h.Sized) :
    ∃ c : Text, c.length = 8 ∧ (add_check_sum h).bytes = h.front ++ (c ++ h.back) := by
  refine ⟨Octal.print 6 (checksum h.bytes) ++ [0, 0x20], ?_, ?_⟩
  · rw [Octal.print_of_lt hs.checksum_lt, List.length_append, Octal.length_fixed,
      List.length_cons, List.length_singleton]
  · simp only [Header.bytes_eq, Header.front, Header.back, Tar.add_check_sum]

theorem getElem?_bytes (hs : h.Sized) (k : ℕ) :
    (add_check_sum h).bytes[156 + k]? = h.back[k]? := by
  obtain ⟨c, hc, hbytes⟩ := bytes_add_check_sum hs
  have hlen : (h.front ++ c).length = 156 := by
    rw [List.length_append, hs.length_front, hc]
  rw [hbytes, ← List.append_assoc, ← hlen, List.getElem?_append_right (Nat.le_add_right _ _),
    Nat.add_sub_cancel_left]

theorem plain_header {name : Text} (hne : name ≠ []) (hname : 0 ∉ name) (hlt : name.length < 100)
    {content : List UInt8} (hsize : content.length < 2147483648) (mtime : ℕ) :
    Plain (header name (BitVec.ofNat 32 content.length) mtime).bytes
        ⟨name, content.length, false, content⟩ ∧
      Checked (header name (BitVec.ofNat 32 content.length) mtime).bytes := by
  have hnat : (BitVec.ofNat 32 content.length).toNat = content.length := by
    rw [BitVec.toNat_ofNat]
    exact Nat.mod_eq_of_lt (by omega)
  have hdigits : content.length < 8 ^ 11 := Nat.lt_trans hsize (by decide)
  let h : Header :=
    { name := field 100 name
      mode := Scan.ascii "0000777" ++ [0]
      size := field 12 (Octal.print 11 (BitVec.ofNat 32 content.length).toNat)
      mtime := field 12 (Octal.print 11 mtime)
      chksum := zeros 8
      typeflag := 0
      magic := Scan.ascii "ustar  " ++ [0] }
  have hs : h.Sized :=
    ⟨length_field (by decide) _, rfl, length_field (by decide) _, length_field (by decide) _,
      length_zeros 8, rfl⟩
  obtain ⟨hsized, hchecked⟩ := hs.add_check_sum
  obtain ⟨c, hc, hbytes⟩ := bytes_add_check_sum hs
  refine ⟨⟨hsized.length_bytes, ?_, hne, hname, hlt, ?_, ?_, hsize, ?_, rfl⟩, hchecked⟩
  · refine ⟨zeros (100 - name.length - 1) ++ (h.mode ++ zeros 16 ++ h.size ++ h.mtime ++
      (c ++ h.back)), ?_⟩
    have hfield : h.name = name ++ 0 :: zeros (100 - name.length - 1) := field_of_lt hlt
    change (add_check_sum h).bytes = _
    rw [hbytes, Header.front, hfield]
    simp only [List.append_assoc, List.cons_append]
  · change (add_check_sum h).bytes[156 + 189]? = _
    have hfront : (h.typeflag :: zeros 100 ++ h.magic).length = 109 := by
      rw [List.length_append, List.length_cons, length_zeros, hs.magic]
    rw [getElem?_bytes hs, Header.back, List.getElem?_append_right (by omega), hfront, zeros]
    exact List.getElem?_replicate_of_lt (by omega)
  · have hfront : (h.name ++ h.mode ++ zeros 16).length = 124 := by
      rw [List.length_append, List.length_append, hs.name, hs.mode, length_zeros]
    have hfield : h.size = Octal.fixed 11 content.length ++ 0 :: zeros 0 := by
      change field 12 (Octal.print 11 _) = _
      rw [hnat, Octal.print_of_lt hdigits, field_of_lt (by rw [Octal.length_fixed]; decide),
        Octal.length_fixed]
    refine ⟨Octal.fixed 11 content.length, zeros 0 ++ (h.mtime ++ (c ++ h.back)), ?_,
      fun d hd ↦ Octal.isDigit_of_mem_fixed hd, Octal.value_fixed hdigits⟩
    change (add_check_sum h).bytes.drop 124 = _
    have hsplit : h.front ++ (c ++ h.back) = (h.name ++ h.mode ++ zeros 16) ++
        (h.size ++ (h.mtime ++ (c ++ h.back))) := by
      simp only [Header.front, List.append_assoc]
    rw [hbytes, hsplit, List.drop_left' hfront, hfield]
    simp only [List.append_assoc, List.cons_append]
  · change (add_check_sum h).bytes[156 + 0]? = _ ↔ _
    rw [getElem?_bytes hs]
    constructor
    · intro hflag
      have hzero : (0 : UInt8) = 53 := Option.some.inj hflag
      exact absurd hzero (by decide)
    · intro hdir
      cases hdir

end Header

section Add

variable {a : File} {es : List Entry}

/-- The content with the zeros that fill its last block. -/
def blocks : ℕ → List UInt8 → List UInt8
  | 0, _ => []
  | n + 1, content => (content ++ zeros 512).take 512 ++ blocks n (content.drop 512)

theorem writeBlocks_eq {n : ℕ} {content : List UInt8} (h : a.pos ≤ a.bytes.length) :
    writeBlocks n a content = a.write (blocks n content) := by
  induction n generalizing a content with
  | zero =>
    rw [writeBlocks, blocks, File.write_at (List.take_append_drop a.pos a.bytes).symm
      (List.length_take_of_le h).symm]
    simp [List.length_take_of_le h]
  | succ n ih =>
    rw [writeBlocks, ih (File.pos_write_le h _), File.write_write h, blocks]

theorem blocks_eq {n : ℕ} {content : List UInt8} (hn : n = (content.length + 511) / 512) :
    blocks n content = content ++ zeros (fill content.length) := by
  induction n generalizing content with
  | zero =>
    have hnil : content = [] := List.length_eq_zero_iff.mp (by omega)
    rw [hnil]
    rfl
  | succ n ih =>
    have hdrop : (content.drop 512).length = content.length - 512 := List.length_drop
    rw [blocks, ih (by omega), hdrop]
    by_cases hlast : content.length ≤ 512
    · have hfill : fill content.length = 512 - content.length := by
        rw [fill]
        omega
      have hzero : fill (content.length - 512) = 0 := by
        rw [fill]
        omega
      rw [List.drop_of_length_le hlast, List.nil_append, hzero, hfill, List.take_append,
        List.take_of_length_le hlast, zeros, zeros, zeros, List.take_replicate,
        Nat.min_eq_left (Nat.sub_le _ _), List.replicate_zero, List.append_nil]
    · have hfill : fill (content.length - 512) = fill content.length := by
        rw [fill, fill]
        omega
      rw [hfill, List.take_append_of_le_length (by omega), ← List.append_assoc,
        List.take_append_drop]

theorem get_size_eq (h : a.bytes.length < 2147483648) :
    a.get_size = ((a.bytes.length : ℤ), { a with pos := 0 }) := by
  rw [File.get_size, BitVec.toInt_ofNat', Int.bmod_eq_of_le (by omega) (by omega)]

theorem Kept.place (ha : Kept a es) : ∃ records old, a.bytes = records ++ old ∧
    Records es records ∧ old.length ≤ 1024 ∧ a.bytes.length - 1024 = records.length ∧
      (if (a.bytes.length : ℤ) ≠ 0 then ({ a with pos := 0 } : File).seek (-1024) .fromEnd
        else { a with pos := 0 }) = { a with pos := records.length } := by
  rcases ha.bytes_eq with ⟨records, hrecords, hbytes⟩ | ⟨hnil, rfl⟩
  · have hlen : a.bytes.length = records.length + 1024 := by
      rw [hbytes, List.length_append, length_zeros]
    refine ⟨records, zeros (512 * 2), hbytes, hrecords, (length_zeros _).le, by omega, ?_⟩
    rw [if_pos (by omega), File.seek]
    dsimp only
    rw [hlen, if_neg (by omega)]
    have hplace : ((records.length + 1024 : ℕ) : ℤ) + -1024 = (records.length : ℤ) := by omega
    rw [hplace, Int.toNat_natCast]
  · refine ⟨[], [], by rw [hnil]; rfl, rfl, by simp, by rw [hnil]; rfl, ?_⟩
    rw [hnil]
    rfl

theorem Kept.of_bytes (ha : Kept a es) {a' : File} (h : a'.bytes = a.bytes) : Kept a' es := by
  constructor
  · rw [h]
    exact ha.bytes_eq
  · rw [h]
    exact ha.length_lt

theorem kept_write {name : Text} (hne : name ≠ []) (hname : 0 ∉ name)
    (hlt : name.length < 100) {content : List UInt8}
    (hfits : a.bytes.length - 1024 + (512 + (content.length + fill content.length) + 1024) <
      2147483648) (mtime : ℕ) {records old : List UInt8} (hbytes : a.bytes = records ++ old)
    (hrecords : Records es records) (hold : old.length ≤ 1024)
    (hlen : a.bytes.length - 1024 = records.length) :
    Kept ((writeBlocks ((content.length + 511) / 512)
        (({ a with pos := records.length } : File).write
          (header name (BitVec.ofNat 32 content.length) mtime).bytes) content).write (zeros 1024))
      (es ++ [⟨name, content.length, false, content⟩]) := by
  have hsize : content.length < 2147483648 := by omega
  obtain ⟨hplain, -⟩ := plain_header hne hname hlt hsize mtime
  generalize (header name (BitVec.ofNat 32 content.length) mtime).bytes = h at hplain ⊢
  have hpos : ({ a with pos := records.length } : File).pos ≤
      ({ a with pos := records.length } : File).bytes.length := by
    change records.length ≤ a.bytes.length
    rw [hbytes, List.length_append]
    exact Nat.le_add_right _ _
  have hpos' := File.pos_write_le hpos h
  have hbytes' : ({ a with pos := records.length } : File).bytes = records ++ old := hbytes
  rw [writeBlocks_eq hpos', File.write_write hpos, File.write_write hpos, blocks_eq rfl,
    File.write_at hbytes' rfl]
  have hlong : old.drop (h ++ (content ++ zeros (fill content.length)) ++ zeros 1024).length =
      [] := by
    apply List.drop_of_length_le
    rw [List.length_append, length_zeros]
    omega
  rw [hlong, List.append_nil]
  have hrecord : Records [⟨name, content.length, false, content⟩]
      (h ++ (content ++ (zeros (fill content.length) ++ []))) :=
    ⟨h, _, [], rfl, hplain, length_zeros _, rfl⟩
  constructor
  · refine .inl ⟨_, records_append hrecords hrecord, ?_⟩
    simp only [List.append_assoc, List.nil_append]
  · have hsum : (records ++ (h ++ (content ++ zeros (fill content.length)) ++ zeros 1024)).length =
        records.length + (512 + (content.length + fill content.length) + 1024) := by
      rw [List.length_append, List.length_append, List.length_append, List.length_append,
        length_zeros, length_zeros, hplain.length_eq]
    rw [hlen, ← hsum] at hfits
    exact hfits

theorem relative_path_thrown {path root : Text} (hne : root ≠ []) {stop : Stop}
    (h : Disk.fs_get_relative_path path root = .error stop) : stop = .thrown := by
  rw [Disk.fs_get_relative_path] at h
  split at h
  · exact (Except.error.inj h).symm
  · rw [if_neg hne] at h
    split_ifs at h
    exact (Except.error.inj h).symm

theorem relative_path_drop {path root name : Text}
    (h : Disk.fs_get_relative_path path root = .ok name) : name = path.drop root.length := by
  rw [Disk.fs_get_relative_path] at h
  split at h
  · cases h
  · rename_i rel hrel
    rw [List.isPrefixOf?_eq_some_iff_append_eq] at hrel
    split_ifs at h
    cases h
    rw [← hrel, List.drop_left]

variable {ar : Archive}

theorem Holds.add_file (ha : Holds ar es) {adding_path file_name : CText} {node : Node}
    (hreg : Regular ar (.add_file adding_path file_name node)) :
    ∃ ar' ret header,
      Tar.add_file ar adding_path.1 file_name.1 node = some (ar', ret, header) ∧
        (∀ h ∈ header, Checked h) ∧
          Holds ar' (if ret = 1 then es ++ [entryOf adding_path.1 file_name.1 node] else es) := by
  obtain ⟨hroot, hassigned, hnode⟩ := hreg
  obtain ⟨tmp, hassign⟩ := Option.isSome_iff_exists.mp hassigned
  have htmp := (Str.holds_reset ha.tmp).assign_holds file_name hassign
  have hsound : Sound tmp := by
    rw [Sound, htmp.cString]
    exact htmp
  obtain ⟨records, old, hbytes, hrecords, hold, hlen, hplace⟩ := ha.file.place
  have hsame : Holds { ar with file := { ar.file with pos := records.length }, tmp := tmp } es :=
    ⟨ha.file.of_bytes rfl, hsound, ha.file_name⟩
  have hnone : ∀ h ∈ (none : Option (List UInt8)), Checked h := by
    intro h hh
    cases hh
  rw [Tar.add_file, get_size_eq ha.file.length_lt]
  dsimp only
  rw [if_neg (by omega), hassign, Option.bind_eq_bind, Option.bind_some, hplace, htmp.cString]
  cases hname : Disk.fs_get_relative_path file_name.1 adding_path.1 with
  | error stop =>
    rw [relative_path_thrown hroot hname]
    exact ⟨_, -1, none, rfl, hnone, hsame⟩
  | ok name =>
    have hregular := hnode name (by rw [hname]; rfl)
    cases node with
    | missing => exact ⟨_, -1, none, rfl, hnone, hsame⟩
    | directory size mtime => exact absurd hregular id
    | file content mtime readable =>
      obtain ⟨⟨htilde, hlong⟩, rfl, ⟨hne, hshort⟩, hfits⟩ := hregular
      have hdrop := relative_path_drop hname
      have hzero : 0 ∉ name := by
        rw [hdrop]
        exact fun h ↦ file_name.2 (List.mem_of_mem_drop h)
      have hnum : (BitVec.ofNat 32 content.length).toInt.toNat = content.length := by
        rw [BitVec.toInt_ofNat', Int.bmod_eq_of_le (by omega) (by omega), Int.toNat_natCast]
      have hwrite := kept_write hne hzero hshort hfits mtime hbytes hrecords hold hlen
      have hopens : ¬(file_name.1.head? = some 126 ∨ 1024 ≤ file_name.1.length) := by
        rw [not_or]
        exact ⟨htilde, by omega⟩
      refine ⟨_, 1, _, if_neg hopens, ?_, ?_⟩
      · intro h hh
        cases hh
        exact (plain_header hne hzero hshort (by omega) mtime).2
      · rw [if_pos rfl, hnum, entryOf, ← hdrop]
        exact ⟨hwrite, hsound, ha.file_name⟩

end Add

section Refinement

variable {a : File} {es : List Entry}

theorem Kept.list (ha : Kept a es) : ∃ records tail a', a.bytes = records ++ tail ∧
    Records es records ∧ Tar.list a = some (infosFrom 0 es, a') ∧ a'.bytes = a.bytes := by
  rcases ha.bytes_eq with ⟨records, hrecords, hbytes⟩ | ⟨hnil, rfl⟩
  · have hcount : ∀ {es : List Entry} {records : List UInt8}, Records es records →
        es.length ≤ records.length := by
      intro es
      induction es with
      | nil => exact fun _ ↦ Nat.zero_le _
      | cons e es ih =>
        rintro _ ⟨h, pad, rest, rfl, hplain, -, hrest⟩
        have hlen := hplain.length_eq
        have hle := ih hrest
        simp only [List.length_append, List.length_cons]
        omega
    have hle := hcount hrecords
    have hlen : a.bytes.length = records.length + 1024 := by
      rw [hbytes, List.length_append, length_zeros]
    obtain ⟨a', hlist, ha'⟩ := listFrom_records (x := []) (n := a.bytes.length + 1) hrecords
      hbytes rfl (by rw [length_zeros]; decide) ha.length_lt (by omega) (length_zeros 512)
    exact ⟨records, zeros (512 * 2), a', hbytes, hrecords, hlist, ha'⟩
  · refine ⟨[], [], (readBuf (a.seek 0 .set) (zeros 512)).2, by rw [hnil]; rfl, rfl, ?_, ?_⟩
    · have hzero : a.seek 0 .set = { a with pos := 0 } := File.seek_set a 0
      rw [Tar.list, hnil, hzero]
      obtain ⟨bytes, pos⟩ := a
      subst hnil
      rfl
    · have hzero : a.seek 0 .set = { a with pos := 0 } := File.seek_set a 0
      rw [readBuf, hzero]
      rfl

theorem infosFrom_eq (offset : ℕ) (es : List Entry) :
    (infosFrom offset es).map (fun i ↦ (i.file_name, i.size)) =
      es.map fun e ↦ (e.name, (e.size : ℤ)) := by
  induction es generalizing offset with
  | nil => rfl
  | cons e es ih => rw [infosFrom, List.map_cons, List.map_cons, ih]

theorem matches_extracted (extracting_path : Text) (e : Entry) :
    Matches extracting_path e (extracted extracting_path e) := by
  rw [extracted]
  by_cases hdir : e.directory = true
  · rw [if_pos hdir]
    exact hdir
  · rw [if_neg hdir]
    exact ⟨Bool.eq_false_of_not_eq_true hdir, rfl, rfl⟩

variable {ar : Archive}

theorem Holds.call (ha : Holds ar es) {c : Call} (hreg : Regular ar c) :
    ∃ ar' x, Tar.call ar c = some (ar', x) ∧ row.ok es c x ∧ Holds ar' (row.next es c x) := by
  cases c with
  | add_file adding_path file_name node =>
    obtain ⟨ar', ret, header, hadd, hchecked, har'⟩ := ha.add_file hreg
    exact ⟨ar', .added ret header, by rw [Tar.call, hadd]; rfl, hchecked, har'⟩
  | list =>
    obtain ⟨records, tail, a', -, -, hlist, ha'⟩ := ha.file.list
    refine ⟨{ ar with file := a' }, .infos (infosFrom 0 es), ?_, infosFrom_eq 0 es,
      ha.file.of_bytes ha', ha.tmp, ha.file_name⟩
    rw [Tar.call, hlist]
    rfl
  | extract extracting_path sys =>
    obtain ⟨records, tail, a₁, hbytes, hrecords, hlist, ha₁⟩ := ha.file.list
    have hextracts := hreg _ hlist
    rw [← ha₁] at hextracts
    have hread : ({ ar with file := a₁ } : Archive).file.bytes = [] ++ (records ++ tail) :=
      ha₁.trans hbytes
    obtain ⟨a', s', hfiles, ha', hs'⟩ :=
      extract_files_records hrecords hread ha.file_name hextracts
    refine ⟨{ ar with file := a', file_name := s' },
      .extracted (es.map (extracted extracting_path.1)) 1, ?_, ⟨rfl, List.length_map _, ?_⟩,
      ha.file.of_bytes (ha'.trans ha₁), ha.tmp, hs'⟩
    · rw [Tar.call, hlist, Option.bind_eq_bind, Option.bind_some]
      dsimp only
      rw [List.length_nil] at hfiles
      rw [hfiles]
      rfl
    · intro x hx
      obtain ⟨k, hk⟩ := List.mem_iff_getElem?.mp hx
      rw [List.getElem?_zip_eq_some, List.getElem?_map] at hk
      obtain ⟨he, hfile⟩ := hk
      rw [he, Option.map_some] at hfile
      rw [← Option.some.inj hfile]
      exact matches_extracted extracting_path.1 x.1

/-- In every run in which only files are added, with names and paths that fit, to an archive that
ends in two zero blocks, the archive is the row of its entries. -/
theorem refines_row (ha : Holds ar es) {cs : List Call}
    (hrun : Refine.Within call row Regular ar es cs) :
    (∃ ar' es', Run.final (Refine.step call row) (some ar, es) cs = (some ar', es') ∧
        Holds ar' es') ∧
      Refine.Refines call row ar es cs :=
  Refine.refines_of_simulation (I := Holds) (fun _ _ _ ha hreg ↦ ha.call hreg) ha hrun

end Refinement

instance decidableChecked (header : List UInt8) : Decidable (Checked header) :=
  inferInstanceAs (Decidable (_ = _))

instance decidableMatches (extracting_path : Text) (e : Entry) (x : Extracted) :
    Decidable (Matches extracting_path e x) := by
  cases x with
  | dir path => exact inferInstanceAs (Decidable (_ = true))
  | file path content => exact inferInstanceAs (Decidable (_ ∧ _ ∧ _))

instance decidableOk (es : List Entry) (c : Call) (x : Answer) : Decidable (row.ok es c x) := by
  cases c with
  | add_file adding_path file_name node =>
    cases x with
    | added ret header => exact inferInstanceAs (Decidable (∀ h ∈ header, Checked h))
    | infos infos => exact inferInstanceAs (Decidable False)
    | extracted files ret => exact inferInstanceAs (Decidable False)
  | list =>
    cases x with
    | infos infos => exact inferInstanceAs (Decidable (List.map _ _ = List.map _ _))
    | added ret header => exact inferInstanceAs (Decidable False)
    | extracted files ret => exact inferInstanceAs (Decidable False)
  | extract extracting_path opens =>
    cases x with
    | extracted files ret =>
      exact inferInstanceAs (Decidable (_ ∧ _ ∧ ∀ x ∈ es.zip files, Matches _ x.1 x.2))
    | added ret header => exact inferInstanceAs (Decidable False)
    | infos infos => exact inferInstanceAs (Decidable False)

instance decidableExtracts (bytes : List UInt8) (extracting_path : Text) (sys : ℤ → System) :
    (s : Str) → (infos : List Info) → Decidable (Extracts bytes extracting_path sys s infos)
  | _, [] => inferInstanceAs (Decidable True)
  | s, i :: infos =>
    have (s' : Str) := decidableExtracts bytes extracting_path sys s' infos
    inferInstanceAs
      (Decidable (∃ s' ∈ joined s extracting_path i.file_name, ite _ _ _ ∧ Extracts _ _ _ s' _))

instance decidableRegular (ar : Archive) (c : Call) : Decidable (Regular ar c) := by
  cases c with
  | add_file adding_path file_name node =>
    cases node with
    | missing => exact inferInstanceAs (Decidable (_ ∧ _ ∧ ∀ name ∈ Except.toOption _, True))
    | directory size mtime =>
      exact inferInstanceAs (Decidable (_ ∧ _ ∧ ∀ name ∈ Except.toOption _, False))
    | file content mtime readable =>
      exact inferInstanceAs
        (Decidable (_ ∧ _ ∧ ∀ name ∈ Except.toOption _, (_ ∧ _) ∧ _ ∧ (name ≠ [] ∧ _) ∧ _))
  | list => exact inferInstanceAs (Decidable True)
  | extract extracting_path sys =>
    exact inferInstanceAs (Decidable (∀ infos ∈ list ar.file, Extracts _ _ _ _ infos.1))

def ascii (s : String) (h : 0 ∉ Scan.ascii s) : CText := ⟨Scan.ascii s, h⟩

/-- An archive that is opened. -/
def opened (bytes : List UInt8) : Archive := ⟨⟨bytes, 0⟩, .init, .init⟩

theorem holds_opened : Holds (opened []) [] :=
  ⟨⟨.inr ⟨rfl, rfl⟩, Nat.zero_lt_succ _⟩, Str.holds_init, Str.holds_init⟩

theorem refines_row_two_files :
    (∃ ar' es', Run.final (Refine.step call row) (some (opened []), [])
        [.list,
          .add_file (ascii "./" (by decide)) (ascii "./b" (by decide)) (.file [1, 2, 3] 7 true),
          .add_file (ascii "./" (by decide)) (ascii "./d/c" (by decide)) (.file [] 7 true), .list,
          .extract (ascii "o/" (by decide)) fun _ ↦ .everywhere] = (some ar', es') ∧
        Holds ar' es') ∧
      Refine.Refines call row (opened []) []
        [.list,
          .add_file (ascii "./" (by decide)) (ascii "./b" (by decide)) (.file [1, 2, 3] 7 true),
          .add_file (ascii "./" (by decide)) (ascii "./d/c" (by decide)) (.file [] 7 true), .list,
          .extract (ascii "o/" (by decide)) fun _ ↦ .everywhere] :=
  refines_row holds_opened (by decide +kernel)

/-- Behind a third zero block an added file is not found. -/
theorem not_refines_row_three_blocks :
    ¬ ∀ (n : ℕ) (bytes : List UInt8) (es : List Entry), 2 ≤ n → Valid n es bytes →
      ∀ cs : List Call, Refine.Refines call row (opened bytes) es cs := by
  intro h
  have hrun := h 3 (zeros (512 * 3)) [] (by decide) ⟨[], rfl, rfl⟩
    [.add_file (ascii "./" (by decide)) (ascii "./b" (by decide)) (.file [1, 2, 3] 7 true), .list]
  revert hrun
  decide +kernel

end Tar

end Libobject
