import Libobject.Core.BufferSearch
import Libobject.Core.FileSystem
import Libobject.Core.IoBuffer
import Libobject.Http.Text
import Libobject.Lib.Machine
import Mathlib.Data.List.Infix

/-!
# Uploads in multipart forms

The body of a request is read line by line. A blank line ends the headers of a part, and what stands
behind it up to the next delimiter is written to the file that the headers name. Strings and the
arrays `filename`, `path` and `raw_line` are C strings. An error before the first line is read logs
a string that is not set.
-/

namespace Libobject

open Scan Http FileSystem

/-- The loop of `__get_needle_offset` with `n` places to go. -/
def IoBuffer.needleFrom (b : IoBuffer) (needle : List UInt8) : ℕ → ℕ → Option (Option ℕ)
  | 0, _ => some none
  | n + 1, cnt => do
    let same ← b.memcmp (b.r_offset + cnt) needle
    if same then return some cnt
    else needleFrom b needle n (cnt + 1)

/-- The inner `none` is -1. -/
def IoBuffer.get_needle_offset (b : IoBuffer) (needle : List UInt8) : Option (Option ℕ) :=
  if b.get_len < needle.length then some none
  else b.needleFrom needle (b.get_len - needle.length + 1) 0

namespace Multipart

/-! ## Headers -/

def MAX_FILE_NAME_LEN : ℕ := 1024

/-- `snprintf(buf, n, "%s", s)` -/
def snprintf (n : ℕ) (s : Text) : Text := s.take (n - 1)

def get_multipart_boundary (content_type : Text) : Option Text :=
  (content_type.tails.find? (ascii "boundary=").isPrefixOf).map (List.drop 9)

def build_part_end_delimiter (boundary : Text) (buf_len : ℕ) : Option Text :=
  if buf_len ≤ 4 + boundary.length then none else some (CRLF ++ (45 :: 45 :: boundary))

/-- The regular expression `filename="([^"]+)"` with `REG_ICASE`, at the beginning of a text. -/
def matchFilename (s : Text) : Option Text :=
  let name := (s.drop 10).takeWhile (fun c ↦ c ≠ 34)
  if str_to_lower (s.take 10) = ascii "filename=\"" ∧ name ≠ [] ∧
      (s.drop (10 + name.length)).head? = some 34 then some name
  else none

/-- `get_substring(str, regex, 0, &start, &len)` -/
def get_filename (s : Text) : Option Text := s.tails.findSome? matchFilename

inductive Form_Data_Type
  | image
  | video
  deriving DecidableEq

def get_multipart_form_data_type (str : Text) : Option Form_Data_Type :=
  if strstr str (ascii "image") then some .image
  else if strstr str (ascii "video") then some .video
  else none

def dir_name : Form_Data_Type → Text
  | .image => ascii "images"
  | .video => ascii "videos"

/-- Where `__read_form_data_to_path` stores files, and where `__read_form_data` does. -/
inductive Target
  | path (upload_path : Text)
  | form (root : Text)

/-- The arrays `filename` and `path`. -/
structure Names where
  filename : Text
  path : Text

/-- A line of the headers, where `none` is an error. The directory of a media type is made if it is
not there. -/
def read_header (sys : System) (target : Target) (str : Text) (names : Names) : Option Names :=
  let line := replace_crlf str
  let raw_line := snprintf MAX_FILE_NAME_LEN line
  let lower := str_to_lower line
  if strstr lower (ascii "content-disposition") then
    (get_filename raw_line).map fun filename ↦
      { names with filename := snprintf MAX_FILE_NAME_LEN filename }
  else
    match target with
    | .path _ => some names
    | .form root =>
      if strstr lower (ascii "content-type") then
        (get_multipart_form_data_type lower).bind fun type ↦
          let path := snprintf MAX_FILE_NAME_LEN (root ++ 47 :: dir_name type)
          if sys.access path ∨ sys.mkdir path then some { names with path } else none
      else some names

/-- The path of a file. `__read_form_data` appends to the path, which must fit the array. -/
def file_path (target : Target) (names : Names) : Option Text :=
  match target with
  | .path upload_path => some (snprintf MAX_FILE_NAME_LEN (upload_path ++ 47 :: names.filename))
  | .form _ =>
    let name := snprintf MAX_FILE_NAME_LEN (47 :: names.filename)
    if names.path.length + name.length < MAX_FILE_NAME_LEN then some (names.path ++ name)
    else none

/-! ## The loop -/

/-- The files that have been written, by their paths. -/
abbrev Stored := List (Text × List UInt8)

structure Reading where
  buffer : IoBuffer
  names : Names
  stored : Stored

/-- One turn of the loop. A delimiter that is not found makes a write of -1 bytes. -/
def readTurn (sys : System) (target : Target) (delimiter : Text) (s : Reading) :
    Move Reading (Stored × ℤ) :=
  if s.buffer.get_len ≤ 2 then .done (s.stored, 1)
  else
    match s.buffer.get_needle_offset CRLF with
    | none => .wild
    | some none => .done (s.stored, 1)
    | some (some len) =>
      match s.buffer.read_to_string Str.init (len + 2) with
      | none => .wild
      | some (buffer, answer) =>
        if answer.ret < 0 then .done (s.stored, -1)
        else if cString answer.bytes = CRLF then
          match buffer.get_needle_offset delimiter, file_path target s.names with
          | some len, some path =>
            if sys.opens path then
              match len.bind (Buffer.get buffer.addr buffer.r_offset) with
              | none => .wild
              | some content =>
                .next ⟨{ buffer with
                    r_offset := buffer.r_offset + (content.length + delimiter.length) },
                  { s.names with path }, s.stored ++ [(path, content)]⟩
            else .done (s.stored, -1)
          | _, _ => .wild
        else
          match read_header sys target (cString answer.bytes) s.names with
          | none => .done (s.stored, -1)
          | some names => .next ⟨buffer, names, s.stored⟩

def delimiterOf (content_type : Option Text) : Option Text := do
  let boundary ← content_type.bind get_multipart_boundary
  build_part_end_delimiter (snprintf 256 boundary) 512

/-- A body of a request, in its buffer. -/
structure Body where
  buffer : IoBuffer
  bytes : List UInt8
  holds : IoBuffer.Holds buffer bytes

def Body.start (body : Body) : Reading := ⟨body.buffer, ⟨[], []⟩, []⟩

/-- The loop is come to: there is a delimiter, and the directory is there or is made. -/
def Enters (sys : System) (target : Target) (content_type : Option Text)
    (delimiter : Text) : Prop :=
  delimiterOf content_type = some delimiter ∧
    match target with
    | .path upload_path => ∃ made, sys.provide upload_path = .ok (made, true)
    | .form _ => True

/-- What `__read_form_data` or `__read_form_data_to_path` has stored and returns. -/
def Reads (sys : System) (target : Target) (content_type : Option Text) (body : Body)
    (result : Stored × ℤ) : Prop :=
  ∃ delimiter, Enters sys target content_type delimiter ∧
    ∃ k, Machine.after (readTurn sys target delimiter) k body.start = .done result

/-! ## Well-formed bodies -/

structure Part where
  lines : List Text
  content : List UInt8

def partEnd (boundary : Text) : Text := CRLF ++ (45 :: 45 :: boundary)

/-- A part from behind the line of its delimiter. -/
def Part.raw (p : Part) : List UInt8 := p.lines.flatMap (· ++ CRLF) ++ (CRLF ++ p.content)

/-- The parts from behind the first dashes and boundary. -/
def renderTail (boundary : Text) (last : List UInt8) : List Part → List UInt8
  | [] => 45 :: 45 :: last
  | p :: ps => CRLF ++ (p.raw ++ (partEnd boundary ++ renderTail boundary last ps))

def render (boundary : Text) (last : List UInt8) (ps : List Part) : List UInt8 :=
  (45 :: 45 :: boundary) ++ renderTail boundary last ps

def isDisposition (line : Text) : Bool :=
  str_to_lower (line.take 20) = ascii "content-disposition:"

def isContentType (line : Text) : Bool := str_to_lower (line.take 13) = ascii "content-type:"

/-- The media type of a `Content-Type` line. -/
def mediaType (line : Text) : Option Form_Data_Type :=
  let value := skipSpace (str_to_lower (line.drop 13))
  if (ascii "image/").isPrefixOf value then some .image
  else if (ascii "video/").isPrefixOf value then some .video
  else none

namespace Part

variable (p : Part)

def filename : Option Text := (p.lines.find? isDisposition).bind get_filename

def media : Option Form_Data_Type := (p.lines.find? isContentType).bind mediaType

def dir : Target → Option Text
  | .path upload_path => some upload_path
  | .form root => p.media.map fun type ↦ root ++ 47 :: dir_name type

/-- The file that a part with a filename is to be stored in. -/
def file (target : Target) : Option (Text × List UInt8) := do
  let filename ← p.filename
  let dir ← p.dir target
  return (dir ++ 47 :: filename, p.content)

/-- Headers are lines of text, one of which is the disposition, and no line of the part begins with
the dashes and the boundary. -/
structure WellFormed (boundary : Text) : Prop where
  lines : ∀ line ∈ p.lines, line ≠ [] ∧ 13 ∉ line ∧ 0 ∉ line ∧ ¬(45 :: 45 :: boundary) <+: line
  disposition : (p.lines.filter isDisposition).length = 1
  content : IsFirst (partEnd boundary) (CRLF ++ (p.content ++ partEnd boundary))
    (some (2 + p.content.length))

end Part

/-- A form of any number of parts, which `__read_form_data` reads if they are images and videos. -/
structure WellFormed (target : Target) (boundary : Text) (ps : List Part) : Prop where
  boundary_ne_nil : boundary ≠ []
  length_boundary : boundary.length ≤ 70
  boundary_text : 13 ∉ boundary ∧ 0 ∉ boundary
  parts : ∀ p ∈ ps, p.WellFormed boundary
  dirs : ∀ p ∈ ps, (p.dir target).isSome

/-! ## Receiving -/

def unread (b : IoBuffer) : List UInt8 := (b.addr.take b.w_offset).drop b.r_offset

/-- A turn leaves the offsets in order, and writes nothing but bytes that are there. -/
structure Orderly (s t : Reading) : Prop where
  offsets : t.buffer.r_offset ≤ t.buffer.w_offset
  writes : t.stored = s.stored ∨
    ∃ path content, t.stored = s.stored ++ [(path, content)] ∧ content <:+: unread s.buffer

/-- The loop ends, and its turns are orderly. -/
def Safe (sys : System) (target : Target) (content_type : Option Text) (body : Body) : Prop :=
  ∃ delimiter, Enters sys target content_type delimiter ∧
    Machine.Ends (readTurn sys target delimiter) body.start ∧
      Machine.Always (readTurn sys target delimiter) Orderly body.start

/-- All bodies are read safely, and of the well-formed ones all parts with a filename are stored. -/
def Receives (sys : System) (target : Target) (content_type : Option Text) (body : Body) :
    Prop :=
  Safe sys target content_type body ∧ ∀ boundary last ps,
    content_type.bind get_multipart_boundary = some boundary → WellFormed target boundary ps →
      (last = [] ∨ last = CRLF) → body.bytes = render boundary last ps →
        Reads sys target content_type body (ps.filterMap fun p ↦ p.file target, 1)

/-- Every blank line that is read has the delimiter behind it, and the path of its file fits, if the
reading has not ended before with an error. -/
inductive Closed (sys : System) (target : Target) (delimiter : Text) :
    Names → List UInt8 → Prop
  | finish {names : Names} {rest : List UInt8}
      (h : rest.length ≤ 2 ∨ offset? CRLF rest = none) : Closed sys target delimiter names rest
  | header {names : Names} {rest : List UInt8} {n : ℕ} (hlen : 2 < rest.length)
      (hline : offset? CRLF rest = some (n + 1)) (hfits : n + 4 < 2 ^ 30)
      (h : ∀ names', read_header sys target (cString (rest.take (n + 3))) names = some names' →
        Closed sys target delimiter names' (rest.drop (n + 3))) :
      Closed sys target delimiter names rest
  | refused {names : Names} {rest : List UInt8} {path : Text} (hlen : 2 < rest.length)
      (hline : offset? CRLF rest = some 0) (hpath : file_path target names = some path)
      (hopens : sys.opens path = false) : Closed sys target delimiter names rest
  | part {names : Names} {rest : List UInt8} {path : Text} {n : ℕ} (hlen : 2 < rest.length)
      (hline : offset? CRLF rest = some 0) (hpath : file_path target names = some path)
      (hopens : sys.opens path = true) (hend : offset? delimiter (rest.drop 2) = some n)
      (h : Closed sys target delimiter { names with path }
        ((rest.drop 2).drop (n + delimiter.length))) : Closed sys target delimiter names rest

/-- The headers, of lines that a string can be made long enough for. -/
def read_headers (sys : System) (target : Target) : List Text → Names → Option Names
  | [], names => some names
  | line :: lines, names =>
    if line.length + 3 < 2 ^ 30 then
      (read_header sys target (line ++ CRLF) names).bind (read_headers sys target lines)
    else none

/-- There is at most one part, and the lines of its headers, as they are read together with the line
in front of them, lead to its file. -/
def Fine (sys : System) (target : Target) (boundary : Text) (last : List UInt8) :
    List Part → Prop
  | [] => last = [] ∨
      (read_header sys target (45 :: 45 :: boundary ++ [45, 45] ++ CRLF) ⟨[], []⟩).isSome
  | [p] => ∃ names path,
      read_headers sys target ((45 :: 45 :: boundary) :: p.lines) ⟨[], []⟩ = some names ∧
        file_path target names = some path ∧ sys.opens path = true ∧
          p.file target = some (path, p.content)
  | _ :: _ :: _ => False

/-- The directory is there; or what is not there of the way to it can be made, in a buffer that has
room for it. All paths are shorter than 128 bytes, as `fs_is_exist` takes them. -/
def Provided (sys : System) : Target → Prop
  | .path upload_path =>
    sys.disk.fs_is_exist upload_path = .ok true ∨
      sys.disk.fs_is_exist upload_path = .ok false ∧ System.Roomy upload_path ∧
        ∀ q ∈ sys.ways upload_path, sys.Passes q
  | .form _ => True

def Receivable (sys : System) (target : Target) (content_type : Option Text) (body : Body) :
    Prop :=
  Provided sys target ∧ (∃ delimiter, delimiterOf content_type = some delimiter ∧
    Closed sys target delimiter ⟨[], []⟩ body.bytes) ∧ ∀ boundary last ps,
      content_type.bind get_multipart_boundary = some boundary → WellFormed target boundary ps →
        (last = [] ∨ last = CRLF) → body.bytes = render boundary last ps →
          Fine sys target boundary last ps

/-! ## The loop over the unread bytes -/

/-- What the loop depends on. -/
structure View where
  names : Names
  rest : List UInt8
  stored : Stored

/-- One turn, on the unread bytes. -/
def viewTurn (sys : System) (target : Target) (delimiter : Text) (v : View) :
    Move View (Stored × ℤ) :=
  if v.rest.length ≤ 2 then .done (v.stored, 1)
  else
    match offset? CRLF v.rest with
    | none => .done (v.stored, 1)
    | some 0 =>
      match file_path target v.names with
      | none => .wild
      | some path =>
        if sys.opens path then
          match offset? delimiter (v.rest.drop 2) with
          | none => .wild
          | some n =>
            .next ⟨{ v.names with path }, (v.rest.drop 2).drop (n + delimiter.length),
              v.stored ++ [(path, (v.rest.drop 2).take n)]⟩
        else .done (v.stored, -1)
    | some (n + 1) =>
      if n + 4 < 2 ^ 30 then
        match read_header sys target (cString (v.rest.take (n + 3))) v.names with
        | none => .done (v.stored, -1)
        | some names => .next ⟨names, v.rest.drop (n + 3), v.stored⟩
      else .wild

/-- The buffer holds what is left to read. -/
structure Sees (s : Reading) (v : View) : Prop where
  holds : IoBuffer.Holds s.buffer v.rest
  names : s.names = v.names
  stored : s.stored = v.stored

section Memory

variable {b : IoBuffer} {items needle : List UInt8}

theorem needleFrom_eq (hb : IoBuffer.Holds b items) {n cnt : ℕ}
    (hcnt : cnt + n + needle.length ≤ items.length + 1)
    (hbefore : ∀ i < cnt, ¬OccursAt needle items i) :
    ∃ r, b.needleFrom needle n cnt = some r ∧
      ((∃ i, r = some i ∧ OccursAt needle items i ∧ ∀ j < i, ¬OccursAt needle items j) ∨
        r = none ∧ ∀ i < cnt + n, ¬OccursAt needle items i) := by
  induction n generalizing cnt with
  | zero => exact ⟨none, rfl, .inr ⟨rfl, hbefore⟩⟩
  | succ n ih =>
    rw [IoBuffer.needleFrom, hb.memcmp (by omega), Option.bind_eq_bind, Option.bind_some]
    by_cases hocc : OccursAt needle items cnt
    · rw [if_pos (decide_eq_true hocc)]
      exact ⟨_, rfl, .inl ⟨cnt, rfl, hocc, hbefore⟩⟩
    · rw [if_neg (by rw [decide_eq_true_iff]; exact hocc)]
      have hnext : ∀ i < cnt + 1, ¬OccursAt needle items i := by
        intro i hi
        rcases Nat.lt_succ_iff_lt_or_eq.mp hi with hlt | rfl
        · exact hbefore i hlt
        · exact hocc
      have hsucc : cnt + 1 + n = cnt + (n + 1) := by omega
      rw [← hsucc]
      exact ih (by omega) hnext

theorem get_needle_offset_eq (hb : IoBuffer.Holds b items) (needle : List UInt8) :
    b.get_needle_offset needle = some (offset? needle items) := by
  rw [IoBuffer.get_needle_offset, hb.get_len]
  have hfirst := RingBuffer.isFirst_offset? needle items
  by_cases hshort : items.length < needle.length
  · rw [if_pos hshort, offset?, if_pos hshort]
  · rw [if_neg hshort]
    obtain ⟨r, hr, hcase⟩ := needleFrom_eq hb
      (show 0 + (items.length - needle.length + 1) + needle.length ≤ items.length + 1 by omega)
      (fun i hi ↦ absurd hi (Nat.not_lt_zero i))
    rw [hr]
    congr 1
    refine IsFirst.eq ?_ hfirst
    rcases hcase with ⟨i, rfl, hocc, hbefore⟩ | ⟨rfl, hnone⟩
    · exact ⟨hocc, fun j hj ↦ Nat.not_lt.mp fun hlt ↦ hbefore j hlt hj⟩
    · intro i hi
      have hle := hi.le
      exact hnone i (by omega) hi

/-- The line, unless the string cannot be made long enough for it. -/
theorem read_to_string_eq (hb : IoBuffer.Holds b items) {len : ℕ} (hpos : 0 < len)
    (hle : len ≤ items.length) :
    (len + 1 < 2 ^ 30 → ∃ answer,
      b.read_to_string Str.init len = some ({ b with r_offset := b.r_offset + len }, answer) ∧
        answer.ret = len ∧ cString answer.bytes = cString (items.take len)) ∧
      (¬len + 1 < 2 ^ 30 → b.read_to_string Str.init len = none) := by
  have hw := hb.w_le
  have hwr := hb.w_offset
  have hcap := hb.capacity
  obtain ⟨rest, hdrop⟩ := hb.drop_addr
  have hread : b.read_to_string Str.init len =
      (Str.init.appendFrom (items ++ rest) len).map fun str' ↦
        ({ b with r_offset := b.r_offset + len }, ⟨Str.init.added str', len⟩) := by
    rw [IoBuffer.read_to_string, hb.get_len, if_neg (Nat.not_lt.mpr hle), if_pos (by omega), hdrop]
  have happend := @Str.appendFrom_init (items ++ rest) len hpos
  constructor
  · intro hfits
    rw [if_pos hfits] at happend
    obtain ⟨str', hstr', hadded⟩ := Option.map_eq_some_iff.mp happend
    rw [hread, hstr', Option.map_some, hadded]
    refine ⟨_, rfl, rfl, ?_⟩
    rw [Str.cString_strncpy, List.take_append_of_le_length hle]
  · intro hfits
    rw [if_neg hfits] at happend
    rw [hread, Option.map_eq_none_iff.mp happend, Option.map_none]

theorem get_eq (hb : IoBuffer.Holds b items) {n : ℕ} (hn : n ≤ items.length) :
    Buffer.get b.addr b.r_offset n = some (items.take n) := by
  have hw := hb.w_le
  have hwr := hb.w_offset
  have hcap := hb.capacity
  have htake := hb.take_drop n
  rw [Nat.min_eq_left hn] at htake
  rw [Buffer.get, if_pos (by omega), htake]

theorem cString_line_iff {n : ℕ} (h : offset? CRLF items = some n) :
    cString (items.take (n + 2)) = CRLF ↔ n = 0 := by
  have hfirst := RingBuffer.isFirst_offset? CRLF items
  rw [h] at hfirst
  constructor
  · intro hblank
    have hpre : CRLF <+: items := by
      rw [← hblank]
      exact (List.takeWhile_prefix _).trans (List.take_prefix _ _)
    obtain ⟨post, hpost⟩ := hpre
    exact Nat.le_zero.mp (hfirst.2 0 (occursAt_iff_split.mpr ⟨[], post, hpost.symm, rfl⟩))
  · rintro rfl
    have htake : items.take 2 = CRLF := hfirst.1.2
    rw [htake]
    decide

theorem le_of_offset? {n : ℕ} (h : offset? needle items = some n) :
    n + needle.length ≤ items.length := by
  have hfirst := RingBuffer.isFirst_offset? needle items
  rw [h] at hfirst
  exact hfirst.1.le

end Memory

variable {sys : System} {target : Target} {delimiter : Text}

theorem similar_viewTurn :
    Machine.Similar (readTurn sys target delimiter) (viewTurn sys target delimiter) Sees := by
  rintro ⟨buffer, names, stored⟩ ⟨names', rest, stored'⟩ ⟨hb, hnames, hstored⟩
  dsimp only at hb hnames hstored
  subst hnames hstored
  rw [readTurn, viewTurn]
  dsimp only
  rw [hb.get_len, get_needle_offset_eq hb]
  by_cases hshort : rest.length ≤ 2
  · rw [if_pos hshort, if_pos hshort]
    exact .inl ⟨_, rfl, rfl⟩
  rw [if_neg hshort, if_neg hshort]
  cases hline : offset? CRLF rest with
  | none => exact .inl ⟨_, rfl, rfl⟩
  | some n =>
    have hle : n + 2 ≤ rest.length := le_of_offset? hline
    obtain ⟨hfits, hlong⟩ := read_to_string_eq hb (Nat.succ_pos (n + 1)) hle
    have hb' := hb.advance hle
    have hblank := cString_line_iff hline
    dsimp only
    by_cases hshort : n + 2 + 1 < 2 ^ 30
    swap
    · obtain ⟨m, rfl⟩ : ∃ m, n = m + 1 := ⟨n - 1, by omega⟩
      rw [hlong hshort]
      exact .inr (.inl ⟨rfl, if_neg hshort⟩)
    obtain ⟨answer, hread, hret, hstr⟩ := hfits hshort
    rw [hread]
    dsimp only
    rw [if_neg (by omega), hstr]
    cases n with
    | zero =>
      rw [if_pos (hblank.mpr rfl), get_needle_offset_eq hb']
      cases hpath : file_path target names with
      | none => exact .inr (.inl ⟨rfl, rfl⟩)
      | some path =>
        dsimp only
        cases hopens : sys.opens path with
        | false => exact .inl ⟨_, rfl, rfl⟩
        | true =>
          cases hend : offset? delimiter (rest.drop 2) with
          | none =>
            exact .inr (.inl ⟨rfl, rfl⟩)
          | some m =>
            have hm := le_of_offset? hend
            have hget : Buffer.get buffer.addr (buffer.r_offset + 2) m =
                some ((rest.drop 2).take m) := get_eq hb' (Nat.le_of_add_right_le hm)
            have hlen : ((rest.drop 2).take m).length = m :=
              List.length_take_of_le (Nat.le_of_add_right_le hm)
            have hsees : Sees
                ⟨{ buffer with r_offset := buffer.r_offset + 2 + (m + delimiter.length) },
                  { names with path }, stored ++ [(path, (rest.drop 2).take m)]⟩
                ⟨{ names with path }, (rest.drop 2).drop (m + delimiter.length),
                  stored ++ [(path, (rest.drop 2).take m)]⟩ :=
              ⟨hb'.advance hm, rfl, rfl⟩
            refine .inr (.inr ⟨_, _, ?_, rfl, hsees⟩)
            rw [if_pos rfl, Option.bind_some, hget]
            dsimp only
            rw [hlen]
    | succ n =>
      rw [if_neg fun h ↦ Nat.succ_ne_zero n (hblank.mp h)]
      dsimp only
      rw [if_pos hshort]
      cases read_header sys target (cString (rest.take (n + 3))) names with
      | none => exact .inl ⟨_, rfl, rfl⟩
      | some names' => exact .inr (.inr ⟨_, _, rfl, rfl, hb', rfl, rfl⟩)

section View

variable {names : Names} {rest : List UInt8} {stored : Stored} {n : ℕ}

theorem viewTurn_finish (h : rest.length ≤ 2 ∨ offset? CRLF rest = none) :
    viewTurn sys target delimiter ⟨names, rest, stored⟩ = .done (stored, 1) := by
  rw [viewTurn]
  dsimp only
  split_ifs with hshort
  · rfl
  · rw [h.resolve_left hshort]

theorem viewTurn_header (hlen : 2 < rest.length) (hline : offset? CRLF rest = some (n + 1)) :
    viewTurn sys target delimiter ⟨names, rest, stored⟩ =
      if n + 4 < 2 ^ 30 then
        match read_header sys target (cString (rest.take (n + 3))) names with
        | none => .done (stored, -1)
        | some names => .next ⟨names, rest.drop (n + 3), stored⟩
      else .wild := by
  rw [viewTurn, if_neg (Nat.not_le.mpr hlen)]
  dsimp only
  rw [hline]

theorem viewTurn_blank (hlen : 2 < rest.length) (hline : offset? CRLF rest = some 0) :
    viewTurn sys target delimiter ⟨names, rest, stored⟩ =
      match file_path target names with
      | none => .wild
      | some path =>
        if sys.opens path then
          match offset? delimiter (rest.drop 2) with
          | none => .wild
          | some n =>
            .next ⟨{ names with path }, (rest.drop 2).drop (n + delimiter.length),
              stored ++ [(path, (rest.drop 2).take n)]⟩
        else .done (stored, -1) := by
  rw [viewTurn, if_neg (Nat.not_le.mpr hlen)]
  dsimp only
  rw [hline]

theorem ends_of_closed (h : Closed sys target delimiter names rest) (stored : Stored) :
    Machine.Ends (viewTurn sys target delimiter) ⟨names, rest, stored⟩ := by
  induction h generalizing stored with
  | finish h => exact Machine.ends_of_done (viewTurn_finish h)
  | @header names rest n hlen hline hfits h ih =>
    have hturn : viewTurn sys target delimiter ⟨names, rest, stored⟩ = _ :=
      (viewTurn_header hlen hline).trans (if_pos hfits)
    cases hread : read_header sys target (cString (rest.take (n + 3))) names with
    | none =>
      rw [hread] at hturn
      exact Machine.ends_of_done hturn
    | some names' =>
      rw [hread] at hturn
      exact (Machine.ends_iff_of_next hturn).mpr (ih names' hread stored)
  | @refused names rest path hlen hline hpath hopens =>
    have hturn : viewTurn sys target delimiter ⟨names, rest, stored⟩ = .done (stored, -1) := by
      rw [viewTurn_blank hlen hline, hpath]
      dsimp only
      rw [hopens]
      rfl
    exact Machine.ends_of_done hturn
  | @part names rest path n hlen hline hpath hopens hend h ih =>
    have hturn : viewTurn sys target delimiter ⟨names, rest, stored⟩ =
        .next ⟨{ names with path }, (rest.drop 2).drop (n + delimiter.length),
          stored ++ [(path, (rest.drop 2).take n)]⟩ := by
      rw [viewTurn_blank hlen hline, hpath]
      dsimp only
      rw [hopens, hend]
      rfl
    exact (Machine.ends_iff_of_next hturn).mpr (ih _)

theorem closed_of_ends (stored : Stored)
    (h : Machine.Ends (viewTurn sys target delimiter) ⟨names, rest, stored⟩) :
    Closed sys target delimiter names rest := by
  induction hsize : rest.length using Nat.strongRecOn generalizing names rest stored with
  | ind size ih =>
    subst hsize
    by_cases hfinish : rest.length ≤ 2 ∨ offset? CRLF rest = none
    · exact .finish hfinish
    rw [not_or, Nat.not_le] at hfinish
    obtain ⟨hlen, hsome⟩ := hfinish
    obtain ⟨n, hline⟩ := Option.ne_none_iff_exists'.mp hsome
    cases n with
    | zero =>
      have hturn : viewTurn sys target delimiter ⟨names, rest, stored⟩ = _ :=
        viewTurn_blank hlen hline
      cases hpath : file_path target names with
      | none =>
        rw [hpath] at hturn
        exact absurd h (Machine.not_ends_of_wild hturn)
      | some path =>
        cases hopens : sys.opens path with
        | false => exact .refused hlen hline hpath hopens
        | true =>
          rw [hpath] at hturn
          dsimp only at hturn
          rw [if_pos hopens] at hturn
          cases hend : offset? delimiter (rest.drop 2) with
          | none =>
            rw [hend] at hturn
            exact absurd h (Machine.not_ends_of_wild hturn)
          | some n =>
            rw [hend] at hturn
            refine .part hlen hline hpath hopens hend (ih _ ?_
              (stored ++ [(path, (rest.drop 2).take n)]) ?_ rfl)
            · rw [List.length_drop, List.length_drop]
              omega
            · exact (Machine.ends_iff_of_next hturn).mp h
    | succ n =>
      have hturn : viewTurn sys target delimiter ⟨names, rest, stored⟩ = _ :=
        viewTurn_header hlen hline
      have hfits : n + 4 < 2 ^ 30 := by
        by_contra hlong
        rw [if_neg hlong] at hturn
        exact Machine.not_ends_of_wild hturn h
      rw [if_pos hfits] at hturn
      refine .header hlen hline hfits fun names' hread ↦ ih _ ?_ stored ?_ rfl
      · rw [List.length_drop]
        omega
      · rw [hread] at hturn
        exact (Machine.ends_iff_of_next hturn).mp h

theorem closed_iff_ends (stored : Stored) : Closed sys target delimiter names rest ↔
    Machine.Ends (viewTurn sys target delimiter) ⟨names, rest, stored⟩ :=
  ⟨fun h ↦ ends_of_closed h stored, closed_of_ends stored⟩

end View

/-! ## Safety -/

theorem Sees.start (body : Body) : Sees body.start ⟨⟨[], []⟩, body.bytes, []⟩ :=
  ⟨body.holds, rfl, rfl⟩

theorem unread_eq {b : IoBuffer} {items : List UInt8} (hb : IoBuffer.Holds b items) :
    unread b = items := by
  obtain ⟨old, rest, haddr, hold⟩ := hb.split
  have hw := hb.w_offset
  rw [unread, haddr, hw, ← List.append_assoc, ← hold, ← List.length_append, List.take_left,
    List.drop_left]

theorem writes_of_viewTurn {v v' : View} (h : viewTurn sys target delimiter v = .next v') :
    v'.stored = v.stored ∨
      ∃ path content, v'.stored = v.stored ++ [(path, content)] ∧ content <:+: v.rest := by
  obtain ⟨names, rest, stored⟩ := v
  rw [viewTurn] at h
  dsimp only at h
  split_ifs at h
  cases hline : offset? CRLF rest with
  | none =>
    rw [hline] at h
    cases h
  | some n =>
    rw [hline] at h
    cases n with
    | zero =>
      dsimp only at h
      cases hpath : file_path target names with
      | none =>
        rw [hpath] at h
        cases h
      | some path =>
        rw [hpath] at h
        dsimp only at h
        split_ifs at h
        cases hend : offset? delimiter (rest.drop 2) with
        | none =>
          rw [hend] at h
          cases h
        | some n =>
          rw [hend] at h
          cases h
          refine .inr ⟨path, _, rfl, ?_⟩
          exact (List.take_prefix _ _).isInfix.trans (List.drop_suffix _ _).isInfix
    | succ n =>
      dsimp only at h
      split_ifs at h
      cases hread : read_header sys target (cString (rest.take (n + 3))) names with
      | none =>
        rw [hread] at h
        cases h
      | some names' =>
        rw [hread] at h
        cases h
        exact .inl rfl

theorem always_orderly (body : Body) :
    Machine.Always (readTurn sys target delimiter) Orderly body.start := by
  intro s t hs hnext
  obtain ⟨v, hv⟩ := similar_viewTurn.reaches (Sees.start body) hs
  rcases similar_viewTurn s v hv with ⟨r, hdone, -⟩ | ⟨hwild, -⟩ | ⟨t', v', ht', hv', hsees⟩
  · rw [hnext] at hdone
    cases hdone
  · rw [hnext] at hwild
    cases hwild
  · obtain rfl : t = t' := Move.next.inj (hnext.symm.trans ht')
    refine ⟨?_, ?_⟩
    · rw [hsees.holds.w_offset]
      exact Nat.le_add_right _ _
    · rw [hsees.stored, hv.stored, unread_eq hv.holds]
      exact writes_of_viewTurn hv'

theorem enters_iff {content_type : Option Text} :
    Enters sys target content_type delimiter ↔
      Provided sys target ∧ delimiterOf content_type = some delimiter := by
  refine and_comm.trans (and_congr_left fun _ ↦ ?_)
  cases target with
  | form root => exact Iff.rfl
  | path upload_path =>
    dsimp only
    simp only [System.provide_iff, exists_or, exists_and_left, exists_and_right, exists_eq,
      and_true, true_and, Provided]

theorem safe_iff (content_type : Option Text) (body : Body) :
    Safe sys target content_type body ↔
      Provided sys target ∧ ∃ delimiter, delimiterOf content_type = some delimiter ∧
        Closed sys target delimiter ⟨[], []⟩ body.bytes := by
  rw [← exists_and_left]
  refine exists_congr fun delimiter ↦ ?_
  rw [and_iff_left (always_orderly body), similar_viewTurn.ends_iff (Sees.start body),
    ← closed_iff_ends [], enters_iff, and_assoc]

/-! ## Lines, and what stands in front of a delimiter -/

/-- A machine that reads what is left comes to a result. -/
def Done (sys : System) (target : Target) (delimiter : Text) (v : View)
    (result : Stored × ℤ) : Prop :=
  ∃ k, Machine.after (viewTurn sys target delimiter) k v = .done result

theorem done_of_next {v v' : View} (h : viewTurn sys target delimiter v = .next v')
    (result : Stored × ℤ) :
    Done sys target delimiter v result ↔ Done sys target delimiter v' result :=
  Machine.done_iff_of_next h

theorem done_of_done {v : View} {result : Stored × ℤ}
    (h : viewTurn sys target delimiter v = .done result) (result' : Stored × ℤ) :
    Done sys target delimiter v result' ↔ result' = result := by
  have hone : Machine.after (viewTurn sys target delimiter) 1 v = .done result := by
    rw [Machine.after, h]
  constructor
  · rintro ⟨k, hk⟩
    exact Machine.done_unique hk hone
  · rintro rfl
    exact ⟨1, hone⟩

section Lines

variable {names : Names} {rest : List UInt8} {stored : Stored} {result : Stored × ℤ}

theorem viewTurn_line {line : Text} (hne : line ≠ []) (hcr : 13 ∉ line) (hzero : 0 ∉ line) :
    viewTurn sys target delimiter ⟨names, line ++ (CRLF ++ rest), stored⟩ =
      if line.length + 3 < 2 ^ 30 then
        match read_header sys target (line ++ CRLF) names with
        | none => .done (stored, -1)
        | some names => .next ⟨names, rest, stored⟩
      else .wild := by
  obtain ⟨n, hn⟩ := Nat.exists_eq_succ_of_ne_zero fun h ↦ hne (List.length_eq_zero_iff.mp h)
  have hline : offset? CRLF (line ++ (CRLF ++ rest)) = some (n + 1) := by
    rw [offset?_crlf hcr, hn]
  have hlen : (line ++ CRLF).length = n + 3 := by
    rw [List.length_append, hn]
    rfl
  have hlong : 2 < (line ++ (CRLF ++ rest)).length := by
    rw [← List.append_assoc, List.length_append, hlen]
    omega
  have hstr : cString (line ++ CRLF) = line ++ CRLF := by
    rw [cString, List.takeWhile_eq_self_iff]
    intro c hc
    rcases List.mem_append.mp hc with hc | hc
    · simpa using fun h : c = 0 ↦ hzero (h ▸ hc)
    · have hends : c = 13 ∨ c = 10 := by simpa [CRLF] using hc
      rcases hends with rfl | rfl <;> rfl
  rw [viewTurn_header hlong hline, ← List.append_assoc, List.take_left' hlen,
    List.drop_left' hlen, hstr, hn]

theorem done_lines {lines : List Text} (h : ∀ line ∈ lines, line ≠ [] ∧ 13 ∉ line ∧ 0 ∉ line)
    {out : Stored} :
    Done sys target delimiter ⟨names, lines.flatMap (· ++ CRLF) ++ rest, stored⟩ (out, 1) ↔
      ∃ names', read_headers sys target lines names = some names' ∧
        Done sys target delimiter ⟨names', rest, stored⟩ (out, 1) := by
  induction lines generalizing names with
  | nil => simp [read_headers]
  | cons line lines ih =>
    obtain ⟨hne, hcr, hzero⟩ := h line List.mem_cons_self
    have hturn : viewTurn sys target delimiter
        ⟨names, line ++ (CRLF ++ (lines.flatMap (· ++ CRLF) ++ rest)), stored⟩ = _ :=
      viewTurn_line hne hcr hzero
    rw [List.flatMap_cons, List.append_assoc, List.append_assoc, read_headers]
    by_cases hfits : line.length + 3 < 2 ^ 30
    · rw [if_pos hfits] at hturn ⊢
      cases hread : read_header sys target (line ++ CRLF) names with
      | none =>
        rw [hread] at hturn
        rw [done_of_done hturn, Option.bind_none]
        exact iff_of_false (fun h ↦ absurd (Prod.mk.inj h).2 (by decide)) nofun
      | some names' =>
        rw [hread] at hturn
        rw [done_of_next hturn, Option.bind_some]
        exact ih fun line hline ↦ h line (List.mem_cons_of_mem _ hline)
    · rw [if_neg hfits] at hturn ⊢
      exact iff_of_false (fun ⟨k, hk⟩ ↦ Machine.not_ends_of_wild hturn ⟨k, _, hk⟩) nofun

theorem done_blank {content : List UInt8} (hne : delimiter ≠ [])
    (hend : offset? delimiter (content ++ (delimiter ++ rest)) = some content.length)
    {out : Stored} :
    Done sys target delimiter ⟨names, CRLF ++ (content ++ (delimiter ++ rest)), stored⟩ (out, 1) ↔
      ∃ path, file_path target names = some path ∧ sys.opens path = true ∧
        Done sys target delimiter ⟨{ names with path }, rest, stored ++ [(path, content)]⟩
          (out, 1) := by
  have hline : offset? CRLF (CRLF ++ (content ++ (delimiter ++ rest))) = some 0 :=
    @offset?_crlf [] List.not_mem_nil _
  have hpos := List.length_pos_iff.mpr hne
  have hlong : 2 < (CRLF ++ (content ++ (delimiter ++ rest))).length := by
    have htwo : CRLF.length = 2 := rfl
    simp only [List.length_append]
    omega
  have hdrop : (CRLF ++ (content ++ (delimiter ++ rest))).drop 2 =
      content ++ (delimiter ++ rest) := rfl
  have hrest : (content ++ (delimiter ++ rest)).drop (content.length + delimiter.length) =
      rest := by
    rw [← List.drop_drop, List.drop_left, List.drop_left]
  have hturn : viewTurn sys target delimiter
      ⟨names, CRLF ++ (content ++ (delimiter ++ rest)), stored⟩ = _ := viewTurn_blank hlong hline
  rw [hdrop, hend] at hturn
  cases hpath : file_path target names with
  | none =>
    rw [hpath] at hturn
    exact iff_of_false (fun ⟨k, hk⟩ ↦ Machine.not_ends_of_wild hturn ⟨k, _, hk⟩) nofun
  | some path =>
    rw [hpath] at hturn
    simp only [Option.some.injEq, exists_eq_left']
    by_cases hopens : sys.opens path = true
    · have hnext := hturn.trans (if_pos hopens)
      dsimp only at hnext
      rw [hrest, List.take_left] at hnext
      rw [done_of_next hnext, and_iff_right hopens]
    · rw [done_of_done (hturn.trans (if_neg hopens))]
      exact iff_of_false (fun h ↦ absurd (Prod.mk.inj h).2 (by decide)) fun h ↦ hopens h.1

end Lines

section Render

variable {boundary : Text} {last : List UInt8} {p : Part}

theorem partEnd_ne_nil (boundary : Text) : partEnd boundary ≠ [] := List.cons_ne_nil _ _

theorem Part.WellFormed.offset?_content (hp : p.WellFormed boundary) (post : List UInt8) :
    offset? (partEnd boundary) (p.content ++ (partEnd boundary ++ post)) =
      some p.content.length := by
  have hfirst : IsFirst (partEnd boundary) (p.content ++ partEnd boundary)
      (some p.content.length) := @IsFirst.of_append _ _ _ _ CRLF hp.content
  have hlong := hfirst.append post
  rw [List.append_assoc] at hlong
  exact (RingBuffer.isFirst_offset? _ _).eq hlong

theorem prefix_line {dashes line : Text} {post : List UInt8} (hcr : 13 ∉ dashes)
    (h : dashes <+: line ++ (CRLF ++ post)) : dashes <+: line := by
  rcases Nat.le_total dashes.length line.length with hle | hle
  · exact List.prefix_of_prefix_length_le h (List.prefix_append _ _) hle
  · obtain ⟨more, rfl⟩ := List.prefix_of_prefix_length_le (List.prefix_append line _) h hle
    cases more with
    | nil =>
      rw [List.append_nil]
    | cons c more =>
      have hcons : c :: more <+: CRLF ++ post := (List.prefix_append_right_inj line).mp h
      have hc : c = 13 := (List.cons_prefix_cons.mp hcons).1
      exact absurd (List.mem_append_right line (hc ▸ List.mem_cons_self)) hcr

theorem le_of_occursAt {needle text rest : List UInt8} {j : ℕ} (hcr : 13 ∉ text)
    (h : OccursAt (13 :: needle) (text ++ rest) j) : text.length ≤ j := by
  by_contra hlt
  have hj : j < text.length := Nat.not_le.mp hlt
  have htake := h.2
  rw [List.drop_append_of_le_length hj.le, List.drop_eq_getElem_cons hj] at htake
  have hbyte : text[j] = 13 := (List.cons.inj htake).1
  exact hcr (hbyte ▸ List.getElem_mem _)

/-- Behind lines, none of which begins with the dashes and the boundary, the first delimiter is
where it is without them. -/
theorem first_lines {lines : List Text} {rest : List UInt8} {m : ℕ} (hboundary : 13 ∉ boundary)
    (hlines : ∀ line ∈ lines, 13 ∉ line ∧ ¬(45 :: 45 :: boundary) <+: line)
    (h : IsFirst (partEnd boundary) (CRLF ++ rest) (some m)) :
    IsFirst (partEnd boundary) (lines.flatMap (· ++ CRLF) ++ (CRLF ++ rest))
      (some ((lines.flatMap (· ++ CRLF)).length + m)) := by
  induction lines with
  | nil => simpa using h
  | cons line lines ih =>
    have hih := ih fun line hline ↦ hlines line (List.mem_cons_of_mem _ hline)
    obtain ⟨hcr, -⟩ := hlines line List.mem_cons_self
    have hdashes : 13 ∉ 45 :: 45 :: boundary := by simpa using hboundary
    have hnot : ¬(45 :: 45 :: boundary) <+: lines.flatMap (· ++ CRLF) ++ (CRLF ++ rest) := by
      intro hpre
      cases lines with
      | nil => exact absurd (List.cons_prefix_cons.mp hpre).1 (by decide)
      | cons line' lines =>
        rw [List.flatMap_cons, List.append_assoc, List.append_assoc] at hpre
        exact (hlines line' (by simp)).2 (prefix_line hdashes hpre)
    rw [List.flatMap_cons, List.append_assoc, List.append_assoc, List.length_append,
      List.length_append, Nat.add_assoc, Nat.add_assoc]
    refine ⟨occursAt_append_length.mpr (occursAt_append_length.mpr hih.1), fun j hj ↦ ?_⟩
    obtain ⟨i, rfl⟩ := Nat.exists_eq_add_of_le (le_of_occursAt hcr hj)
    have hi := occursAt_append_length.mp hj
    match i with
    | 0 =>
      obtain ⟨pre, post, heq, hpre⟩ := occursAt_iff_split.mp hi
      obtain rfl := List.length_eq_zero_iff.mp hpre
      rw [List.nil_append, partEnd, List.append_assoc] at heq
      exact absurd ⟨post, (List.append_cancel_left heq).symm⟩ hnot
    | 1 => exact absurd (List.cons.inj hi.2).1 (by decide)
    | k + 2 =>
      rw [Nat.add_comm k 2] at hi
      have hk := (@occursAt_append_length _ _ _ _ CRLF).mp hi
      have hle := hih.2 k hk
      have htwo : CRLF.length = 2 := rfl
      omega

theorem Part.WellFormed.offset?_raw (hboundary : 13 ∉ boundary) (hp : p.WellFormed boundary)
    (post : List UInt8) :
    offset? (partEnd boundary) (p.raw ++ (partEnd boundary ++ post)) = some p.raw.length := by
  have hfirst := first_lines hboundary
    (fun line hline ↦ ⟨(hp.lines line hline).2.1, (hp.lines line hline).2.2.2⟩) hp.content
  have hlen : p.raw.length = (p.lines.flatMap (· ++ CRLF)).length + (2 + p.content.length) := by
    rw [Part.raw, List.length_append, List.length_append]
    rfl
  have hlong := hfirst.append post
  rw [← hlen, List.append_assoc, List.append_assoc, List.append_assoc, ← List.append_assoc CRLF,
    ← List.append_assoc (p.lines.flatMap (· ++ CRLF))] at hlong
  exact (RingBuffer.isFirst_offset? _ _).eq hlong

variable {names : Names} {stored : Stored} {result : Stored × ℤ}

theorem read_header_dashes (target : Target) (names : Names) :
    read_header sys target ([45, 45] ++ CRLF) names = some names := by
  have hdisposition : strstr (str_to_lower (replace_crlf ([45, 45] ++ CRLF)))
      (ascii "content-disposition") = false := by decide
  have htype : strstr (str_to_lower (replace_crlf ([45, 45] ++ CRLF))) (ascii "content-type") =
      false := by decide
  unfold read_header
  simp only [hdisposition, htype, Bool.false_eq_true, if_false]
  cases target <;> rfl

theorem done_nil (hlast : last = [] ∨ last = CRLF) :
    Done sys target delimiter ⟨names, 45 :: 45 :: last, stored⟩ result ↔ result = (stored, 1) := by
  rcases hlast with rfl | rfl
  · have hfinish : viewTurn sys target delimiter ⟨names, [45, 45], stored⟩ = .done (stored, 1) :=
      viewTurn_finish (.inl (by decide))
    exact done_of_done hfinish result
  · have hturn : viewTurn sys target delimiter ⟨names, [45, 45] ++ (CRLF ++ []), stored⟩ = _ :=
      viewTurn_line (by decide) (by decide) (by decide)
    rw [read_header_dashes] at hturn
    have hnil : viewTurn sys target delimiter ⟨names, [], stored⟩ = .done (stored, 1) :=
      viewTurn_finish (.inl (Nat.zero_le 2))
    exact (done_of_next hturn result).trans (done_of_done hnil result)

theorem stored_of_tail {ps : List Part} (hboundary : 13 ∉ boundary)
    (hlast : last = [] ∨ last = CRLF)
    (hps : ∀ p ∈ ps, p.WellFormed boundary) {out : Stored}
    (h : Done sys target (partEnd boundary) ⟨names, renderTail boundary last ps, stored⟩ (out, 1)) :
    out.map Prod.snd = stored.map Prod.snd ++ ps.map Part.raw := by
  induction ps generalizing names stored with
  | nil =>
    obtain ⟨rfl, -⟩ := Prod.mk.inj ((done_nil hlast).mp h)
    rw [List.map_nil, List.append_nil]
  | cons p ps ih =>
    have hraw := (hps p List.mem_cons_self).offset?_raw hboundary (renderTail boundary last ps)
    obtain ⟨path, -, -, hstored⟩ := (done_blank (partEnd_ne_nil boundary) hraw).mp h
    rw [ih (fun p hp ↦ hps p (List.mem_cons_of_mem _ hp)) hstored]
    simp

theorem Part.file_eq_some {file : Text × List UInt8} (h : p.file target = some file) :
    file.2 = p.content := by
  rw [Part.file] at h
  obtain ⟨f, -, h⟩ := Option.bind_eq_some_iff.mp h
  obtain ⟨dir, -, h⟩ := Option.bind_eq_some_iff.mp h
  obtain rfl := Option.some.inj h
  rfl

theorem contents_sublist (target : Target) (ps : List Part) :
    ((ps.filterMap fun p ↦ p.file target).map Prod.snd).Sublist (ps.map Part.content) := by
  induction ps with
  | nil => exact List.Sublist.refl _
  | cons p ps ih =>
    rw [List.map_cons, List.filterMap_cons]
    cases hfile : p.file target with
    | none => exact ih.cons _
    | some file =>
      rw [← Part.file_eq_some hfile, List.map_cons]
      exact ih.cons_cons _

variable {ps : List Part}

theorem done_render_cons (hw : WellFormed target boundary (p :: ps)) {out : Stored} :
    Done sys target (partEnd boundary) ⟨names, render boundary last (p :: ps), stored⟩ (out, 1) ↔
      ∃ names', read_headers sys target ((45 :: 45 :: boundary) :: p.lines) names = some names' ∧
        ∃ path, file_path target names' = some path ∧ sys.opens path = true ∧
          Done sys target (partEnd boundary)
            ⟨{ names' with path }, renderTail boundary last ps, stored ++ [(path, p.content)]⟩
            (out, 1) := by
  have hp := hw.parts p List.mem_cons_self
  have hlines : ∀ line ∈ (45 :: 45 :: boundary) :: p.lines, line ≠ [] ∧ 13 ∉ line ∧ 0 ∉ line := by
    intro line hline
    rcases List.mem_cons.mp hline with rfl | hline
    · exact ⟨List.cons_ne_nil _ _, by simpa using hw.boundary_text.1,
        by simpa using hw.boundary_text.2⟩
    · obtain ⟨hne, hcr, hzero, -⟩ := hp.lines line hline
      exact ⟨hne, hcr, hzero⟩
  have htext : render boundary last (p :: ps) =
      ((45 :: 45 :: boundary) :: p.lines).flatMap (· ++ CRLF) ++
        (CRLF ++ (p.content ++ (partEnd boundary ++ renderTail boundary last ps))) := by
    simp only [render, renderTail, Part.raw, List.flatMap_cons, List.append_assoc]
  rw [htext, done_lines hlines]
  exact exists_congr fun names' ↦ and_congr_right fun _ ↦
    done_blank (partEnd_ne_nil boundary) (hp.offset?_content _)

theorem done_render_nil (hw : WellFormed target boundary []) (hlast : last = [] ∨ last = CRLF) :
    Done sys target delimiter ⟨⟨[], []⟩, render boundary last [], []⟩ ([], 1) ↔
      Fine sys target boundary last [] := by
  have hcr : 13 ∉ 45 :: 45 :: boundary ++ [45, 45] := by simpa using hw.boundary_text.1
  have hzero : 0 ∉ 45 :: 45 :: boundary ++ [45, 45] := by simpa using hw.boundary_text.2
  rcases hlast with rfl | rfl
  · have hnone : offset? CRLF (render boundary [] []) = none :=
      offset?_crlf_none fun h ↦ hcr (List.mem_of_mem_dropLast h)
    have hfinish : viewTurn sys target delimiter ⟨⟨[], []⟩, render boundary [] [], []⟩ =
        .done ([], 1) := viewTurn_finish (.inr hnone)
    exact iff_of_true ((done_of_done hfinish _).mpr rfl) (.inl rfl)
  · have htext : render boundary CRLF [] =
        (45 :: 45 :: boundary ++ [45, 45]) ++ (CRLF ++ []) := by
      simp only [render, renderTail, List.append_assoc, List.append_nil, List.cons_append,
        List.nil_append]
    have hturn : viewTurn sys target delimiter
        ⟨⟨[], []⟩, 45 :: 45 :: boundary ++ [45, 45] ++ (CRLF ++ []), []⟩ = _ :=
      viewTurn_line (List.cons_ne_nil _ _) hcr hzero
    have hne : CRLF ≠ [] := List.cons_ne_nil _ _
    have hfits : (45 :: 45 :: boundary ++ [45, 45]).length + 3 < 2 ^ 30 := by
      have hshort := hw.length_boundary
      simp only [List.length_append, List.length_cons, List.length_nil]
      omega
    rw [if_pos hfits] at hturn
    rw [htext, Fine, or_iff_right hne]
    cases hread : read_header sys target (45 :: 45 :: boundary ++ [45, 45] ++ CRLF) ⟨[], []⟩ with
    | none =>
      rw [hread] at hturn
      refine iff_of_false (fun h ↦ ?_) (by decide)
      exact absurd (Prod.mk.inj ((done_of_done hturn _).mp h)).2 (by decide)
    | some names =>
      rw [hread] at hturn
      have hnil : viewTurn sys target delimiter ⟨names, [], []⟩ = .done ([], 1) :=
        viewTurn_finish (.inl (Nat.zero_le 2))
      refine iff_of_true ?_ rfl
      exact (done_of_next hturn _).mpr ((done_of_done hnil _).mpr rfl)

theorem not_done_of_two {q : Part} (hw : WellFormed target boundary (p :: q :: ps))
    (hlast : last = [] ∨ last = CRLF) :
    ¬Done sys target (partEnd boundary) ⟨names, render boundary last (p :: q :: ps), []⟩
      ((p :: q :: ps).filterMap fun p ↦ p.file target, 1) := by
  intro h
  obtain ⟨names', -, path, -, -, hstored⟩ := (done_render_cons hw).mp h
  have hmap := stored_of_tail hw.boundary_text.1 hlast
    (fun p hp ↦ hw.parts p (List.mem_cons_of_mem _ hp)) hstored
  have hsub := contents_sublist target (p :: q :: ps)
  rw [hmap] at hsub
  have heq := hsub.eq_of_length (by simp)
  have hq : q.raw = q.content := by
    rw [List.nil_append, List.map_cons, List.map_nil, List.map_cons, List.map_cons,
      List.map_cons] at heq
    exact (List.cons.inj (List.cons.inj heq).2).1
  have hlen := congrArg List.length hq
  rw [Part.raw, List.length_append, List.length_append] at hlen
  have htwo : CRLF.length = 2 := rfl
  omega

/-- The well-formed bodies whose parts are stored are those of one part at most, whose headers lead
to its file. -/
theorem done_render_iff (hw : WellFormed target boundary ps) (hlast : last = [] ∨ last = CRLF) :
    Done sys target (partEnd boundary) ⟨⟨[], []⟩, render boundary last ps, []⟩
      (ps.filterMap fun p ↦ p.file target, 1) ↔ Fine sys target boundary last ps := by
  match ps with
  | [] => exact done_render_nil hw hlast
  | [p] =>
    have hone (path : Text) : ([p].filterMap fun p ↦ p.file target) = [(path, p.content)] ↔
        p.file target = some (path, p.content) := by
      cases hfile : p.file target <;> simp [hfile]
    rw [done_render_cons hw, Fine]
    refine exists_congr fun names ↦ exists_and_left.symm.trans (exists_congr fun path ↦ ?_)
    refine and_congr_right fun _ ↦ and_congr_right fun _ ↦ and_congr_right fun _ ↦ ?_
    rw [← hone path]
    exact (done_nil hlast).trans (by simp)
  | p :: q :: ps => exact iff_of_false (not_done_of_two hw hlast) id

end Render

/-! ## Receiving forms -/

section Receive

variable {boundary : Text} {ps : List Part} {content_type : Option Text} {body : Body}

theorem delimiterOf_eq (hct : content_type.bind get_multipart_boundary = some boundary)
    (hw : WellFormed target boundary ps) : delimiterOf content_type = some (partEnd boundary) := by
  have hlen := hw.length_boundary
  have hwhole : snprintf 256 boundary = boundary := List.take_of_length_le (by omega)
  rw [delimiterOf, hct, Option.bind_eq_bind, Option.bind_some, hwhole, build_part_end_delimiter,
    if_neg (by omega), partEnd]

theorem reads_iff (hdir : Provided sys target)
    (hct : content_type.bind get_multipart_boundary = some boundary)
    (hw : WellFormed target boundary ps) (result : Stored × ℤ) :
    Reads sys target content_type body result ↔
      Done sys target (partEnd boundary) ⟨⟨[], []⟩, body.bytes, []⟩ result := by
  simp only [Reads, enters_iff, and_iff_right hdir, delimiterOf_eq hct hw, Option.some.injEq,
    exists_eq_left']
  exact similar_viewTurn.done_iff (Sees.start body)

/-- A part with a filename and a content of one byte -/
def upload (c : UInt8) : Part :=
  ⟨[ascii "Content-Disposition: form-data; filename=\"" ++ [c, 34]], [c]⟩

def Body.ofBytes (bytes : List UInt8) : Body where
  buffer := ⟨bytes, 0, bytes.length, bytes.length⟩
  bytes := bytes
  holds := ⟨⟨[], [], (List.append_nil bytes).symm, rfl⟩, (Nat.zero_add _).symm, rfl⟩

theorem wellFormed_upload {c : UInt8} (h : c = 97 ∨ c = 98) : (upload c).WellFormed [66] := by
  have hoffset : offset? (partEnd [66]) (CRLF ++ ([c] ++ partEnd [66])) = some 3 := by
    rcases h with rfl | rfl <;> decide
  have hfirst := RingBuffer.isFirst_offset? (partEnd [66]) (CRLF ++ ([c] ++ partEnd [66]))
  rw [hoffset] at hfirst
  refine ⟨fun line hline ↦ ?_, ?_, hfirst⟩
  · obtain rfl := List.mem_singleton.mp hline
    rcases h with rfl | rfl <;>
    exact ⟨by decide, by decide, by decide, by decide⟩
  · rcases h with rfl | rfl <;> decide

end Receive

end Multipart

end Libobject
