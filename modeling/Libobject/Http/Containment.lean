import Libobject.Core.FileSystem
import Libobject.Http.Multipart
import Libobject.Lib.Paths

/-!
# Where the paths of requests lead

A server puts the uri of a request, or a directory and the name of an upload, behind its root, and
cuts the text to an array of 1024 bytes. What has that path is opened, listed or made. A directory
is listed if the `pre_callback` of its handler lets it be.
-/

namespace Libobject.Http

open Scan Paths FileSystem Multipart

/-! ## Requests for files -/

/-- A directory whose path ends with a name, and which is not below a home directory `~`. -/
structure Root where
  dir : Text
  name : Text
  step_name : step name = .down name
  slash_notMem : 47 ∉ name
  plain : Disk.Plain (dir ++ 47 :: name)

def Root.text (root : Root) : Text := root.dir ++ 47 :: root.name

structure Server extends System where
  root : Root
  cwd : List Text
  lists : Bool

/-- A path that is composed, and what is used of it. -/
structure Access where
  composed : Text
  path : Text

namespace Server

variable (s : Server)

def served (uri : Text) : Access :=
  ⟨s.root.text ++ uri, snprintf MAX_FILE_NAME_LEN (s.root.text ++ uri)⟩

def handler_get_directory_list (uri : Text) : List Access :=
  if (s.disk.dirAt (s.served uri).path).isSome then [s.served uri] else []

/-- `range` is whether the range handler can serve the range that is asked for. -/
def process_static_request (uri : Text) (range : Option Bool) : List Access :=
  match s.disk.dirAt (s.served uri).path with
  | some _ => if s.lists then s.handler_get_directory_list uri else []
  | none => if range = some false ∨ s.disk.refuses (s.served uri).path then [] else [s.served uri]

/-- A request with `GET` or `HEAD`. Where there is nothing, the uri may be that of a handler. -/
def process_get (uri : Text) (range : Option Bool) : List Access :=
  if (s.disk.dirAt (s.served uri).path).isSome ∨ (s.disk.files (s.served uri).path).isSome then
    s.process_static_request uri range
  else if uri = ascii "/api/get_dir_list" ∧ s.lists then s.handler_get_directory_list uri
  else []

end Server

/-! ## Uploads -/

inductive Handler
  | upload
  | upload_to_path

/-- The handler of a `POST` request: its path is `/api/upload`, or begins so. -/
def post_handler (uri : Text) : Option Handler :=
  if uri = ascii "/api/upload" then some .upload
  else if (ascii "/api/upload").isPrefixOf uri then some .upload_to_path
  else none

def is_body_multipart_form_data (content_type : Option Text) : Bool :=
  content_type.any fun value ↦ strstr value (ascii "multipart/form-data")

/-- `replace(str, word, "", -1)`, with `n` bytes of a place of the word to be passed over. -/
def without (word : Text) : ℕ → Text → Text
  | _, [] => []
  | n + 1, _ :: s => without word n s
  | 0, c :: s =>
    if word.isPrefixOf (c :: s) then without word (word.length - 1) s
    else c :: without word 0 s

/-- Of an empty text, the byte in front of it is read. -/
def relative_path (uri : Text) : Option Text :=
  let str := without (ascii "/api/upload/") 0 uri
  str.getLast?.map fun c ↦ if c = 47 then str.dropLast else str

/-- The path of a part, which `file_path` cuts. -/
def part_path (target : Target) (names : Names) : Text :=
  match target with
  | .path upload_path => upload_path ++ 47 :: names.filename
  | .form _ => names.path ++ 47 :: names.filename

/-- The loop comes to a blank line. -/
def blank (t : Reading) : Bool :=
  2 < t.buffer.get_len &&
    match t.buffer.get_needle_offset CRLF with
    | some (some len) =>
      match t.buffer.read_to_string Str.init (len + 2) with
      | some (_, answer) => 0 ≤ answer.ret && cString answer.bytes = CRLF
      | none => false
    | _ => false

namespace Server

variable (s : Server)

/-- The directory of images or videos. -/
def media_path (type : Form_Data_Type) : Access :=
  ⟨s.root.text ++ 47 :: dir_name type,
    snprintf MAX_FILE_NAME_LEN (s.root.text ++ 47 :: dir_name type)⟩

def upload_path (relative : Text) : Access :=
  ⟨s.root.text ++ 47 :: relative,
    snprintf MAX_FILE_NAME_LEN (s.root.text ++ 47 :: snprintf MAX_FILE_NAME_LEN relative)⟩

/-! ## Confinement -/

def Below (p : Text) : Prop := resolve s.cwd s.root.text <+: resolve s.cwd p

/-- What is used is below the root, and at the place that was composed. -/
def Within (a : Access) : Prop :=
  s.Below a.path ∧ resolve s.cwd a.path = resolve s.cwd a.composed

/-- Wherever the loop over the body comes to the content of a part. -/
def EachPart (target : Target) (content_type : Option Text) (body : Body) (P : Reading → Prop) :
    Prop :=
  ∀ delimiter, delimiterOf content_type = some delimiter →
    ∀ t, Machine.Reaches (readTurn s.toSystem target delimiter) body.start t → blank t → P t

def PartsWithin (target : Target) (content_type : Option Text) (body : Body) : Prop :=
  s.EachPart target content_type body fun t ↦
    ∃ path, file_path target t.names = some path ∧
      (s.opens path → s.Within ⟨part_path target t.names, path⟩)

/-- The directories that are made are below the root, and the parts are stored in the last one. An
error before the loop is undefined. -/
def UploadsWithin (up : Access) (content_type : Option Text) (body : Body) : Prop :=
  (delimiterOf content_type).isSome ∧ resolve s.cwd up.path = resolve s.cwd up.composed ∧
    (∃ made, s.provide up.path = .ok (made, true) ∧ ∀ q ∈ made, s.Below q) ∧
      s.PartsWithin (.path up.path) content_type body

end Server

inductive Query
  | get (uri : Text) (range : Option Bool)
  | post (uri : Text) (content_type : Option Text) (body : Body)

/-- Everything that is opened, listed or made for a request is below the root. -/
def Server.Confines (s : Server) : Query → Prop
  | .get uri range => ∀ a ∈ s.process_get uri range, s.Within a
  | .post uri content_type body =>
    match post_handler uri with
    | none => True
    | some .upload =>
      is_body_multipart_form_data content_type →
        (delimiterOf content_type).isSome ∧ (∀ type, s.Within (s.media_path type)) ∧
          s.PartsWithin (.form s.root.text) content_type body
    | some .upload_to_path =>
      is_body_multipart_form_data content_type →
        ∃ relative, relative_path uri = some relative ∧
          s.UploadsWithin (s.upload_path relative) content_type body

/-! ## Ways out -/

namespace Root

variable (root : Root) (cwd : List Text)

def parent : List Text := resolve cwd (root.dir ++ [47])

/-- A text behind the root's leads on below the root, or up from it and down to it again. -/
def Keeps (t : Text) : Prop :=
  let r := route (steps (root.name ++ t))
  (root.parent cwd ++ [root.name]).drop ((root.parent cwd).length - r.ups) <+: r.names

/-- Where a text behind the root's leads. -/
def reach (t : Text) : List Text := (route (steps (root.name ++ t))).place (root.parent cwd)

/-- What of a text fits behind the root's. -/
def cut (t : Text) : Text := t.take (MAX_FILE_NAME_LEN - 1 - root.text.length)

/-- What fits does not lead out of the root, and the rest leads nowhere. -/
def Serves (t : Text) : Prop :=
  root.Keeps cwd (root.cut t) ∧ root.reach cwd (root.cut t) = root.reach cwd t

end Root

namespace Server

variable (s : Server)

/-- There is something at the path of a uri that can be listed or sent. -/
def Offers (uri : Text) (range : Option Bool) : Prop :=
  ((s.disk.dirAt (s.served uri).path).isSome ∧ s.lists) ∨
    s.disk.dirAt (s.served uri).path = none ∧ (s.disk.files (s.served uri).path).isSome ∧
      ¬(range = some false ∨ s.disk.refuses (s.served uri).path)

/-- The file of a part whose headers `__read_form_data` has read: its path fits and, if the file can
be opened, is below the root. -/
def KeepsForm (names : Names) : Prop :=
  let path := names.path ++ 47 :: names.filename
  path.length < MAX_FILE_NAME_LEN ∧
    (s.opens path →
      match s.root.text.isPrefixOf? names.path with
      | some t => s.root.Keeps s.cwd (t ++ 47 :: names.filename)
      | none => resolve s.cwd s.root.text <+: (route (steps path)).names)

/-- The file of a part below `up`. -/
def KeepsPath (up : Text) (names : Names) : Prop :=
  s.opens (snprintf MAX_FILE_NAME_LEN (s.root.text ++ (up ++ 47 :: names.filename))) →
    s.root.Serves s.cwd (up ++ 47 :: names.filename)

/-- What is missing of the way to a directory can be made, and is below the root. -/
def KeepsUpload (up : Text) : Prop :=
  up.length < 128 ∧ (s.disk.fs_is_exist up = .ok false → ∀ q ∈ s.ways up,
    ∃ e, s.disk.expand 128 q = .ok e ∧ (s.access e = true ∨ s.mkdir q = true ∧ s.Below q))

/-- The uri and the names of the files do not lead out of the root, as far as they fit. -/
def Keeps : Query → Prop
  | .get uri range => s.Offers uri range → s.root.Serves s.cwd uri
  | .post uri content_type body =>
    match post_handler uri with
    | none => True
    | some .upload =>
      is_body_multipart_form_data content_type →
        (delimiterOf content_type).isSome ∧
          s.EachPart (.form s.root.text) content_type body fun t ↦ s.KeepsForm t.names
    | some .upload_to_path =>
      is_body_multipart_form_data content_type →
        ∃ relative, relative_path uri = some relative ∧ (delimiterOf content_type).isSome ∧
          s.KeepsUpload (s.root.text ++ 47 :: relative) ∧
            s.EachPart (.path (s.root.text ++ 47 :: relative)) content_type body fun t ↦
              s.KeepsPath (47 :: relative) t.names

end Server

/-! ## Texts behind the root -/

namespace Root

variable {root : Root} {cwd : List Text} {t : Text}

theorem length_text (root : Root) : root.text.length < 128 := root.plain.2

theorem head?_append (root : Root) (t : Text) : (root.text ++ t).head? ≠ some 126 := by
  have hhead : (root.text ++ t).head? = (root.dir ++ 47 :: root.name).head? := by
    rw [text]
    cases root.dir <;> rfl
  rw [hhead]
  exact root.plain.1

theorem resolve_append (root : Root) (cwd : List Text) (t : Text) :
    resolve cwd (root.text ++ t) = root.reach cwd t := by
  rw [text, List.append_assoc, List.cons_append, resolve_slash, walk_eq]
  rfl

theorem resolve_text (root : Root) (cwd : List Text) :
    resolve cwd root.text = root.parent cwd ++ [root.name] := by
  rw [text, resolve_slash, steps_of_notMem root.slash_notMem, root.step_name]
  rfl

theorem keeps_iff : resolve cwd root.text <+: root.reach cwd t ↔ root.Keeps cwd t := by
  rw [resolve_text]
  exact Route.prefix_place_iff _ _ _

theorem keeps_of_ups (root : Root) (cwd : List Text) (h : (route (steps t)).ups = 0) :
    root.Keeps cwd (47 :: t) := by
  have hslash : resolve cwd (root.text ++ [47]) = resolve cwd root.text := by
    rw [resolve_text, text, List.append_assoc, List.cons_append, resolve_slash, steps_slash,
      steps_of_notMem root.slash_notMem, root.step_name]
    rfl
  rw [← keeps_iff, ← resolve_append, resolve_slash, hslash]
  exact prefix_walk_of_ups h _

theorem snprintf_append (root : Root) (t : Text) :
    snprintf MAX_FILE_NAME_LEN (root.text ++ t) = root.text ++ root.cut t := by
  have hlen := root.length_text
  have hmax : 128 ≤ MAX_FILE_NAME_LEN - 1 := by decide
  rw [snprintf, List.take_append, List.take_of_length_le (by omega), cut]

theorem cut_eq (h : root.text.length + t.length < MAX_FILE_NAME_LEN) : root.cut t = t :=
  List.take_of_length_le (by omega)

theorem serves_iff_of_fits (h : root.text.length + t.length < MAX_FILE_NAME_LEN) :
    root.Serves cwd t ↔ root.Keeps cwd t := by
  rw [Serves, cut_eq h]
  exact and_iff_left rfl

end Root

namespace Server

variable {s : Server}

theorem within_iff (t : Text) :
    s.Within ⟨s.root.text ++ t, snprintf MAX_FILE_NAME_LEN (s.root.text ++ t)⟩ ↔
      s.root.Serves s.cwd t := by
  rw [Within, Below, Root.snprintf_append, Root.resolve_append, Root.resolve_append, Root.keeps_iff]
  rfl

/-! ## Requests for files -/

theorem mem_process_get {uri : Text} {range : Option Bool} {a : Access} :
    a ∈ s.process_get uri range ↔ s.Offers uri range ∧ a = s.served uri := by
  rw [process_get, process_static_request, handler_get_directory_list, Offers]
  cases hdir : s.disk.dirAt (s.served uri).path with
  | some ns =>
    rw [if_pos (.inl rfl)]
    cases s.lists <;> simp
  | none =>
    cases hfile : s.disk.files (s.served uri).path with
    | none => simp
    | some c =>
      rw [if_pos (.inr rfl)]
      by_cases hno : range = some false ∨ s.disk.refuses (s.served uri).path
      · simp [hno]
      · simp [hno]

theorem get_confines_iff (uri : Text) (range : Option Bool) :
    s.Confines (.get uri range) ↔ s.Keeps (.get uri range) := by
  constructor
  · intro h hoffers
    exact (within_iff uri).mp (h _ (mem_process_get.mpr ⟨hoffers, rfl⟩))
  · intro h a ha
    obtain ⟨hoffers, rfl⟩ := mem_process_get.mp ha
    exact (within_iff uri).mpr (h hoffers)

/-! ## Uploads -/

theorem media_within (type : Form_Data_Type) : s.Within (s.media_path type) := by
  have hlen := s.root.length_text
  have hmax : 128 + 7 ≤ MAX_FILE_NAME_LEN := by decide
  have hfits : s.root.text.length + (47 :: dir_name type).length < MAX_FILE_NAME_LEN := by
    have hdir : (47 :: dir_name type).length = 7 := by cases type <;> decide
    omega
  refine (within_iff _).mpr ((Root.serves_iff_of_fits hfits).mpr ?_)
  apply Root.keeps_of_ups
  cases type <;> decide

end Server

section Loop

variable {sys : System} {target : Target} {delimiter : Text} {t u : Reading}

theorem names_of_readTurn (h : readTurn sys target delimiter t = .next u) :
    (∃ path, file_path target t.names = some path ∧ u.names = { t.names with path }) ∨
      ∃ str, read_header sys target str t.names = some u.names := by
  rw [readTurn] at h
  split at h
  · cases h
  split at h
  · cases h
  · cases h
  split at h
  · cases h
  split at h
  · cases h
  split at h
  · split at h
    · next path _ hpath =>
        split at h
        · split at h
          · cases h
          · cases h
            exact .inl ⟨path, hpath, rfl⟩
        · cases h
    · cases h
  · split at h
    · cases h
    · next hread =>
        cases h
        exact .inr ⟨_, hread⟩

end Loop

section Form

/-- A name is read from a line, and the path is empty, absolute or behind the root's. -/
structure FormNames (root : Root) (names : Names) : Prop where
  filename : names.filename.length + 11 < MAX_FILE_NAME_LEN
  path : names.path = [] ∨ names.path.head? = some 47 ∨ root.text <+: names.path

theorem length_of_get_filename {s name : Text} (h : get_filename s = some name) :
    name.length + 11 ≤ s.length := by
  obtain ⟨t, ht, hmatch⟩ := List.exists_of_findSome?_eq_some h
  have hle : t.length ≤ s.length := ((List.mem_tails t s).mp ht).length_le
  rw [matchFilename] at hmatch
  split_ifs at hmatch with hcond
  obtain ⟨-, -, hquote⟩ := hcond
  cases hmatch
  obtain ⟨rest, hrest⟩ := List.head?_eq_some_iff.mp hquote
  have hlen := congrArg List.length hrest
  rw [List.length_drop, List.length_cons] at hlen
  omega

variable {s : Server} {names names' : Names}

theorem FormNames.read_header {str : Text} (h : FormNames s.root names)
    (hread : Multipart.read_header s.toSystem (.form s.root.text) str names = some names') :
    FormNames s.root names' := by
  rw [Multipart.read_header] at hread
  split_ifs at hread
  · obtain ⟨filename, hget, rfl⟩ := Option.map_eq_some_iff.mp hread
    have hlen := length_of_get_filename hget
    have hline : (snprintf MAX_FILE_NAME_LEN (replace_crlf str)).length ≤ MAX_FILE_NAME_LEN - 1 :=
      List.length_take_le _ _
    have hmax : 0 < MAX_FILE_NAME_LEN := by decide
    refine ⟨?_, h.path⟩
    rw [snprintf, List.length_take]
    omega
  · obtain ⟨type, -, htype⟩ := Option.bind_eq_some_iff.mp hread
    dsimp only at htype
    split_ifs at htype
    cases htype
    refine ⟨h.filename, .inr (.inr ?_)⟩
    rw [Root.snprintf_append]
    exact List.prefix_append _ _
  · cases hread
    exact h

theorem FormNames.file_path {path : Text} (h : FormNames s.root names)
    (hpath : Multipart.file_path (.form s.root.text) names = some path) :
    FormNames s.root { names with path } := by
  rw [Multipart.file_path] at hpath
  split_ifs at hpath
  cases hpath
  refine ⟨h.filename, ?_⟩
  rcases h.path with hnil | hslash | hroot
  · rw [hnil]
    exact .inr (.inl rfl)
  · obtain ⟨rest, hrest⟩ := List.head?_eq_some_iff.mp hslash
    rw [hrest]
    exact .inr (.inl rfl)
  · exact .inr (.inr (hroot.trans (List.prefix_append _ _)))

theorem FormNames.readTurn {delimiter : Text} {t u : Reading} (h : FormNames s.root t.names)
    (hturn : Multipart.readTurn s.toSystem (.form s.root.text) delimiter t = .next u) :
    FormNames s.root u.names := by
  rcases names_of_readTurn hturn with ⟨path, hpath, hnames⟩ | ⟨str, hread⟩
  · rw [hnames]
    exact h.file_path hpath
  · exact h.read_header hread

theorem FormNames.file_path_eq (h : FormNames s.root names) :
    Multipart.file_path (.form s.root.text) names =
      if (names.path ++ 47 :: names.filename).length < MAX_FILE_NAME_LEN then
        some (names.path ++ 47 :: names.filename)
      else none := by
  have hlen := h.filename
  have hname : snprintf MAX_FILE_NAME_LEN (47 :: names.filename) = 47 :: names.filename := by
    apply List.take_of_length_le
    rw [List.length_cons]
    omega
  rw [Multipart.file_path, hname, List.length_append]

theorem FormNames.below_iff (h : FormNames s.root names) :
    resolve s.cwd s.root.text <+: resolve s.cwd (names.path ++ 47 :: names.filename) ↔
      match s.root.text.isPrefixOf? names.path with
      | some t => s.root.Keeps s.cwd (t ++ 47 :: names.filename)
      | none =>
        resolve s.cwd s.root.text <+:
          (route (steps (names.path ++ 47 :: names.filename))).names := by
  cases hroot : s.root.text.isPrefixOf? names.path with
  | some t =>
    have hpath := List.isPrefixOf?_eq_some_iff_append_eq.mp hroot
    dsimp only
    rw [← hpath, List.append_assoc, Root.resolve_append, Root.keeps_iff]
  | none =>
    have hnot : ¬s.root.text <+: names.path := by
      rintro ⟨t, ht⟩
      rw [List.isPrefixOf?_eq_some_iff_append_eq.mpr ht] at hroot
      cases hroot
    have hhead : (names.path ++ 47 :: names.filename).head? = some 47 := by
      rcases h.path with hnil | hslash | hpre
      · rw [hnil]
        rfl
      · rw [List.head?_append, hslash]
        rfl
      · exact absurd hpre hnot
    dsimp only
    rw [resolve_absolute s.cwd hhead, walk_eq, Route.place, List.take_nil, List.nil_append]

theorem FormNames.within_iff (h : FormNames s.root names) :
    (∃ path, Multipart.file_path (.form s.root.text) names = some path ∧
      (s.opens path → s.Within ⟨part_path (.form s.root.text) names, path⟩)) ↔
        s.KeepsForm names := by
  rw [h.file_path_eq, Server.KeepsForm, part_path]
  by_cases hfits : (names.path ++ 47 :: names.filename).length < MAX_FILE_NAME_LEN
  · rw [if_pos hfits, and_iff_right hfits, ← h.below_iff]
    constructor
    · rintro ⟨path, hsome, hpath⟩ hopens
      cases hsome
      exact (hpath hopens).1
    · exact fun hbelow ↦ ⟨_, rfl, fun hopens ↦ ⟨hbelow hopens, rfl⟩⟩
  · rw [if_neg hfits]
    exact iff_of_false (fun ⟨_, hnone, _⟩ ↦ by cases hnone) fun hkeeps ↦ hfits hkeeps.1

theorem parts_form_iff (content_type : Option Text) (body : Body) :
    s.PartsWithin (.form s.root.text) content_type body ↔
      s.EachPart (.form s.root.text) content_type body fun t ↦ s.KeepsForm t.names := by
  refine forall_congr' fun delimiter ↦ forall_congr' fun _ ↦ forall_congr' fun t ↦
    forall_congr' fun ht ↦ forall_congr' fun _ ↦ ?_
  have hshort : 0 + 11 < MAX_FILE_NAME_LEN := by decide
  have hstart : FormNames s.root body.start.names := ⟨hshort, .inl rfl⟩
  have hnames : FormNames s.root t.names :=
    ht.keeps (P := fun t ↦ FormNames s.root t.names) (fun _ _ h hturn ↦ h.readTurn hturn) hstart
  exact hnames.within_iff

end Form

namespace Server

variable {s : Server}

theorem parts_path_iff (up : Text) (content_type : Option Text) (body : Body) :
    s.PartsWithin (.path (s.root.text ++ up)) content_type body ↔
      s.EachPart (.path (s.root.text ++ up)) content_type body fun t ↦ s.KeepsPath up t.names := by
  refine forall_congr' fun delimiter ↦ forall_congr' fun _ ↦ forall_congr' fun t ↦
    forall_congr' fun _ ↦ forall_congr' fun _ ↦ ?_
  dsimp only
  rw [file_path, part_path, KeepsPath, ← within_iff, List.append_assoc]
  constructor
  · rintro ⟨path, hsome, hpath⟩
    cases hsome
    exact hpath
  · exact fun hpath ↦ ⟨_, rfl, hpath⟩

theorem missing_below_iff {q : Text} :
    s.Passes q ∧ (s.lacks q = true → s.Below q) ↔
      ∃ e, s.disk.expand 128 q = .ok e ∧ (s.access e = true ∨ s.mkdir q = true ∧ s.Below q) := by
  rw [System.Passes, System.lacks, System.fs_is_exist]
  cases s.disk.expand 128 q with
  | error e => simp
  | ok e => cases haccess : s.access e <;> simp [Except.map, haccess]

/-- With a name at its end, a root is longer than what `tmp` has no room for. -/
theorem roomy_upload (relative : Text) : System.Roomy (s.root.text ++ 47 :: relative) := by
  intro hlen
  have hname : s.root.name ≠ [] := by
    intro hnil
    have hstep := s.root.step_name
    rw [hnil] at hstep
    cases hstep
  have hpos := List.length_pos_iff.mpr hname
  rw [Root.text, List.length_append, List.length_append, List.length_cons, List.length_cons] at hlen
  omega

theorem keeps_upload_iff {up : Text} (hplain : Disk.Plain up) (hroomy : System.Roomy up) :
    (∃ made, s.provide up = .ok (made, true) ∧ ∀ q ∈ made, s.Below q) ↔ s.KeepsUpload up := by
  simp only [System.provide_iff, KeepsUpload, and_iff_right hplain.2, ← missing_below_iff]
  rw [Disk.fs_is_exist_plain hplain]
  cases (s.disk.files up).isSome || (s.disk.dirAt up).isSome with
  | true => exact iff_of_true ⟨[], .inl ⟨rfl, rfl⟩, nofun⟩ nofun
  | false =>
    simp only [Except.ok.injEq, Bool.false_eq_true, false_and, false_or, true_and,
      true_imp_iff, and_iff_right hroomy, and_assoc, exists_eq_left, List.mem_filter, and_imp,
      forall_and]

theorem uploads_within_iff (relative : Text) (content_type : Option Text) (body : Body) :
    s.UploadsWithin (s.upload_path relative) content_type body ↔
      (delimiterOf content_type).isSome ∧ s.KeepsUpload (s.root.text ++ 47 :: relative) ∧
        s.EachPart (.path (s.root.text ++ 47 :: relative)) content_type body fun t ↦
          s.KeepsPath (47 :: relative) t.names := by
  refine and_congr_right fun _ ↦ ?_
  have hroot := s.root.length_text
  have hmax : 128 < MAX_FILE_NAME_LEN := by decide
  have hup : (s.root.text ++ 47 :: relative).length = s.root.text.length + relative.length + 1 := by
    rw [List.length_append, List.length_cons]
    rfl
  by_cases hshort : (s.root.text ++ 47 :: relative).length < 128
  · have hrelative : snprintf MAX_FILE_NAME_LEN relative = relative :=
      List.take_of_length_le (by omega)
    have hfits : s.root.text.length + (47 :: relative).length < MAX_FILE_NAME_LEN := by
      rw [List.length_cons]
      omega
    have hpath : (s.upload_path relative).path = s.root.text ++ 47 :: relative := by
      rw [upload_path, hrelative, Root.snprintf_append, Root.cut_eq hfits]
    have hcomposed : (s.upload_path relative).composed = s.root.text ++ 47 :: relative := rfl
    rw [hpath, hcomposed, and_iff_right rfl, parts_path_iff,
      keeps_upload_iff ⟨s.root.head?_append _, hshort⟩ (roomy_upload relative)]
  · have hpath : (s.upload_path relative).path =
        s.root.text ++ s.root.cut (47 :: snprintf MAX_FILE_NAME_LEN relative) :=
      Root.snprintf_append _ _
    have hlong : 128 ≤ (s.upload_path relative).path.length := by
      rw [hpath, List.length_append, Root.cut, List.length_take, List.length_cons, snprintf,
        List.length_take]
      omega
    have hexist : s.disk.fs_is_exist (s.upload_path relative).path = .error .undefined := by
      rw [Disk.fs_is_exist, Disk.expand, hpath, if_neg (s.root.head?_append _), ← hpath,
        if_pos hlong]
      rfl
    have hno (made : List Text) : s.provide (s.upload_path relative).path ≠ .ok (made, true) := by
      rw [System.provide, hexist]
      intro h
      cases h
    refine iff_of_false ?_ fun h ↦ hshort h.1.1
    rintro ⟨-, ⟨made, hmade, -⟩, -⟩
    exact hno made hmade

end Server

/-! ## A way out -/

theorem slash_notMem_root : 47 ∉ ascii "r" := by decide

theorem plain_root : Disk.Plain ([] ++ 47 :: ascii "r") := by decide

/-- The root is `/r`, and there is a file beside it. -/
def besideRoot : Server where
  root := ⟨[], ascii "r", rfl, slash_notMem_root, plain_root⟩
  cwd := []
  disk := .ofFiles fun p ↦ if p = ascii "/r/../x" then some [] else none
  lists := false
  access := fun _ ↦ false
  mkdir := fun _ ↦ false
  opens := fun _ ↦ false

end Libobject.Http
