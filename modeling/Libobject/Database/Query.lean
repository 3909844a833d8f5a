import Libobject.Core.String
import Libobject.Lib.Json

/-!
# Queries to JSON

`Orm_Conn.query` prints the result of a query piece by piece, each behind the last one. What is left
of the buffer is an `int` that is passed on as a `size_t`: behind the buffer's end the print is not
bounded at all.
-/

namespace Libobject.OrmQuery

open Scan

/-- What a query gave: the columns and the rows, where texts and rows may be missing. A row has a
cell for each column. -/
structure Result where
  columns : List (Option CText)
  rows : List (Option (List (Option CText)))
  width : ∀ row ∈ rows, ∀ r ∈ row, r.length = columns.length

/-- The caller's buffer and how far `query` has come in it. -/
structure Out where
  json_buf : List UInt8
  offset : ℕ
  deriving DecidableEq

/-- `offset += snprintf(json_buf + offset, buf_size - offset, ..)` of a text. It is missing where a
byte would be written behind the buffer or the offset is no `int`. -/
def Out.print (out : Out) (text : Text) : Option Out :=
  let buf_size := out.json_buf.length
  if 2 ^ 31 ≤ out.offset + text.length then none
  else if out.offset = buf_size then some ⟨out.json_buf, out.offset + text.length⟩
  else
    let shown := if out.offset < buf_size then text.take (buf_size - out.offset - 1) else text
    (Buffer.put out.json_buf out.offset (shown ++ [0])).map (⟨·, out.offset + text.length⟩)

/-- What is printed of a text that may be missing. -/
def shown (text : Option CText) : Text := text.elim [] Subtype.val

/-- The loop over the cells of a row. -/
def print_cells : Bool → List (Option CText × Option CText) → Out → Option Out
  | _, [], out => some out
  | first, (column_name, column) :: rest, out => do
    let out ← if first then some out else out.print [44]
    let out ← out.print
      ([34] ++ shown column_name ++ [34, 58, 34] ++ shown column ++ [34])
    print_cells false rest out

/-- The loop over the rows. -/
def print_rows (columns : List (Option CText)) :
    Bool → List (Option (List (Option CText))) → Out → Option Out
  | _, [], out => some out
  | first, r :: rest, out => do
    let out ← if first then some out else out.print [44]
    let out ← out.print [123]
    let out ← print_cells true (columns.zip (r.getD [])) out
    let out ← out.print [125]
    print_rows columns false rest out

/-- The buffer after the call and the value that it returns. -/
def query (result : Result) (json_buf : List UInt8) : Option Out := do
  let out ← Out.print ⟨json_buf, 0⟩ [91]
  let out ← print_rows result.columns true result.rows out
  out.print [93]

/-! ## What is meant -/

/-- The members of the object for a row. -/
def Result.members (result : Result) (r : Option (List (Option CText))) : List (Text × Text) :=
  (result.columns.zip (r.getD [])).map fun (name, cell) ↦ (shown name, shown cell)

/-- One object a row. -/
def Result.meaning (result : Result) : List (List (Text × Text)) :=
  result.rows.map result.members

/-- A document that is an array of objects whose members are strings. -/
def Document : Text → List (List (Text × Text)) → Prop :=
  Json.Padded (Json.Array (Json.Object Json.Quoted))

/-- The document that is printed. -/
def render (rows : List (List (Text × Text))) : Text :=
  Json.enclosed 91 93
    (rows.map fun row ↦ Json.enclosed 123 125 (row.map (Json.member Json.quoted)))

/-- How many characters of names and cells do not stand for themselves in JSON. -/
def special (rows : List (List (Text × Text))) : ℕ :=
  (rows.map fun row ↦ (row.map fun m ↦ Json.special m.1 + Json.special m.2).sum).sum

theorem special_eq_zero {rows : List (List (Text × Text))} :
    special rows = 0 ↔ ∀ row ∈ rows, ∀ m ∈ row,
      (∀ c ∈ m.1, Json.Plain c) ∧ ∀ c ∈ m.2, Json.Plain c := by
  simp only [special, List.sum_eq_zero_iff_forall_eq_nat, List.forall_mem_map, Nat.add_eq_zero_iff,
    Json.special_eq_zero]

theorem faithful_document : Json.Faithful Document render special :=
  ((Json.faithful_quoted.member.enclosed 123 125).enclosed 91 93).padded

/-! ## What is printed -/

/-- As many bytes as `u` has were printed to a buffer of size `n`, which begins with these as long
as they fit. -/
structure Holds (n : ℕ) (u : Text) (out : Out) : Prop where
  offset_eq : out.offset = u.length
  length_eq : out.json_buf.length = n
  take_eq : u.length < n → out.json_buf.take u.length = u

variable {n : ℕ} {u t : Text} {out out' : Out}

theorem Holds.isSome_iff (h : Holds n u out) :
    (out.print t).isSome ↔ u.length ≤ n ∧ u.length + t.length < 2 ^ 31 := by
  rw [Out.print, h.offset_eq, h.length_eq]
  split
  · next hbig => exact ⟨Bool.noConfusion, fun hs ↦ absurd hs.2 (not_lt.mpr hbig)⟩
  next hbig =>
  split
  · exact ⟨fun _ ↦ by omega, fun _ ↦ rfl⟩
  · next hne =>
    dsimp only
    rw [Option.isSome_map, Buffer.put_isSome, h.length_eq, List.length_append,
      List.length_singleton]
    split
    · rw [List.length_take]
      omega
    · omega

theorem Holds.print (h : Holds n u out) (hprint : out.print t = some out') :
    Holds n (u ++ t) out' ∧
      (u.length + t.length < n → ∃ rest, out'.json_buf = u ++ t ++ 0 :: rest) := by
  rw [Out.print, h.offset_eq, h.length_eq] at hprint
  split at hprint
  · cases hprint
  split at hprint
  · next heq =>
    cases hprint
    exact ⟨⟨List.length_append.symm, h.length_eq, fun hlt ↦ by
      rw [List.length_append] at hlt
      omega⟩, fun hlt ↦ by omega⟩
  next hne =>
  obtain ⟨buf, hput, rfl⟩ := Option.map_eq_some_iff.mp hprint
  have hlength := (Buffer.length_put hput).trans h.length_eq
  have hrest : u.length + t.length < n → ∃ rest, buf = u ++ t ++ 0 :: rest := by
    intro hlt
    rw [if_pos (by omega), List.take_of_length_le (by omega), Buffer.put] at hput
    split at hput
    · cases hput
      exact ⟨_, by rw [h.take_eq (by omega), List.append_assoc u, List.append_assoc u,
        List.append_assoc t, List.singleton_append]⟩
    · cases hput
  refine ⟨⟨List.length_append.symm, hlength, fun hlt ↦ ?_⟩, hrest⟩
  obtain ⟨rest, rfl⟩ := hrest (by rwa [List.length_append] at hlt)
  exact List.take_left

/-- A part of the call prints the text `t`. -/
structure Prints (part : Out → Option Out) (t : Text) : Prop where
  holds : ∀ {n u out out'}, Holds n u out → part out = some out' → Holds n (u ++ t) out'
  isSome : ∀ {n u out}, Holds n u out → u.length + t.length ≤ n → u.length + t.length < 2 ^ 31 →
    (part out).isSome

theorem prints_print (t : Text) : Prints (Out.print · t) t where
  holds h hprint := (h.print hprint).1
  isSome h hle hlt := h.isSome_iff.mpr ⟨by omega, hlt⟩

theorem prints_some : Prints some [] where
  holds h hsome := by
    cases hsome
    rwa [List.append_nil]
  isSome _ _ _ := rfl

theorem Prints.bind {f g : Out → Option Out} {s : Text} (hf : Prints f t) (hg : Prints g s) :
    Prints (fun out ↦ (f out).bind g) (t ++ s) where
  holds h hsome := by
    obtain ⟨mid, hmid, hout⟩ := Option.bind_eq_some_iff.mp hsome
    rw [← List.append_assoc]
    exact hg.holds (hf.holds h hmid) hout
  isSome h hle hlt := by
    rw [List.length_append] at hle hlt
    obtain ⟨mid, hmid⟩ := Option.isSome_iff_exists.mp (hf.isSome h (by omega) (by omega))
    rw [hmid]
    exact hg.isSome (hf.holds h hmid) (by rw [List.length_append]; omega)
      (by rw [List.length_append]; omega)

/-- The members of a list behind the first one, with a comma before each. -/
def behind : List Text → Text
  | [] => []
  | t :: ts => 44 :: (t ++ behind ts)

theorem commas_cons (t : Text) (ts : List Text) : Json.commas (t :: ts) = t ++ behind ts := by
  induction ts generalizing t with
  | nil => exact (List.append_nil t).symm
  | cons u ts ih => rw [Json.commas_cons_cons, ih, behind]

def listed (first : Bool) (ts : List Text) : Text := if first then Json.commas ts else behind ts

theorem Prints.listed {f g : Out → Option Out} {ts : List Text} (hf : Prints f t)
    (hg : Prints g (listed false ts)) (first : Bool) :
    Prints (fun out ↦ ((if first then some out else out.print [44]).bind f).bind g)
      (OrmQuery.listed first (t :: ts)) := by
  cases first with
  | true =>
    have hboth := (prints_some.bind hf).bind hg
    rw [List.nil_append] at hboth
    change Prints _ (Json.commas (t :: ts))
    rw [commas_cons]
    exact hboth
  | false => exact ((prints_print [44]).bind hf).bind hg

theorem print_cells_cons (first : Bool) (name cell : Option CText)
    (rest : List (Option CText × Option CText)) (out : Out) :
    print_cells first ((name, cell) :: rest) out =
      ((if first then some out else out.print [44]).bind
        (Out.print · (Json.member Json.quoted (shown name, shown cell)))).bind
          (print_cells false rest) := by
  have htext : [34] ++ shown name ++ [34, 58, 34] ++ shown cell ++ [34] =
      Json.member Json.quoted (shown name, shown cell) := by
    simp [Json.member, Json.quoted]
  rw [print_cells, htext, Option.bind_assoc]
  cases first <;> rfl

theorem print_rows_cons (columns : List (Option CText)) (first : Bool)
    (r : Option (List (Option CText))) (rest : List (Option (List (Option CText)))) (out : Out) :
    print_rows columns first (r :: rest) out =
      ((if first then some out else out.print [44]).bind fun out ↦ ((out.print [123]).bind
        (print_cells true (columns.zip (r.getD [])))).bind (Out.print · [125])).bind
          (print_rows columns false rest) := by
  rw [print_rows, Option.bind_assoc]
  simp only [Option.bind_assoc]
  cases first <;> rfl

theorem prints_cells (first : Bool) (cells : List (Option CText × Option CText)) :
    Prints (print_cells first cells) (listed first (cells.map fun (name, cell) ↦
      Json.member Json.quoted (shown name, shown cell))) := by
  induction cells generalizing first with
  | nil => cases first <;> exact prints_some
  | cons m cells ih =>
    rw [funext (print_cells_cons first m.1 m.2 cells)]
    exact (prints_print _).listed (ih false) first

theorem prints_rows (columns : List (Option CText)) (first : Bool)
    (rows : List (Option (List (Option CText)))) :
    Prints (print_rows columns first rows) (listed first (rows.map fun r ↦
      Json.enclosed 123 125 ((columns.zip (r.getD [])).map fun (name, cell) ↦
        Json.member Json.quoted (shown name, shown cell)))) := by
  induction rows generalizing first with
  | nil => cases first <;> exact prints_some
  | cons r rows ih =>
    rw [funext (print_rows_cons columns first r rows)]
    have hobject := ((prints_print [123]).bind (prints_cells true (columns.zip (r.getD [])))).bind
      (prints_print [125])
    exact hobject.listed (ih false) first

variable {result : Result} {json_buf : List UInt8}

theorem render_meaning (result : Result) :
    render result.meaning = [91] ++ listed true (result.rows.map fun r ↦
      Json.enclosed 123 125 ((result.columns.zip (r.getD [])).map fun (name, cell) ↦
        Json.member Json.quoted (shown name, shown cell))) ++ [93] := by
  simp only [render, Result.meaning, List.map_map]
  have hrows (r : Option (List (Option CText))) :
      (Json.enclosed 123 125 ∘ List.map (Json.member Json.quoted)) (result.members r) =
        Json.enclosed 123 125 ((result.columns.zip (r.getD [])).map fun (name, cell) ↦
          Json.member Json.quoted (shown name, shown cell)) :=
    congrArg _ (List.map_map ..)
  exact congrArg (Json.enclosed 91 93) (List.map_congr_left fun r _ ↦ hrows r)

theorem shown_zero (text : Option CText) : 0 ∉ shown text := by
  cases text with
  | none => exact List.not_mem_nil
  | some t => exact t.2

theorem render_zero (result : Result) : 0 ∉ render result.meaning := by
  intro h
  rcases Json.mem_enclosed h with h | h | h | ⟨t, ht, h⟩
  · cases h
  · cases h
  · cases h
  obtain ⟨row, hrow, rfl⟩ := List.mem_map.mp ht
  rcases Json.mem_enclosed h with h | h | h | ⟨t, ht, h⟩
  · cases h
  · cases h
  · cases h
  obtain ⟨m, hm, rfl⟩ := List.mem_map.mp ht
  obtain ⟨r, -, rfl⟩ := List.mem_map.mp hrow
  obtain ⟨⟨name, cell⟩, -, rfl⟩ := List.mem_map.mp hm
  simp only [Json.member, Json.quoted, List.mem_append, List.mem_cons, List.not_mem_nil,
    shown_zero, or_false, false_or] at h
  rcases h with (h | h) | h | h | h <;> cases h

theorem query_eq (result : Result) (json_buf : List UInt8) :
    query result json_buf =
      ((Out.print ⟨json_buf, 0⟩ [91]).bind (print_rows result.columns true result.rows)).bind
        (Out.print · [93]) := (Option.bind_assoc ..).symm

theorem holds_nil (json_buf : List UInt8) : Holds json_buf.length [] ⟨json_buf, 0⟩ :=
  ⟨rfl, rfl, fun _ ↦ rfl⟩

theorem query_isSome_iff :
    (query result json_buf).isSome ↔
      (render result.meaning).length ≤ json_buf.length + 1 ∧
        (render result.meaning).length < 2 ^ 31 := by
  have hprints := (prints_print [91]).bind (prints_rows result.columns true result.rows)
  rw [query_eq, render_meaning, List.length_append, List.length_singleton]
  constructor
  · intro h
    obtain ⟨out, hout⟩ := Option.isSome_iff_exists.mp h
    obtain ⟨mid, hmid, hlast⟩ := Option.bind_eq_some_iff.mp hout
    have hlen := (hprints.holds (holds_nil json_buf) hmid).isSome_iff.mp
      (Option.isSome_iff_exists.mpr ⟨out, hlast⟩)
    rw [List.nil_append, List.length_singleton] at hlen
    exact ⟨Nat.succ_le_succ hlen.1, hlen.2⟩
  · rintro ⟨hle, hlt⟩
    have hle' := Nat.le_of_succ_le_succ hle
    obtain ⟨mid, hmid⟩ := Option.isSome_iff_exists.mp (hprints.isSome (holds_nil json_buf)
      (by rwa [List.length_nil, Nat.zero_add])
      (by rw [List.length_nil, Nat.zero_add]; exact Nat.lt_of_succ_lt hlt))
    rw [hmid]
    exact (hprints.holds (holds_nil json_buf) hmid).isSome_iff.mpr ⟨hle', hlt⟩

theorem query_spec {out : Out} (h : query result json_buf = some out) :
    out.offset = (render result.meaning).length ∧
      (out.offset < json_buf.length → cString out.json_buf = render result.meaning) := by
  have hprints := (prints_print [91]).bind (prints_rows result.columns true result.rows)
  rw [query_eq] at h
  obtain ⟨mid, hmid, hlast⟩ := Option.bind_eq_some_iff.mp h
  obtain ⟨hout, hrest⟩ := (hprints.holds (holds_nil json_buf) hmid).print hlast
  rw [List.nil_append, ← render_meaning] at hout hrest
  refine ⟨hout.offset_eq, fun hlt ↦ ?_⟩
  rw [hout.offset_eq, render_meaning, List.length_append] at hlt
  obtain ⟨rest, hbuf⟩ := hrest hlt
  rw [hbuf]
  exact cString_append (render_zero result) rest

/-- Nothing is written outside the buffer, and where the value that is returned is below its size
the buffer holds the document that is meant. -/
def Correct (result : Result) (json_buf : List UInt8) : Prop :=
  ∃ out, query result json_buf = some out ∧
    (out.offset < json_buf.length → Document (cString out.json_buf) result.meaning)

/-- The call does what is meant exactly if the text is at most one byte longer than the buffer and,
where it fits, all characters of names and cells stand for themselves in JSON. -/
theorem correct_iff (result : Result) (json_buf : List UInt8) :
    Correct result json_buf ↔
      (render result.meaning).length ≤ json_buf.length + 1 ∧
      (render result.meaning).length < 2 ^ 31 ∧
      ((render result.meaning).length < json_buf.length →
        ∀ row ∈ result.meaning, ∀ m ∈ row,
          (∀ c ∈ m.1, Json.Plain c) ∧ ∀ c ∈ m.2, Json.Plain c) := by
  have hdocument := (faithful_document.iff result.meaning).trans special_eq_zero
  constructor
  · rintro ⟨out, hout, hright⟩
    obtain ⟨hle, hlt⟩ := query_isSome_iff.mp (Option.isSome_iff_exists.mpr ⟨out, hout⟩)
    obtain ⟨hoffset, hbuf⟩ := query_spec hout
    refine ⟨hle, hlt, fun hfit ↦ hdocument.mp ?_⟩
    rw [← hoffset] at hfit
    exact hbuf hfit ▸ hright hfit
  · rintro ⟨hle, hlt, hplain⟩
    obtain ⟨out, hout⟩ := Option.isSome_iff_exists.mp (query_isSome_iff.mpr ⟨hle, hlt⟩)
    obtain ⟨hoffset, hbuf⟩ := query_spec hout
    refine ⟨out, hout, fun hfit ↦ ?_⟩
    rw [hbuf hfit]
    exact hdocument.mpr (hplain (hoffset ▸ hfit))

theorem notMem_column : (0 : UInt8) ∉ [97] := by decide

theorem notMem_cell : (0 : UInt8) ∉ [34] := by decide

/-- A cell with a quotation mark. -/
def quotedCell : Result :=
  ⟨[some ⟨[97], notMem_column⟩], [some [some ⟨[34], notMem_cell⟩]], by decide⟩

/-- The document is not the one that is meant, and behind a buffer of one byte something is written.
-/
theorem not_correct :
    ¬ Correct quotedCell (List.replicate 64 0) ∧ ¬ Correct quotedCell [0] := by
  constructor
  · rintro ⟨out, hout, hright⟩
    obtain ⟨hoffset, hbuf⟩ := query_spec hout
    have hfit : out.offset < (List.replicate 64 (0 : UInt8)).length := by
      rw [hoffset]
      decide
    have hzero := (faithful_document.iff _).mp (hbuf hfit ▸ hright hfit)
    exact absurd hzero (by decide)
  · rintro ⟨out, hout, -⟩
    have hnone : query quotedCell [0] = none := by decide
    exact absurd (hnone.symm.trans hout) (Option.some_ne_none _).symm

end Libobject.OrmQuery
