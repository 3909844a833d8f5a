import Mathlib.Data.Int.Notation
import Libobject.Lib.SqlText
import Libobject.Core.String

/-!
# The statements of a model

`Orm_Conn` makes a statement of the fields that are set in a model. The statement, the list of
columns and the list of values are strings of a cache, which may have any capacity from the
initial one on; a string is lost once it was written past its end. Columns of floating point
numbers are not modeled; a model knows its table and its columns, and a string that is set is not
`NULL`.

A statement says what is meant if it can be read: its columns are the fields that are set, and
behind them stands one literal for each that denotes its value.
-/

namespace Libobject.OrmConn

open Scan SqlText

/-- A string that the cache has handed out. -/
structure Blank where
  str : Str
  holds : str.Holds []
  room : 256 ≤ str.value_max_len

/-- The name of a table or of a column. -/
structure Name where
  text : Text
  ne_nil : text ≠ []
  letters : ∀ c ∈ text, isDigit c ∨ 65 ≤ c ∧ c ≤ 90 ∨ 97 ≤ c ∧ c ≤ 122 ∨ c = 95

inductive Width
  | w8
  | w16
  | w32
  | w64
  deriving DecidableEq

def Width.bits : Width → ℕ
  | w8 => 8
  | w16 => 16
  | w32 => 32
  | w64 => 64

inductive Kind
  | integer (width : Width) (signed : Bool)
  | string (value : CText)
  | vector (json : Option CText)
  | other
  deriving DecidableEq

/-- The entry of the model's class that has the name of a column: its bit in the model's bitmap
and the eight bytes at its member, which are a pointer where it is not an integer. -/
structure Entry where
  bit : Bool
  word : BitVec 64
  kind : Kind

structure Field where
  name : Name
  entry : Option Entry

structure Table where
  table_name : Name
  meta_info : List Field

/-- What becomes of a call: it throws, a string was lost, or a statement is passed on. -/
inductive Outcome
  | thrown
  | undefined
  | passed (sql_statement : Text)
  deriving DecidableEq

def append (s : Option Str) (sub : Text) : Option Str := s.bind fun s ↦ s.append (some sub) (-1)

def format (s : Option Str) (max_len : ℕ) (text : Text) : Option Str :=
  append s (text.take (max_len - 1))

/-- Of a string that was lost nothing is known, and nothing that is seen depends on it. -/
def equal (s : Option Str) (t : Text) : Bool :=
  match s with
  | none => false
  | some s => cString s.value = t

/-- What is written for a member, if it is not left out: `THROW` is `none`. -/
def literal (number : BitVec 64 → ℤ) (keep : Bool) (e : Entry) : Option (Option Text) :=
  match e.kind with
  | .integer _ _ => some (some (showInt (number e.word)))
  | .string value => some (if value.1 = [] ∧ keep = false then none else some (quoted value.1))
  | .vector json => some (json.map fun json ↦ quoted json.1)
  | .other => none

structure Clauses where
  sql_values : Option Str
  sql_columns : Option Str
  sql_update : Option Str
  set_flag : Bool

def duplicate (column : Text) : Text := column ++ ascii "=VALUES(" ++ column ++ ascii ")"

/-- The end of the loop's body, for a column that is not left out. -/
def Clauses.column (s : Clauses) (column : Text) : Clauses :=
  let more := equal s.sql_columns (ascii "(") = false
  let sql_columns := if more then append s.sql_columns comma else s.sql_columns
  let sql_update := if more then append s.sql_update comma else s.sql_update
  { s with
    sql_columns := append sql_columns column
    sql_update := format sql_update 1024 (duplicate column)
    set_flag := true }

/-- The loop of `__insert_model` and `__insert_or_update_model`; the first has no third clause. -/
def clauses (number : BitVec 64 → ℤ) : List Field → Clauses → Option Clauses
  | [], s => some s
  | f :: fs, s =>
    match f.entry with
    | none => none
    | some e =>
      if e.bit = false then clauses number fs s
      else
        let sql_values := if s.set_flag then append s.sql_values comma else s.sql_values
        match literal number false e with
        | none => none
        | some none => clauses number fs { s with sql_values := sql_values }
        | some (some value) =>
          let s := { s with sql_values := format sql_values 1024 value }
          clauses number fs (s.column f.name.text)

/-- `format` of the whole statement. -/
def statement (sql_statement : Blank) (text : Text) : Outcome :=
  match format (some sql_statement.str) 1024 text with
  | none => .undefined
  | some s => .passed (cString s.value)

/-- Four bytes are passed where a `long` is printed: `widen` is what arrives. -/
def printed (widen : BitVec 32 → BitVec 64) (word : BitVec 64) : ℤ :=
  (widen (word.truncate 32)).toInt

def insert_model (widen : BitVec 32 → BitVec 64) (sql_statement sql_columns sql_values : Blank)
    (t : Table) : Outcome :=
  match clauses (printed widen) t.meta_info
    ⟨sql_values.str.assign (ascii "("), sql_columns.str.assign (ascii "("), none, false⟩ with
  | none => .thrown
  | some s =>
    match append s.sql_columns (ascii ")") with
    | none => .undefined
    | some columns =>
      if equal (some columns) (ascii "()") then .thrown
      else
        match append s.sql_values (ascii ")") with
        | none => .undefined
        | some values =>
          statement sql_statement
            (ascii "INSERT INTO " ++ t.table_name.text ++ ascii " " ++
              cString columns.value ++ ascii " VALUES " ++ cString values.value)

def insert_or_update_model (sql_statement sql_columns sql_values sql_update : Blank)
    (t : Table) : Outcome :=
  match clauses BitVec.toInt t.meta_info
    ⟨sql_values.str.assign (ascii "("), sql_columns.str.assign (ascii "("), some sql_update.str,
      false⟩ with
  | none => .thrown
  | some s =>
    match append s.sql_values (ascii ")"), append s.sql_columns (ascii ")"), s.sql_update with
    | some values, some columns, some update =>
      statement sql_statement
        (ascii "INSERT INTO " ++ t.table_name.text ++ ascii " " ++ cString columns.value ++
          ascii " VALUES " ++ cString values.value ++ ascii " ON DUPLICATE KEY UPDATE " ++
          cString update.value ++ ascii ";")
    | _, _, _ => .undefined

structure Assignments where
  sql_set : Option Str
  sql_where : Option Str
  set_flag : Bool

/-- The loop of `__update_model` from the `i`-th column on: the first one, whatever it is, is
printed as a number and compared with. -/
def assignments (number : BitVec 64 → ℤ) : ℕ → List Field → Assignments → Option Assignments
  | _, [], s => some s
  | i, f :: fs, s =>
    match f.entry with
    | none => none
    | some e =>
      if e.bit = false then assignments number (i + 1) fs s
      else if i = 0 then
        let condition := f.name.text ++ ascii "=" ++ showInt (number e.word)
        assignments number (i + 1) fs
          { s with sql_where := format s.sql_where 1024 condition }
      else
        let sql_set := if s.set_flag then append s.sql_set comma else s.sql_set
        match literal number true e with
        | none => none
        | some none => assignments number (i + 1) fs { s with sql_set := sql_set }
        | some (some value) =>
          let assignment := f.name.text ++ ascii "=" ++ value
          assignments number (i + 1) fs
            { s with sql_set := format sql_set 1024 assignment, set_flag := true }

def update_model (widen : BitVec 32 → BitVec 64) (sql_statement sql_set sql_where : Blank)
    (t : Table) : Outcome :=
  match assignments (printed widen) 0 t.meta_info ⟨some sql_set.str, some sql_where.str, false⟩ with
  | none => .thrown
  | some s =>
    if equal s.sql_set [] ∨ equal s.sql_where [] then .thrown
    else
      match s.sql_set, s.sql_where with
      | some set, some condition =>
        statement sql_statement
          (ascii "UPDATE " ++ t.table_name.text ++ ascii " SET " ++ cString set.value ++
            ascii " WHERE " ++ cString condition.value)
      | _, _ => .undefined

/-! ## What a statement says -/

/-- The value of an integer member, in the low bytes. -/
def value (width : Width) (signed : Bool) (word : BitVec 64) : ℤ :=
  if signed then (word.truncate width.bits).toInt else (word.truncate width.bits).toNat

/-- The literal of a member; without `keep` there is none for an empty string. -/
def meant (keep : Bool) (e : Entry) : Option Literal :=
  match e.kind with
  | .integer width signed => some (.number (value width signed e.word))
  | .string s => if s.1 = [] ∧ keep = false then none else some (.string s.1)
  | .vector json => json.map fun json ↦ .string json.1
  | .other => none

def set (f : Field) : Option Entry := f.entry.filter Entry.bit

/-- The columns that are set, with what they are set to. -/
def pairs (keep : Bool) (fs : List Field) : List (Text × Literal) :=
  fs.filterMap fun f ↦ (set f).bind fun e ↦ (meant keep e).map fun l ↦ (f.name.text, l)

def joined : Bool → List Text → List Text
  | _, [] => []
  | more, t :: ts => separator more ++ t :: joined true ts

def columns (t : Table) : List Text := (pairs false t.meta_info).map Prod.fst

/-- The text up to the first value of an insertion. -/
def insertion (t : Table) : Text :=
  ascii "INSERT INTO " ++ t.table_name.text ++ ascii " (" ++ (joined false (columns t)).flatten ++
    ascii ") VALUES ("

/-- The text behind the last value. -/
def onDuplicate (t : Table) : Text :=
  ascii ") ON DUPLICATE KEY UPDATE " ++ (joined false ((columns t).map duplicate)).flatten ++
    ascii ";"

/-- The statement inserts what is set, and ends with the given text. -/
def Inserts (t : Table) (finish p : Text) : Prop :=
  pairs false t.meta_info ≠ [] ∧
    ∃ u, p = insertion t ++ u ∧
      readItems false ((pairs false t.meta_info).map fun c ↦ ([], c.2)) u = some finish

def lead (column : Text) : Text := column ++ ascii "="

/-- The statement sets what is set behind the first column, where this has its value. -/
def Updates (t : Table) (p : Text) : Prop :=
  ∃ f fs, t.meta_info = f :: fs ∧ pairs true fs ≠ [] ∧
    ∃ u, p = ascii "UPDATE " ++ t.table_name.text ++ ascii " SET " ++ u ∧
      ∃ v, readItems false ((pairs true fs).map fun c ↦ (lead c.1, c.2)) u =
          some (ascii " WHERE " ++ lead f.name.text ++ v) ∧
        ∃ l ∈ (set f).bind (meant true), readLiteral v = some (l, [])

/-- If a statement is passed on, it is one of these. -/
def Passes (P : Text → Prop) : Outcome → Prop
  | .thrown => True
  | .undefined => False
  | .passed p => P p

/-! ## Strings that are appended to -/

section Strings

variable {s : Str} {t : Text} {ts : List Text}

def appendAll (s : Option Str) (ts : List Text) : Option Str := ts.foldl append s

/-- The texts find room one behind the other. -/
def Fits : ℕ → ℕ → List Text → Prop
  | _, _, [] => True
  | max_len, len, t :: ts =>
    Str.Fits max_len len t.length ∧
      Fits (Str.roomFor max_len len (t.length + len)) (len + t.length) ts

instance decidableFits : (max_len len : ℕ) → (ts : List Text) → Decidable (Fits max_len len ts)
  | _, _, [] => inferInstanceAs (Decidable True)
  | max_len, len, t :: ts =>
    have := decidableFits (Str.roomFor max_len len (t.length + len)) (len + t.length) ts
    inferInstanceAs (Decidable (_ ∧ _))

theorem appendAll_none (ts : List Text) : appendAll none ts = none := by
  induction ts with
  | nil => rfl
  | cons t ts ih => exact ih

theorem appendAll_append (s : Option Str) (ts us : List Text) :
    appendAll s (ts ++ us) = appendAll (appendAll s ts) us := List.foldl_append

theorem appendAll_fits (hs : s.Holds t) (hzero : ∀ u ∈ ts, 0 ∉ u)
    (hfits : Fits s.value_max_len t.length ts) :
    ∃ s', appendAll (some s) ts = some s' ∧ s'.Holds (t ++ ts.flatten) := by
  induction ts generalizing s t with
  | nil => exact ⟨s, rfl, by simpa using hs⟩
  | cons u ts ih =>
    obtain ⟨hu, hrest⟩ := hfits
    obtain ⟨hzero, hzeros⟩ := List.forall_mem_cons.mp hzero
    rw [← hs.len_eq] at hu hrest
    obtain ⟨s₁, happend, hs₁, hmax⟩ := hs.append_fits hzero hu
    rw [← hmax, hs.len_eq, ← List.length_append] at hrest
    obtain ⟨s', hall, hs'⟩ := ih hs₁ hzeros hrest
    refine ⟨s', ?_, by rwa [List.flatten_cons, ← List.append_assoc]⟩
    exact (congrArg (appendAll · ts) happend).trans hall

theorem appendAll_not_fits (hs : s.Holds t) (hzero : ∀ u ∈ ts, 0 ∉ u)
    (hfits : ¬Fits s.value_max_len t.length ts) : appendAll (some s) ts = none := by
  induction ts generalizing s t with
  | nil => exact absurd trivial hfits
  | cons u ts ih =>
    obtain ⟨hzero, hzeros⟩ := List.forall_mem_cons.mp hzero
    have hstep : appendAll (some s) (u :: ts) = appendAll (s.append (some u) (-1)) ts := rfl
    rw [hstep]
    by_cases hu : Str.Fits s.value_max_len s.value_len u.length
    · obtain ⟨s₁, happend, hs₁, hmax⟩ := hs.append_fits hzero hu
      rw [happend]
      refine ih hs₁ hzeros fun hrest ↦ hfits ?_
      rw [hmax, List.length_append, hs.len_eq] at hrest
      rw [hs.len_eq] at hu
      exact ⟨hu, hrest⟩
    · rw [hs.append_not_fits hu, appendAll_none]

theorem equal_iff (hs : s.Holds t) (u : Text) : equal (some s) u = true ↔ t = u := by
  rw [equal, hs.cString, decide_eq_true_iff]

end Strings

/-! ## Members and items -/

section Items

variable {number : BitVec 64 → ℤ} {keep : Bool} {e : Entry} {f : Field} {fs : List Field}

def item (number : BitVec 64 → ℤ) (keep : Bool) (lead : Text) (e : Entry) : Item :=
  match e.kind with
  | .integer width signed => .number lead (number e.word) (value width signed e.word)
  | .string s => if s.1 = [] ∧ keep = false then .skipped else .string lead s.1
  | .vector none => .skipped
  | .vector (some json) => .string lead json.1
  | .other => .skipped

theorem pair_item (lead : Text) : (item number keep lead e).pair =
    (meant keep e).map (lead, ·) := by
  unfold item meant
  cases e.kind with
  | integer width signed => rfl
  | string s =>
    by_cases hs : s.1 = [] ∧ keep = false
    · simp only [if_pos hs]
      rfl
    · simp only [if_neg hs]
      rfl
  | vector json => cases json <;> rfl
  | other => rfl

theorem text_item (lead : Text) {o : Option Text} (h : literal number keep e = some o) :
    (item number keep lead e).text = o.map (lead ++ ·) := by
  unfold literal at h
  unfold item
  cases hkind : e.kind with
  | integer width signed =>
    rw [hkind] at h
    cases h
    rfl
  | string s =>
    rw [hkind] at h
    by_cases hs : s.1 = [] ∧ keep = false
    · simp only [if_pos hs] at h ⊢
      cases h
      rfl
    · simp only [if_neg hs] at h ⊢
      cases h
      rfl
  | vector json =>
    rw [hkind] at h
    cases json <;> cases h <;> rfl
  | other =>
    rw [hkind] at h
    exact nomatch h

/-- Such a column makes the call throw: the class has no entry for it, or one that is not printed.
-/
def Refuses (f : Field) : Prop := ∀ e ∈ f.entry, e.bit = true ∧ e.kind = .other

theorem literal_eq_none : literal number keep e = none ↔ e.kind = .other := by
  unfold literal
  cases e.kind <;> simp

def items (number : BitVec 64 → ℤ) (keep : Bool) (lead : Text → Text) (fs : List Field) :
    List Item :=
  fs.filterMap fun f ↦ (set f).map (item number keep (lead f.name.text))

theorem pairs_items (number : BitVec 64 → ℤ) (keep : Bool) (lead : Text → Text) (fs : List Field) :
    (items number keep lead fs).filterMap Item.pair =
      (pairs keep fs).map fun c ↦ (lead c.1, c.2) := by
  rw [items, pairs, List.filterMap_filterMap, List.map_filterMap]
  congr 1
  funext f
  cases set f with
  | none => rfl
  | some e =>
    rw [Option.map_some, Option.bind_some, Option.bind_some, pair_item, Option.map_map]
    rfl

end Items

/-! ## The loops -/

section Loops

variable {number : BitVec 64 → ℤ} {f : Field} {fs : List Field}

/-- What `format` leaves of a text. -/
def cut (t : Text) : Text := t.take 1023

theorem name_zero (n : Name) : 0 ∉ n.text := fun h ↦ by
  have hletter := n.letters 0 h
  revert hletter
  decide

theorem set_eq_none (h : ∀ e ∈ f.entry, e.bit = false) : set f = none := by
  rw [set, Option.filter_eq_none_iff]
  intro e he
  rw [h e he]
  exact Bool.false_ne_true

theorem not_refuses_cases (h : ¬Refuses f) :
    ∃ e, f.entry = some e ∧
      (e.bit = false ∧ set f = none ∨ e.bit = true ∧ set f = some e ∧ e.kind ≠ .other) := by
  cases hentry : f.entry with
  | none => exact absurd (fun e he ↦ by rw [hentry] at he; exact nomatch he) h
  | some e =>
    refine ⟨e, rfl, ?_⟩
    cases hbit : e.bit with
    | false =>
      refine .inl ⟨rfl, set_eq_none fun e' he ↦ ?_⟩
      rw [hentry] at he
      cases he
      exact hbit
    | true =>
      refine .inr ⟨rfl, by rw [set, hentry, Option.filter_some, if_pos hbit], fun hother ↦ h ?_⟩
      intro e' he
      rw [hentry] at he
      cases he
      exact ⟨hbit, hother⟩

theorem pieces_skipped {i : Item} {is : List Item} (more : Bool) (h : i.text = none) :
    pieces more (i :: is) = separator more ++ pieces more is := by
  rw [pieces, h]

theorem pieces_text {i : Item} {is : List Item} {t : Text} (more : Bool) (h : i.text = some t) :
    pieces more (i :: is) = separator more ++ t :: pieces true is := by
  rw [pieces, h]

theorem append_separator (s : Option Str) (more : Bool) :
    (if more = true then append s comma else s) = appendAll s ((separator more).map cut) := by
  cases more <;> rfl

end Loops

section Clauses

variable {number : BitVec 64 → ℤ} {f : Field} {fs : List Field} {s : Clauses}

/-- The list of columns is open, and the flag tells whether there are any in it. -/
def Opened (s : Clauses) : Prop :=
  ∀ c ∈ s.sql_columns, ∃ t, c.Holds (ascii "(" ++ t) ∧ (t = [] ↔ s.set_flag = false)

theorem more_eq (hs : Opened s) (hne : s.sql_columns ≠ none) :
    decide (equal s.sql_columns (ascii "(") = false) = s.set_flag := by
  obtain ⟨c, hc⟩ := Option.ne_none_iff_exists'.mp hne
  obtain ⟨t, ht, hflag⟩ := hs c hc
  have hequal := equal_iff ht (ascii "(")
  rw [List.append_right_eq_self, hflag, ← hc] at hequal
  cases hset : s.set_flag with
  | false =>
    rw [hequal.mpr hset]
    rfl
  | true =>
    have hfalse : equal s.sql_columns (ascii "(") = false := by
      rw [← Bool.not_eq_true, hequal, hset]
      decide
    rw [hfalse]
    rfl

theorem column_columns (hs : Opened s) (column : Text) :
    (s.column column).sql_columns =
      appendAll s.sql_columns (separator s.set_flag ++ [column]) := by
  by_cases hne : s.sql_columns = none
  · rw [hne, appendAll_none]
    unfold Clauses.column
    rw [hne]
    rfl
  · have hmore := more_eq hs hne
    rw [appendAll_append]
    unfold Clauses.column
    simp only
    cases hset : s.set_flag with
    | false =>
      rw [hset, decide_eq_false_iff_not] at hmore
      rw [if_neg hmore]
      rfl
    | true =>
      rw [hset, decide_eq_true_iff] at hmore
      rw [if_pos hmore]
      rfl

theorem column_update (hs : Opened s) (hne : s.sql_columns ≠ none) (column : Text) :
    (s.column column).sql_update =
      appendAll s.sql_update ((separator s.set_flag ++ [duplicate column]).map cut) := by
  have hmore := more_eq hs hne
  rw [List.map_append, appendAll_append, ← append_separator]
  unfold Clauses.column
  simp only
  cases hset : s.set_flag with
  | false =>
    rw [hset, decide_eq_false_iff_not] at hmore
    rw [if_neg hmore]
    rfl
  | true =>
    rw [hset, decide_eq_true_iff] at hmore
    rw [if_pos hmore]
    rfl

theorem column_opened (hs : Opened s) (n : Name) : Opened (s.column n.text) := by
  intro c hc
  have hcolumns := column_columns hs n.text
  rw [hc] at hcolumns
  cases hopen : s.sql_columns with
  | none =>
    rw [hopen, appendAll_none] at hcolumns
    exact nomatch hcolumns
  | some c₀ =>
    obtain ⟨t, ht, -⟩ := hs c₀ hopen
    rw [hopen] at hcolumns
    have hzero : ∀ u ∈ separator s.set_flag ++ [n.text], 0 ∉ u := by
      intro u hu
      rcases List.mem_append.mp hu with hu | hu
      · cases hset : s.set_flag with
        | false =>
          rw [hset] at hu
          exact nomatch hu
        | true =>
          rw [hset] at hu
          rw [List.mem_singleton.mp hu]
          decide
      · rw [List.mem_singleton.mp hu]
        exact name_zero n
    by_cases hfits : Fits c₀.value_max_len (ascii "(" ++ t).length
        (separator s.set_flag ++ [n.text])
    · obtain ⟨c', hall, hc'⟩ := appendAll_fits ht hzero hfits
      rw [hall] at hcolumns
      cases hcolumns
      refine ⟨t ++ (separator s.set_flag ++ [n.text]).flatten, by rwa [← List.append_assoc], ?_⟩
      have hset : (s.column n.text).set_flag = true := rfl
      rw [hset]
      have hne := n.ne_nil
      simp [hne]
    · rw [appendAll_not_fits ht hzero hfits] at hcolumns
      exact nomatch hcolumns

end Clauses

section Run

variable {number : BitVec 64 → ℤ} {keep : Bool} {lead : Text → Text} {f : Field} {fs : List Field}
  {e : Entry}

theorem items_cons_none (h : set f = none) :
    items number keep lead (f :: fs) = items number keep lead fs := by
  rw [items, List.filterMap_cons, h]
  rfl

theorem items_cons_some (h : set f = some e) :
    items number keep lead (f :: fs) =
      item number keep (lead f.name.text) e :: items number keep lead fs := by
  rw [items, List.filterMap_cons, h]
  rfl

theorem pairs_cons_none (h : set f = none) : pairs keep (f :: fs) = pairs keep fs := by
  rw [pairs, List.filterMap_cons, h]
  rfl

theorem pairs_cons_skipped (h : set f = some e) (hl : literal number keep e = some none) :
    pairs keep (f :: fs) = pairs keep fs := by
  have hitem := text_item [] hl
  have hpair : (item number keep [] e).pair = none := by
    cases hi : item number keep [] e with
    | skipped => rfl
    | number lead shown value => rw [hi] at hitem; exact nomatch hitem
    | string lead value => rw [hi] at hitem; exact nomatch hitem
  rw [pair_item, Option.map_eq_none_iff] at hpair
  rw [pairs, List.filterMap_cons, h, Option.bind_some, hpair]
  rfl

theorem pairs_cons_some {v : Text} (h : set f = some e)
    (hl : literal number keep e = some (some v)) :
    ∃ l, pairs keep (f :: fs) = (f.name.text, l) :: pairs keep fs := by
  have hitem := text_item [] hl
  have hpair : (item number keep [] e).pair ≠ none := by
    cases hi : item number keep [] e with
    | skipped => rw [hi] at hitem; exact nomatch hitem
    | number lead shown value => exact nofun
    | string lead value => exact nofun
  rw [pair_item, Ne, Option.map_eq_none_iff] at hpair
  obtain ⟨l, hl⟩ := Option.ne_none_iff_exists'.mp hpair
  refine ⟨l, ?_⟩
  rw [pairs, List.filterMap_cons, h, Option.bind_some, hl]
  rfl

theorem clauses_refused {s : Clauses} (h : ∃ f ∈ fs, Refuses f) : clauses number fs s = none := by
  induction fs generalizing s with
  | nil => exact absurd h (by simp)
  | cons f fs ih =>
    obtain ⟨g, hmem, hg⟩ := h
    unfold clauses
    cases hentry : f.entry with
    | none => rfl
    | some e =>
      rcases List.mem_cons.mp hmem with rfl | hrest
      · obtain ⟨hbit, hother⟩ := hg e hentry
        simp only [hbit, Bool.true_eq_false, if_false]
        rw [literal_eq_none.mpr hother]
      · have hagain : ∀ s, clauses number fs s = none := fun s ↦ ih ⟨g, hrest, hg⟩
        by_cases hbit : e.bit = false
        · simp only [if_pos hbit, hagain]
        · simp only [if_neg hbit, hagain]
          cases literal number false e with
          | none => rfl
          | some o => cases o <;> rfl

theorem clauses_eq (number : BitVec 64 → ℤ) {s : Clauses} (hf : ∀ f ∈ fs, ¬Refuses f)
    (hs : Opened s) :
    ∃ r, clauses number fs s = some r ∧
      r.sql_values = appendAll s.sql_values
        ((pieces s.set_flag (items number false (fun _ ↦ []) fs)).map cut) ∧
      r.sql_columns = appendAll s.sql_columns
        (joined s.set_flag ((pairs false fs).map Prod.fst)) ∧
      (r.sql_columns ≠ none → r.sql_update = appendAll s.sql_update
        ((joined s.set_flag (((pairs false fs).map Prod.fst).map duplicate)).map cut)) := by
  induction fs generalizing s with
  | nil => exact ⟨s, rfl, rfl, rfl, fun _ ↦ rfl⟩
  | cons f fs ih =>
    obtain ⟨hhead, hf⟩ := List.forall_mem_cons.mp hf
    obtain ⟨e, hentry, ⟨hbit, hset⟩ | ⟨hbit, hset, hkind⟩⟩ := not_refuses_cases hhead
    · obtain ⟨r, hrun, hr⟩ := ih hf hs
      rw [items_cons_none hset, pairs_cons_none hset]
      refine ⟨r, ?_, hr⟩
      rw [clauses, hentry]
      simp only [hbit, if_true, hrun]
    · have hliteral : literal number false e ≠ none := fun h ↦ hkind (literal_eq_none.mp h)
      obtain ⟨o, ho⟩ := Option.ne_none_iff_exists'.mp hliteral
      have htext := text_item [] ho
      rw [items_cons_some hset]
      cases o with
      | none =>
        rw [pairs_cons_skipped hset ho, pieces_skipped _ htext, List.map_append,
          appendAll_append, ← append_separator]
        obtain ⟨r, hrun, hr⟩ := ih hf (s := { s with
          sql_values := if s.set_flag = true then append s.sql_values comma else s.sql_values })
          hs
        refine ⟨r, ?_, hr⟩
        rw [clauses, hentry]
        simp only [hbit, Bool.true_eq_false, if_false, ho, hrun]
      | some v =>
        obtain ⟨l, hl⟩ : ∃ l, pairs false (f :: fs) = (f.name.text, l) :: pairs false fs :=
          pairs_cons_some hset ho
        let values := { s with
          sql_values := format
            (if s.set_flag = true then append s.sql_values comma else s.sql_values) 1024 v }
        have hvalues : Opened values := hs
        obtain ⟨r, hrun, hr, hcolumns, hupdate⟩ := ih hf (column_opened hvalues f.name)
        refine ⟨r, ?_, ?_, ?_, fun hne ↦ ?_⟩
        · rw [clauses, hentry]
          simp only [hbit, Bool.true_eq_false, if_false, ho]
          exact hrun
        · rw [hr, pieces_text _ htext, List.map_append, appendAll_append, ← append_separator]
          rfl
        · rw [hcolumns, column_columns hvalues, hl, ← appendAll_append, List.append_assoc]
          rfl
        · have hopen : values.sql_columns ≠ none := by
            intro hnone
            rw [column_columns hvalues, hnone, appendAll_none, appendAll_none] at hcolumns
            exact hne hcolumns
          rw [hupdate hne, column_update hvalues hopen, hl, ← appendAll_append,
            ← List.map_append, List.append_assoc]
          rfl

end Run

/-! ## Texts without zeros -/

section Zeros

variable {number : BitVec 64 → ℤ} {keep : Bool} {e : Entry} {fs : List Field} {ts : List Text}
  {t : Text}

theorem zero_append {s t : Text} (hs : 0 ∉ s) (ht : 0 ∉ t) : 0 ∉ s ++ t := fun h ↦
  (List.mem_append.mp h).elim hs ht

theorem zero_cut (ht : 0 ∉ t) : 0 ∉ cut t := fun h ↦ ht (List.mem_of_mem_take h)

theorem zero_showNat (n : ℕ) : 0 ∉ showNat n := fun h ↦
  absurd (isDigit_showNat n 0 h) (by decide)

theorem zero_showInt (z : ℤ) : 0 ∉ showInt z := by
  unfold showInt
  split_ifs
  · intro h
    rcases List.mem_cons.mp h with h | h
    · exact absurd h (by decide)
    · exact zero_showNat _ h
  · exact zero_showNat _

theorem zero_quoted {s : Text} (hs : 0 ∉ s) : 0 ∉ quoted s := by
  intro h
  rcases List.mem_append.mp h with h | h
  · rcases List.mem_cons.mp h with h | h
    · exact absurd h (by decide)
    · exact hs h
  · exact absurd (List.mem_singleton.mp h) (by decide)

theorem zero_separator (more : Bool) : ∀ u ∈ separator more, 0 ∉ u := by
  cases more <;> decide

theorem zero_joined (hts : ∀ u ∈ ts, 0 ∉ u) (more : Bool) : ∀ u ∈ joined more ts, 0 ∉ u := by
  induction ts generalizing more with
  | nil => exact nofun
  | cons t ts ih =>
    obtain ⟨ht, hts⟩ := List.forall_mem_cons.mp hts
    intro u hu
    rcases List.mem_append.mp hu with hu | hu
    · exact zero_separator more u hu
    · rcases List.mem_cons.mp hu with rfl | hu
      · exact ht
      · exact ih hts true u hu

theorem zero_item {lead u : Text} (hlead : 0 ∉ lead)
    (hu : u ∈ (item number keep lead e).text) : 0 ∉ u := by
  unfold item at hu
  cases hkind : e.kind with
  | integer width signed =>
    rw [hkind] at hu
    cases hu
    exact zero_append hlead (zero_showInt _)
  | string s =>
    simp only [hkind] at hu
    split_ifs at hu
    · exact nomatch hu
    · cases hu
      exact zero_append hlead (zero_quoted s.2)
  | vector json =>
    rw [hkind] at hu
    cases json with
    | none => exact nomatch hu
    | some json =>
      cases hu
      exact zero_append hlead (zero_quoted json.2)
  | other =>
    rw [hkind] at hu
    exact nomatch hu

theorem zero_pieces {is : List Item} (his : ∀ i ∈ is, ∀ u ∈ i.text, 0 ∉ u) (more : Bool) :
    ∀ u ∈ pieces more is, 0 ∉ u := by
  induction is generalizing more with
  | nil => exact nofun
  | cons i is ih =>
    obtain ⟨hi, his⟩ := List.forall_mem_cons.mp his
    intro u hu
    cases htext : i.text with
    | none =>
      rw [pieces_skipped more htext] at hu
      rcases List.mem_append.mp hu with hu | hu
      · exact zero_separator more u hu
      · exact ih his more u hu
    | some t =>
      rw [pieces_text more htext] at hu
      rcases List.mem_append.mp hu with hu | hu
      · exact zero_separator more u hu
      · rcases List.mem_cons.mp hu with rfl | hu
        · exact hi u htext
        · exact ih his true u hu

theorem zero_pieces_cut (number : BitVec 64 → ℤ) (keep : Bool) (fs : List Field)
    (lead : Text → Text) (hlead : ∀ n : Name, 0 ∉ lead n.text) (more : Bool) :
    ∀ u ∈ (pieces more (items number keep lead fs)).map cut, 0 ∉ u := by
  intro u hu
  obtain ⟨v, hv, rfl⟩ := List.mem_map.mp hu
  refine zero_cut (zero_pieces (fun i hi w hw ↦ ?_) more v hv)
  obtain ⟨f, -, hf⟩ := List.mem_filterMap.mp hi
  obtain ⟨e, -, rfl⟩ := Option.map_eq_some_iff.mp hf
  exact zero_item (hlead f.name) hw

theorem zero_columns {u : Text} (hu : u ∈ (pairs keep fs).map Prod.fst) : 0 ∉ u := by
  obtain ⟨c, hc, rfl⟩ := List.mem_map.mp hu
  obtain ⟨f, -, hf⟩ := List.mem_filterMap.mp hc
  obtain ⟨e, -, he⟩ := Option.bind_eq_some_iff.mp hf
  obtain ⟨l, -, rfl⟩ := Option.map_eq_some_iff.mp he
  exact name_zero f.name

theorem zero_duplicate {u : Text} (hu : 0 ∉ u) : 0 ∉ duplicate u :=
  zero_append (zero_append (zero_append hu (by decide)) hu) (by decide)

end Zeros

/-! ## Insertions -/

section Insertions

variable {number : BitVec 64 → ℤ} {t : Table} {x text : Text}

theorem assign_open (b : Blank) :
    ∃ s, b.str.assign (ascii "(") = some s ∧ s.Holds (ascii "(") ∧
      s.value_max_len = b.str.value_max_len := by
  have hlen := b.holds.len_eq
  have hroom := b.room
  have hfits := b.holds.fits
  have hsmall : Str.Room b.str.value_max_len b.str.value_len (ascii "(").length
      (ascii "(").length := by
    right
    rw [hlen]
    exact ⟨Nat.lt_of_lt_of_le (by decide) hroom, .inr (Nat.lt_of_lt_of_le (by decide) hroom)⟩
  have hsame : Str.roomFor b.str.value_max_len b.str.value_len (ascii "(").length =
      b.str.value_max_len := by
    rw [hlen]
    exact if_neg fun h ↦ absurd (Nat.lt_of_lt_of_le h.2 (by decide)) (Nat.not_lt.mpr hroom)
  obtain ⟨s, hassign, hs⟩ := b.holds.assign ⟨ascii "(", by decide⟩ hsmall
  refine ⟨s, hassign, hs, ?_⟩
  obtain ⟨s₁, hmodulate, h⟩ := Option.bind_eq_some_iff.mp hassign
  obtain ⟨s₂, hwrite, hclose⟩ := Option.bind_eq_some_iff.mp h
  have hmodulated : s₁ = b.str := by
    rw [Str.modulate_capacity, hsame] at hmodulate
    simpa using hmodulate.symm
  subst hmodulated
  have hlast := Str.write_value_max_len hclose
  have hfirst := Str.write_value_max_len hwrite
  refine hlast.trans (hfirst.trans ?_)
  rw [Str.value_max_len, List.length_replicate]

theorem format_blank (b : Blank) (hzero : 0 ∉ text) :
    ∃ s, format (some b.str) 1024 text = some s ∧ s.Holds (text.take 1023) := by
  have hlen := b.holds.len_eq
  have hroom := b.room
  have hfits := b.holds.fits
  have hle : (text.take 1023).length ≤ 1023 := List.length_take_le 1023 text
  have hsmall : Str.Fits b.str.value_max_len b.str.value_len (text.take 1023).length := by
    rw [hlen]
    refine ⟨.inr (Nat.lt_of_lt_of_le (by decide) hroom), ?_⟩
    unfold Str.roomFor
    rw [List.length_nil]
    split_ifs <;> omega
  obtain ⟨s, happend, hs, -⟩ :=
    b.holds.append_fits (fun h ↦ hzero (List.mem_of_mem_take h)) hsmall
  exact ⟨s, happend, hs⟩

theorem statement_eq (b : Blank) (hzero : 0 ∉ text) :
    statement b text = .passed (text.take 1023) := by
  obtain ⟨s, hformat, hs⟩ := format_blank b hzero
  rw [statement, hformat]
  exact congrArg Outcome.passed hs.cString

theorem inserts_iff (hx : Closes x) (hcomma : x.head? ≠ some 44) (hne : x ≠ [])
    (htext : Agree 1023 text (insertion t ++
      ((pieces false (items number false (fun _ ↦ []) t.meta_info)).flatten ++ x))) :
    Inserts t x (text.take 1023) ↔
      pairs false t.meta_info ≠ [] ∧
        Right false (items number false (fun _ ↦ []) t.meta_info) ∧
        (insertion t ++ ((pieces false
          (items number false (fun _ ↦ []) t.meta_info)).flatten ++ x)).length ≤ 1023 := by
  have hpairs : (items number false (fun _ ↦ []) t.meta_info).filterMap Item.pair =
      (pairs false t.meta_info).map fun c ↦ ([], c.2) := pairs_items number false _ _
  have hlead : ∀ p ∈ (items number false (fun _ ↦ []) t.meta_info).filterMap Item.pair,
      p.1.head? ≠ some 44 := by
    intro p hp
    rw [hpairs] at hp
    obtain ⟨c, -, rfl⟩ := List.mem_map.mp hp
    exact nofun
  have hread := readItems_take_iff false (insertion t) 1023 hlead hx hcomma hne
  rw [hpairs, ← htext] at hread
  rw [Inserts, hread]

end Insertions

section Inserting

variable {number : BitVec 64 → ℤ} {t : Table} {ts : List Text}

theorem bracket_cases (b : Blank) (hzero : ∀ u ∈ ts, 0 ∉ u) :
    (Fits b.str.value_max_len 1 (ts ++ [ascii ")"]) ∧
        ∃ s, append (appendAll (b.str.assign (ascii "(")) ts) (ascii ")") = some s ∧
          s.Holds (ascii "(" ++ ts.flatten ++ ascii ")")) ∨
      ¬Fits b.str.value_max_len 1 (ts ++ [ascii ")"]) ∧
        append (appendAll (b.str.assign (ascii "(")) ts) (ascii ")") = none := by
  obtain ⟨s, hassign, hs, hmax⟩ := assign_open b
  have hlast : append (appendAll (b.str.assign (ascii "(")) ts) (ascii ")") =
      appendAll (some s) (ts ++ [ascii ")"]) := by
    rw [hassign, appendAll_append]
    rfl
  have hzeros : ∀ u ∈ ts ++ [ascii ")"], 0 ∉ u := by
    intro u hu
    rcases List.mem_append.mp hu with hu | hu
    · exact hzero u hu
    · rw [List.mem_singleton.mp hu]
      decide
  have hone : (ascii "(").length = 1 := by decide
  rw [hlast, ← hmax, ← hone]
  by_cases hfits : Fits s.value_max_len (ascii "(").length (ts ++ [ascii ")"])
  · obtain ⟨s', hall, hs'⟩ := appendAll_fits hs hzeros hfits
    refine .inl ⟨hfits, s', hall, ?_⟩
    rwa [List.flatten_append, List.flatten_singleton, ← List.append_assoc] at hs'
  · exact .inr ⟨hfits, appendAll_not_fits hs hzeros hfits⟩

/-- The strings find room, what is written is what is meant, and the whole statement is passed. -/
structure Prints (number : BitVec 64 → ℤ) (sql_columns sql_values : Blank) (finish : Text)
    (t : Table) : Prop where
  columns : Fits sql_columns.str.value_max_len 1 (joined false (columns t) ++ [ascii ")"])
  values : Fits sql_values.str.value_max_len 1
    ((pieces false (items number false (fun _ ↦ []) t.meta_info)).map cut ++ [ascii ")"])
  right : Right false (items number false (fun _ ↦ []) t.meta_info)
  length_le : (insertion t ++
    ((pieces false (items number false (fun _ ↦ []) t.meta_info)).flatten ++ finish)).length ≤ 1023

theorem agree_cut (n : Text) : Agree 1023 (cut n) n := agree_take 1023 n

theorem columns_eq_nil : columns t = [] ↔ pairs false t.meta_info = [] := List.map_eq_nil_iff

theorem name_of_columns {c : Text} (h : c ∈ columns t) : c ≠ [] := by
  obtain ⟨p, hp, rfl⟩ := List.mem_map.mp h
  obtain ⟨f, -, hf⟩ := List.mem_filterMap.mp hp
  obtain ⟨e, -, he⟩ := Option.bind_eq_some_iff.mp hf
  obtain ⟨l, -, rfl⟩ := Option.map_eq_some_iff.mp he
  exact f.name.ne_nil

theorem brackets_iff :
    ascii "(" ++ (joined false (columns t)).flatten ++ ascii ")" = ascii "()" ↔
      pairs false t.meta_info = [] := by
  rw [← columns_eq_nil]
  have hempty : ascii "()" = ascii "(" ++ [] ++ ascii ")" := by decide
  rw [hempty, List.append_left_inj, List.append_right_inj]
  cases hcolumns : columns t with
  | nil => exact iff_of_true rfl rfl
  | cons c cs =>
    have hc : c ≠ [] := name_of_columns (hcolumns ▸ List.mem_cons_self)
    refine iff_of_false (fun h ↦ hc ?_) (List.cons_ne_nil c cs)
    exact List.flatten_eq_nil_iff.mp h c (by simp [joined, separator])

theorem opened_start (b : Blank) (values update : Option Str) :
    Opened ⟨values, b.str.assign (ascii "("), update, false⟩ := by
  intro c hc
  obtain ⟨s, hassign, hs, -⟩ := assign_open b
  have hc' : b.str.assign (ascii "(") = some c := hc
  rw [hassign] at hc'
  cases hc'
  exact ⟨[], by rwa [List.append_nil], iff_of_true rfl rfl⟩

theorem inserting_eq {values finish : Text} :
    ascii "INSERT INTO " ++ t.table_name.text ++ ascii " " ++
        (ascii "(" ++ (joined false (columns t)).flatten ++ ascii ")") ++ ascii " VALUES " ++
        (ascii "(" ++ values ++ ascii ")") ++ finish =
      insertion t ++ (values ++ (ascii ")" ++ finish)) := by
  have hopen : ascii " (" = ascii " " ++ ascii "(" := by decide
  have hvalues : ascii ") VALUES (" = ascii ")" ++ ascii " VALUES " ++ ascii "(" := by decide
  unfold insertion
  rw [hopen, hvalues]
  simp only [List.append_assoc]

theorem passes_statement_iff (b : Blank) {c v : Str} {written finish : Text}
    (hwritten : 0 ∉ written)
    (hfinish : Agree 1023 written finish)
    (hc : c.Holds (ascii "(" ++ (joined false (columns t)).flatten ++ ascii ")"))
    (hv : v.Holds (ascii "(" ++ ((pieces false
      (items number false (fun _ ↦ []) t.meta_info)).map cut).flatten ++ ascii ")")) :
    Passes (Inserts t (ascii ")" ++ finish))
        (statement b (ascii "INSERT INTO " ++ t.table_name.text ++ ascii " " ++
          cString c.value ++ ascii " VALUES " ++ cString v.value ++ written)) ↔
      pairs false t.meta_info ≠ [] ∧
        Right false (items number false (fun _ ↦ []) t.meta_info) ∧
        (insertion t ++ ((pieces false
          (items number false (fun _ ↦ []) t.meta_info)).flatten ++
            (ascii ")" ++ finish))).length ≤ 1023 := by
  have hzero : 0 ∉ ascii "INSERT INTO " ++ t.table_name.text ++ ascii " " ++
      (ascii "(" ++ (joined false (columns t)).flatten ++ ascii ")") ++ ascii " VALUES " ++
      (ascii "(" ++ ((pieces false
        (items number false (fun _ ↦ []) t.meta_info)).map cut).flatten ++ ascii ")") ++ written :=
    zero_append (zero_append (zero_append (zero_append (zero_append (zero_append (by decide)
      (name_zero t.table_name)) (by decide)) hc.zero_notMem) (by decide)) hv.zero_notMem) hwritten
  rw [hc.cString, hv.cString, statement_eq b hzero, inserting_eq]
  have hagree : Agree 1023
      (insertion t ++ (((pieces false (items number false (fun _ ↦ []) t.meta_info)).map
        cut).flatten ++ (ascii ")" ++ written)))
      (insertion t ++ ((pieces false (items number false (fun _ ↦ []) t.meta_info)).flatten ++
        (ascii ")" ++ finish))) :=
    (agree_refl _ _).append ((agree_flatten_map agree_cut _).append
      ((agree_refl _ _).append hfinish))
  have hcloses : Closes (ascii ")" ++ finish) := by
    intro d hd
    have hparen : d = 41 := (Option.mem_some_iff.mp hd).symm
    subst hparen
    decide
  exact inserts_iff hcloses nofun (List.cons_ne_nil _ _) hagree

theorem fits_bracket (b : Blank) : Fits b.str.value_max_len 1 [ascii ")"] := by
  have hroom := b.room
  have hfits := b.holds.fits
  have hlen : (ascii ")").length = 1 := by decide
  refine ⟨⟨.inr (by omega), ?_⟩, trivial⟩
  rw [hlen, Str.roomFor]
  split_ifs <;> omega

theorem insert_model_passes_iff (widen : BitVec 32 → BitVec 64)
    (sql_statement sql_columns sql_values : Blank) (t : Table) :
    Passes (Inserts t (ascii ")")) (insert_model widen sql_statement sql_columns sql_values t) ↔
      (∃ f ∈ t.meta_info, Refuses f) ∨ pairs false t.meta_info = [] ∨
        Prints (printed widen) sql_columns sql_values (ascii ")") t := by
  by_cases hrefused : ∃ f ∈ t.meta_info, Refuses f
  · refine iff_of_true ?_ (.inl hrefused)
    unfold insert_model
    rw [clauses_refused hrefused]
    trivial
  have hf : ∀ f ∈ t.meta_info, ¬Refuses f := fun f hmem h ↦ hrefused ⟨f, hmem, h⟩
  obtain ⟨r, hrun, hvalues, hcolumns, -⟩ := clauses_eq (printed widen) hf
    (opened_start sql_columns (sql_values.str.assign (ascii "(")) none)
  have hzeroColumns : ∀ u ∈ joined false (columns t), 0 ∉ u :=
    zero_joined (fun u hu ↦ zero_columns hu) false
  have hzeroValues := zero_pieces_cut (printed widen) false t.meta_info (fun _ ↦ [])
    (fun _ ↦ List.not_mem_nil) false
  have hclosed : r.sql_columns =
      appendAll (sql_columns.str.assign (ascii "(")) (joined false (columns t)) := hcolumns
  have hvalued : r.sql_values = appendAll (sql_values.str.assign (ascii "("))
      ((pieces false (items (printed widen) false (fun _ ↦ []) t.meta_info)).map cut) := hvalues
  unfold insert_model
  simp only [hrun, hclosed, hvalued]
  rw [or_iff_right hrefused]
  rcases bracket_cases sql_columns hzeroColumns with ⟨hfits, c, hc, hholds⟩ | ⟨hfits, hc⟩
  · simp only [hc]
    by_cases hempty : pairs false t.meta_info = []
    · rw [if_pos ((equal_iff hholds _).mpr (brackets_iff.mpr hempty))]
      exact iff_of_true trivial (.inl hempty)
    · rw [if_neg fun h ↦ hempty (brackets_iff.mp ((equal_iff hholds _).mp h)),
        or_iff_right hempty]
      rcases bracket_cases sql_values hzeroValues with ⟨hfits', v, hv, hholds'⟩ | ⟨hfits', hv⟩
      · simp only [hv]
        have hiff := passes_statement_iff (t := t) sql_statement List.not_mem_nil (agree_refl _ _)
          hholds hholds'
        rw [List.append_nil, List.append_nil] at hiff
        rw [hiff]
        constructor
        · rintro ⟨-, hright, hle⟩
          exact ⟨hfits, hfits', hright, hle⟩
        · exact fun h ↦ ⟨hempty, h.right, h.length_le⟩
      · simp only [hv]
        exact iff_of_false id fun h ↦ hfits' h.values
  · simp only [hc]
    refine iff_of_false id ?_
    rintro (hempty | h)
    · rw [columns_eq_nil.mpr hempty] at hfits
      exact hfits (fits_bracket sql_columns)
    · exact hfits h.columns

theorem update_cases (b : Blank) (hzero : ∀ u ∈ ts, 0 ∉ u) :
    (Fits b.str.value_max_len 0 ts ∧
        ∃ s, appendAll (some b.str) ts = some s ∧ s.Holds ts.flatten) ∨
      ¬Fits b.str.value_max_len 0 ts ∧ appendAll (some b.str) ts = none := by
  by_cases hfits : Fits b.str.value_max_len 0 ts
  · exact .inl ⟨hfits, appendAll_fits b.holds hzero hfits⟩
  · exact .inr ⟨hfits, appendAll_not_fits b.holds hzero hfits⟩

def duplicates (t : Table) : List Text := (joined false ((columns t).map duplicate)).map cut

theorem zero_duplicates : ∀ u ∈ duplicates t, 0 ∉ u := by
  intro u hu
  obtain ⟨v, hv, rfl⟩ := List.mem_map.mp hu
  refine zero_cut (zero_joined (fun w hw ↦ ?_) false v hv)
  obtain ⟨c, hc, rfl⟩ := List.mem_map.mp hw
  exact zero_duplicate (zero_columns hc)

theorem onDuplicate_eq (t : Table) :
    onDuplicate t = ascii ")" ++ (ascii " ON DUPLICATE KEY UPDATE " ++
      (joined false ((columns t).map duplicate)).flatten ++ ascii ";") := by
  have hopen : ascii ") ON DUPLICATE KEY UPDATE " =
      ascii ")" ++ ascii " ON DUPLICATE KEY UPDATE " := by decide
  rw [onDuplicate, hopen]
  simp only [List.append_assoc]

theorem agree_duplicates (t : Table) :
    Agree 1023 (ascii " ON DUPLICATE KEY UPDATE " ++ (duplicates t).flatten ++ ascii ";")
      (ascii " ON DUPLICATE KEY UPDATE " ++
        (joined false ((columns t).map duplicate)).flatten ++ ascii ";") :=
  ((agree_refl _ _).append (agree_flatten_map agree_cut _)).append (agree_refl _ _)

theorem insert_or_update_model_passes_iff
    (sql_statement sql_columns sql_values sql_update : Blank) (t : Table) :
    Passes (Inserts t (onDuplicate t))
        (insert_or_update_model sql_statement sql_columns sql_values sql_update t) ↔
      (∃ f ∈ t.meta_info, Refuses f) ∨ pairs false t.meta_info ≠ [] ∧
        Fits sql_update.str.value_max_len 0 (duplicates t) ∧
        Prints BitVec.toInt sql_columns sql_values (onDuplicate t) t := by
  by_cases hrefused : ∃ f ∈ t.meta_info, Refuses f
  · refine iff_of_true ?_ (.inl hrefused)
    unfold insert_or_update_model
    rw [clauses_refused hrefused]
    trivial
  have hf : ∀ f ∈ t.meta_info, ¬Refuses f := fun f hmem h ↦ hrefused ⟨f, hmem, h⟩
  obtain ⟨r, hrun, hvalues, hcolumns, hupdate⟩ := clauses_eq BitVec.toInt hf
    (opened_start sql_columns (sql_values.str.assign (ascii "(")) (some sql_update.str))
  have hzeroColumns : ∀ u ∈ joined false (columns t), 0 ∉ u :=
    zero_joined (fun u hu ↦ zero_columns hu) false
  have hzeroValues := zero_pieces_cut BitVec.toInt false t.meta_info (fun _ ↦ [])
    (fun _ ↦ List.not_mem_nil) false
  have hclosed : r.sql_columns =
      appendAll (sql_columns.str.assign (ascii "(")) (joined false (columns t)) := hcolumns
  have hvalued : r.sql_values = appendAll (sql_values.str.assign (ascii "("))
      ((pieces false (items BitVec.toInt false (fun _ ↦ []) t.meta_info)).map cut) := hvalues
  unfold insert_or_update_model
  simp only [hrun, hvalued]
  rw [or_iff_right hrefused]
  rcases bracket_cases sql_values hzeroValues with ⟨hfitsValues, v, hv, hholdsv⟩ | ⟨hnot, hv⟩
  · rcases bracket_cases sql_columns hzeroColumns with ⟨hfitsColumns, c, hc, hholdsc⟩ | ⟨hnot, hc⟩
    · have hopen : r.sql_columns ≠ none := by
        intro hnone
        rw [hclosed] at hnone
        rw [hnone] at hc
        exact nomatch hc
      have hupdated : r.sql_update = appendAll (some sql_update.str) (duplicates t) :=
        hupdate hopen
      rcases update_cases sql_update (zero_duplicates (t := t)) with
        ⟨hfitsUpdate, u, hu, hholdsu⟩ | ⟨hnot, hu⟩
      · simp only [hv, hclosed, hc, hupdated, hu]
        have hiff := passes_statement_iff (t := t) sql_statement
          (zero_append (zero_append (by decide) hholdsu.zero_notMem) (by decide))
          (agree_duplicates t) hholdsc hholdsv
        rw [← onDuplicate_eq, ← hholdsu.cString] at hiff
        simp only [← List.append_assoc] at hiff ⊢
        rw [hiff]
        constructor
        · rintro ⟨hne, hright, hle⟩
          exact ⟨hne, hfitsUpdate, hfitsColumns, hfitsValues, hright, by rwa [← List.append_assoc]⟩
        · rintro ⟨hne, -, h⟩
          exact ⟨hne, h.right, by have hle := h.length_le; rwa [← List.append_assoc] at hle⟩
      · simp only [hv, hclosed, hc, hupdated, hu]
        exact iff_of_false id fun h ↦ hnot h.2.1
    · simp only [hv, hclosed, hc]
      exact iff_of_false id fun h ↦ hnot h.2.2.columns
  · simp only [hv]
    exact iff_of_false id fun h ↦ hnot h.2.2.values

end Inserting

/-! ## Updates -/

section Updating

variable {number : BitVec 64 → ℤ} {f : Field} {fs : List Field} {i : ℕ} {e : Entry}

theorem assignments_refused {s : Assignments} (hi : i ≠ 0) (h : ∃ f ∈ fs, Refuses f) :
    assignments number i fs s = none := by
  induction fs generalizing i s with
  | nil => exact absurd h (by simp)
  | cons f fs ih =>
    obtain ⟨g, hmem, hg⟩ := h
    unfold assignments
    cases hentry : f.entry with
    | none => rfl
    | some e =>
      simp only [if_neg hi]
      rcases List.mem_cons.mp hmem with rfl | hrest
      · obtain ⟨hbit, hother⟩ := hg e hentry
        simp only [hbit, Bool.true_eq_false, if_false]
        rw [literal_eq_none.mpr hother]
      · have hagain : ∀ s, assignments number (i + 1) fs s = none := fun s ↦
          ih (Nat.succ_ne_zero i) ⟨g, hrest, hg⟩
        by_cases hbit : e.bit = false
        · simp only [if_pos hbit, hagain]
        · simp only [if_neg hbit, hagain]
          cases literal number true e with
          | none => rfl
          | some o => cases o <;> rfl

theorem assignments_eq (number : BitVec 64 → ℤ) {s : Assignments} (hi : i ≠ 0)
    (hf : ∀ f ∈ fs, ¬Refuses f) :
    ∃ r, assignments number i fs s = some r ∧
      r.sql_set = appendAll s.sql_set
        ((pieces s.set_flag (items number true lead fs)).map cut) ∧
      r.sql_where = s.sql_where := by
  induction fs generalizing i s with
  | nil => exact ⟨s, rfl, rfl, rfl⟩
  | cons f fs ih =>
    obtain ⟨hhead, hf⟩ := List.forall_mem_cons.mp hf
    have hnext : i + 1 ≠ 0 := Nat.succ_ne_zero i
    obtain ⟨e, hentry, ⟨hbit, hset⟩ | ⟨hbit, hset, hkind⟩⟩ := not_refuses_cases hhead
    · obtain ⟨r, hrun, hr⟩ := ih (s := s) hnext hf
      rw [items_cons_none hset]
      refine ⟨r, ?_, hr⟩
      rw [assignments, hentry]
      simp only [hbit, if_true, hrun]
    · have hliteral : literal number true e ≠ none := fun h ↦ hkind (literal_eq_none.mp h)
      obtain ⟨o, ho⟩ := Option.ne_none_iff_exists'.mp hliteral
      have htext := text_item (lead f.name.text) ho
      rw [items_cons_some hset]
      cases o with
      | none =>
        rw [pieces_skipped _ htext, List.map_append, appendAll_append, ← append_separator]
        obtain ⟨r, hrun, hr⟩ := ih (s := { s with
          sql_set := if s.set_flag = true then append s.sql_set comma else s.sql_set })
          hnext hf
        refine ⟨r, ?_, hr⟩
        rw [assignments, hentry]
        simp only [hbit, Bool.true_eq_false, if_false, if_neg hi, ho, hrun]
      | some v =>
        rw [pieces_text _ htext, List.map_append, appendAll_append, ← append_separator]
        obtain ⟨r, hrun, hr⟩ := ih (s := ⟨format
          (if s.set_flag = true then append s.sql_set comma else s.sql_set) 1024
            (f.name.text ++ ascii "=" ++ v), s.sql_where, true⟩) hnext hf
        refine ⟨r, ?_, hr⟩
        rw [assignments, hentry]
        simp only [hbit, Bool.true_eq_false, if_false, if_neg hi, ho, hrun]

theorem text_mem_pieces {is : List Item} {j : Item} {u : Text} (hj : j ∈ is) (hu : j.text = some u)
    (more : Bool) : u ∈ pieces more is := by
  induction is generalizing more with
  | nil => exact nomatch hj
  | cons k is ih =>
    rcases List.mem_cons.mp hj with rfl | hj
    · rw [pieces_text more hu]
      exact List.mem_append_right _ List.mem_cons_self
    · cases hk : k.text with
      | none =>
        rw [pieces_skipped more hk]
        exact List.mem_append_right _ (ih hj more)
      | some t =>
        rw [pieces_text more hk]
        exact List.mem_append_right _ (List.mem_cons_of_mem _ (ih hj true))

theorem pieces_eq_nil {is : List Item}
    (h : is.filterMap Item.pair = []) : pieces false is = [] := by
  induction is with
  | nil => rfl
  | cons j is ih =>
    cases j with
    | skipped => exact ih h
    | number lead shown value => exact nomatch h
    | string lead value => exact nomatch h

theorem flatten_assignments_iff :
    ((pieces false (items number true lead fs)).map cut).flatten = [] ↔ pairs true fs = [] := by
  have hpairs := pairs_items number true lead fs
  constructor
  · intro hnil
    by_contra hne
    have hne' : (items number true lead fs).filterMap Item.pair ≠ [] := by
      rw [hpairs]
      exact fun h ↦ hne (List.map_eq_nil_iff.mp h)
    obtain ⟨p, hp⟩ := List.exists_mem_of_ne_nil _ hne'
    have hlead : p.1 ≠ [] := by
      rw [hpairs] at hp
      obtain ⟨c, -, rfl⟩ := List.mem_map.mp hp
      simp [lead, ascii]
    obtain ⟨j, hj, hjp⟩ := List.mem_filterMap.mp hp
    have htext : ∃ w, j.text = some (p.1 ++ w) := by
      cases j with
      | skipped => exact nomatch hjp
      | number lead shown value =>
        cases hjp
        exact ⟨_, rfl⟩
      | string lead value =>
        cases hjp
        exact ⟨_, rfl⟩
    obtain ⟨w, hw⟩ := htext
    have hcut := List.flatten_eq_nil_iff.mp hnil _
      (List.mem_map_of_mem (text_mem_pieces hj hw false))
    rw [cut, List.take_eq_nil_iff] at hcut
    rcases hcut with hzero | happend
    · exact absurd hzero (by decide)
    · exact hlead (List.append_eq_nil_iff.mp happend).1
  · intro hnil
    rw [hnil] at hpairs
    rw [pieces_eq_nil hpairs]
    rfl

/-- The text up to the literal of the first column. -/
def updating (t : Table) : Text := ascii "UPDATE " ++ t.table_name.text ++ ascii " SET "

def condition (f : Field) : Text := ascii " WHERE " ++ lead f.name.text

/-- The string finds room, what is written is what is meant, and what is passed of the number that
the first column is compared with is its value. -/
structure Assigns (number : BitVec 64 → ℤ) (sql_set : Blank) (t : Table) : Prop where
  set : Fits sql_set.str.value_max_len 0
    ((pieces false (items number true lead t.meta_info.tail)).map cut)
  right : Right false (items number true lead t.meta_info.tail)
  first : ∃ f ∈ t.meta_info.head?, ∃ e ∈ OrmConn.set f, ∃ l ∈ meant true e,
    readLiteral ((showInt (number e.word)).take
      (1023 - (updating t ++ (pieces false (items number true lead t.meta_info.tail)).flatten ++
        condition f).length)) = some (l, [])

theorem zero_lead (n : Name) : 0 ∉ lead n.text := zero_append (name_zero n) (by decide)

theorem head_lead (n : Name) (x : Text) : (lead n.text ++ x).head? ≠ some 44 := by
  have hletters := n.letters
  cases htext : n.text with
  | nil => exact absurd htext n.ne_nil
  | cons c t =>
    intro h
    have hc : c = 44 := Option.some.inj h
    rw [htext] at hletters
    have hcomma := hletters c List.mem_cons_self
    rw [hc] at hcomma
    revert hcomma
    decide

theorem assignments_unset {s : Assignments} (hentry : f.entry = some e) (hbit : e.bit = false) :
    assignments number 0 (f :: fs) s = assignments number 1 fs s := by
  rw [assignments, hentry]
  simp only [hbit, if_true]

theorem assignments_first {s : Assignments} (hentry : f.entry = some e) (hbit : e.bit = true) :
    assignments number 0 (f :: fs) s =
      assignments number 1 fs { s with
        sql_where := format s.sql_where 1024
          (f.name.text ++ ascii "=" ++ showInt (number e.word)) } := by
  rw [assignments, hentry]
  simp only [hbit, Bool.true_eq_false, if_false, if_true]

theorem equal_blank (b : Blank) : equal (some b.str) [] = true := (equal_iff b.holds []).mpr rfl

theorem set_cases (f : Field) :
    f.entry = none ∨ ∃ e, f.entry = some e ∧
      (e.bit = false ∧ set f = none ∨ e.bit = true ∧ set f = some e) := by
  cases hentry : f.entry with
  | none => exact .inl rfl
  | some e =>
    refine .inr ⟨e, rfl, ?_⟩
    cases hbit : e.bit with
    | false =>
      refine .inl ⟨rfl, ?_⟩
      rw [set, hentry, Option.filter_some, hbit]
      rfl
    | true =>
      refine .inr ⟨rfl, ?_⟩
      rw [set, hentry, Option.filter_some, hbit]
      rfl

theorem update_model_refused (widen : BitVec 32 → BitVec 64)
    (sql_statement sql_set sql_where : Blank) {t : Table}
    (h : (∀ f ∈ t.meta_info.head?, set f = none) ∨ ∃ f ∈ t.meta_info.tail, Refuses f) :
    update_model widen sql_statement sql_set sql_where t = .thrown := by
  have hempty : ∀ set : Option Str, equal set [] = true ∨ equal (some sql_where.str) [] = true :=
    fun _ ↦ .inr (equal_blank sql_where)
  unfold update_model
  cases hinfo : t.meta_info with
  | nil =>
    simp only [assignments]
    rw [if_pos (hempty _)]
  | cons f fs =>
    rw [hinfo, List.head?_cons, List.tail_cons] at h
    by_cases hrefused : ∃ g ∈ fs, Refuses g
    · have hnone : ∀ s, assignments (printed widen) 1 fs s = none := fun s ↦
        assignments_refused Nat.one_ne_zero hrefused
      rcases set_cases f with hentry | ⟨e, hentry, ⟨hbit, -⟩ | ⟨hbit, -⟩⟩
      · rw [assignments, hentry]
      · rw [assignments_unset hentry hbit, hnone]
      · rw [assignments_first hentry hbit, hnone]
    · have hset : set f = none := (h.resolve_right hrefused) f rfl
      have hf : ∀ g ∈ fs, ¬Refuses g := fun g hg hrefuses ↦ hrefused ⟨g, hg, hrefuses⟩
      rcases set_cases f with hentry | ⟨e, hentry, ⟨hbit, -⟩ | ⟨-, hsome⟩⟩
      · rw [assignments, hentry]
      · obtain ⟨r, hrun, -, hwhere⟩ := assignments_eq (printed widen)
          (s := ⟨some sql_set.str, some sql_where.str, false⟩) Nat.one_ne_zero hf
        rw [assignments_unset hentry hbit, hrun]
        simp only [hwhere]
        rw [if_pos (hempty _)]
      · rw [hset] at hsome
        exact nomatch hsome

theorem updates_iff {t : Table} {text : Text} (hinfo : t.meta_info = f :: fs)
    (hset : set f = some e)
    (htext : Agree 1023 text (updating t ++
      ((pieces false (items number true lead fs)).flatten ++
        (condition f ++ showInt (number e.word))))) :
    Updates t (text.take 1023) ↔
      pairs true fs ≠ [] ∧ Right false (items number true lead fs) ∧
        ∃ l ∈ meant true e, readLiteral ((showInt (number e.word)).take
          (1023 - (updating t ++ (pieces false (items number true lead fs)).flatten ++
            condition f).length)) = some (l, []) := by
  have hpairs : (items number true lead fs).filterMap Item.pair =
      (pairs true fs).map fun c ↦ (lead c.1, c.2) := pairs_items number true lead fs
  have hlead : ∀ p ∈ (items number true lead fs).filterMap Item.pair, p.1.head? ≠ some 44 := by
    intro p hp
    rw [hpairs] at hp
    obtain ⟨c, hc, rfl⟩ := List.mem_map.mp hp
    obtain ⟨g, -, hg⟩ := List.mem_filterMap.mp hc
    obtain ⟨e', -, he⟩ := Option.bind_eq_some_iff.mp hg
    obtain ⟨l, -, rfl⟩ := Option.map_eq_some_iff.mp he
    have hhead := head_lead g.name []
    rwa [List.append_nil] at hhead
  have hcloses : Closes (condition f ++ showInt (number e.word)) := by
    intro d hd
    have hspace : d = 32 := (Option.mem_some_iff.mp hd).symm
    subst hspace
    decide
  have hread := fun l ↦ readItems_take_literal_iff (l := l) false (updating t) 1023 hlead hcloses
    nofun (List.cons_ne_nil _ _)
  simp only [hpairs, ← show text.take 1023 = _ from htext] at hread
  constructor
  · rintro ⟨f', fs', hinfo', hne, u, hu, v, hv, l, hl, hliteral⟩
    rw [hinfo] at hinfo'
    cases hinfo'
    rw [hset, Option.bind_some] at hl
    obtain ⟨hright, hlast⟩ := (hread l).mp ⟨u, hu, v, hv, hliteral⟩
    exact ⟨hne, hright, l, hl, hlast⟩
  · rintro ⟨hne, hright, l, hl, hlast⟩
    obtain ⟨u, hu, v, hv, hliteral⟩ := (hread l).mpr ⟨hright, hlast⟩
    refine ⟨f, fs, hinfo, hne, u, hu, v, hv, l, ?_, hliteral⟩
    rwa [hset, Option.bind_some]

theorem where_holds (b : Blank) (f : Field) (z : ℤ) :
    ∃ w, format (some b.str) 1024 (f.name.text ++ ascii "=" ++ showInt z) = some w ∧
      w.Holds (cut (lead f.name.text ++ showInt z)) ∧ equal (some w) [] = false := by
  have hzero : 0 ∉ lead f.name.text ++ showInt z := zero_append (zero_lead f.name) (zero_showInt z)
  obtain ⟨w, hformat, hw⟩ := format_blank b hzero
  refine ⟨w, hformat, hw, ?_⟩
  rw [← Bool.not_eq_true, equal_iff hw, List.take_eq_nil_iff, List.append_eq_nil_iff, lead,
    List.append_eq_nil_iff]
  rintro (hzero | ⟨⟨hname, -⟩, -⟩)
  · exact absurd hzero (by decide)
  · exact f.name.ne_nil hname

theorem update_model_set_iff (widen : BitVec 32 → BitVec 64)
    (sql_statement sql_set sql_where : Blank) {t : Table} (hinfo : t.meta_info = f :: fs)
    (hf : ∀ g ∈ fs, ¬Refuses g) (hentry : f.entry = some e) (hbit : e.bit = true)
    (hset : set f = some e) :
    Passes (Updates t) (update_model widen sql_statement sql_set sql_where t) ↔
      pairs true fs = [] ∨ Assigns (printed widen) sql_set t := by
  obtain ⟨w, hwhere, hw, hwne⟩ := where_holds sql_where f (printed widen e.word)
  obtain ⟨r, hrun, hr, hrw⟩ := assignments_eq (printed widen)
    (s := ⟨some sql_set.str, some w, false⟩) Nat.one_ne_zero hf
  have hzero := zero_pieces_cut (printed widen) true fs lead zero_lead false
  have hassigns : Assigns (printed widen) sql_set t ↔
      Fits sql_set.str.value_max_len 0
          ((pieces false (items (printed widen) true lead fs)).map cut) ∧
        Right false (items (printed widen) true lead fs) ∧
        ∃ l ∈ meant true e, readLiteral ((showInt (printed widen e.word)).take
          (1023 - (updating t ++ (pieces false (items (printed widen) true lead fs)).flatten ++
            condition f).length)) = some (l, []) := by
    constructor
    · rintro ⟨hfits, hright, g, hg, e', he', hlast⟩
      rw [hinfo] at hfits hright hg hlast
      cases hg
      rw [hset] at he'
      cases he'
      exact ⟨hfits, hright, hlast⟩
    · rintro ⟨hfits, hright, hlast⟩
      refine ⟨?_, ?_, f, ?_, e, hset, ?_⟩ <;> rw [hinfo]
      · exact hfits
      · exact hright
      · rfl
      · exact hlast
  rw [hassigns]
  unfold update_model
  rw [hinfo, assignments_first hentry hbit, hwhere, hrun]
  simp only [hrw, hr, hwne]
  rcases update_cases sql_set hzero with ⟨hfits, s, hs, hholds⟩ | ⟨hnot, hs⟩
  · simp only [hs]
    have hempty := equal_iff hholds []
    rw [flatten_assignments_iff] at hempty
    by_cases hnil : pairs true fs = []
    · rw [if_pos (.inl (hempty.mpr hnil))]
      exact iff_of_true trivial (.inl hnil)
    · rw [if_neg (by simpa [hempty] using hnil), or_iff_right hnil]
      have hzeroText : 0 ∉ updating t ++
          ((pieces false (items (printed widen) true lead fs)).map cut).flatten ++
          ascii " WHERE " ++ cut (lead f.name.text ++ showInt (printed widen e.word)) :=
        zero_append (zero_append (zero_append (zero_append (zero_append (by decide)
          (name_zero t.table_name)) (by decide)) hholds.zero_notMem) (by decide)) hw.zero_notMem
      have hagree : Agree 1023
          (updating t ++ ((pieces false (items (printed widen) true lead fs)).map cut).flatten ++
            ascii " WHERE " ++ cut (lead f.name.text ++ showInt (printed widen e.word)))
          (updating t ++ ((pieces false (items (printed widen) true lead fs)).flatten ++
            (condition f ++ showInt (printed widen e.word)))) := by
        have hparts := (((agree_refl 1023 (updating t)).append
          (agree_flatten_map agree_cut (pieces false (items (printed widen) true lead fs)))).append
            (agree_refl 1023 (ascii " WHERE "))).append
              (agree_cut (lead f.name.text ++ showInt (printed widen e.word)))
        rw [condition]
        simpa only [List.append_assoc] using hparts
      have hpassed := statement_eq sql_statement hzeroText
      rw [updating] at hpassed
      rw [hholds.cString, hw.cString, hpassed]
      refine (updates_iff hinfo hset hagree).trans ?_
      exact ⟨fun h ↦ ⟨hfits, h.2⟩, fun h ↦ ⟨hnil, h.2⟩⟩
  · simp only [hs]
    rw [if_neg (by simp [equal])]
    refine iff_of_false id ?_
    rintro (hnil | h)
    · refine hnot ?_
      have hpairs := pairs_items (printed widen) true lead fs
      rw [hnil] at hpairs
      rw [pieces_eq_nil hpairs]
      trivial
    · exact hnot h.1

theorem update_model_passes_iff (widen : BitVec 32 → BitVec 64)
    (sql_statement sql_set sql_where : Blank) (t : Table) :
    Passes (Updates t) (update_model widen sql_statement sql_set sql_where t) ↔
      ((∀ f ∈ t.meta_info.head?, set f = none) ∨ ∃ f ∈ t.meta_info.tail, Refuses f) ∨
        pairs true t.meta_info.tail = [] ∨ Assigns (printed widen) sql_set t := by
  by_cases hrefused : (∀ f ∈ t.meta_info.head?, set f = none) ∨ ∃ f ∈ t.meta_info.tail, Refuses f
  · rw [update_model_refused widen sql_statement sql_set sql_where hrefused]
    exact iff_of_true trivial (.inl hrefused)
  rw [or_iff_right hrefused]
  rw [not_or] at hrefused
  obtain ⟨hfirst, hrest⟩ := hrefused
  cases hinfo : t.meta_info with
  | nil => exact absurd (by rw [hinfo]; exact nofun) hfirst
  | cons f fs =>
    rw [hinfo, List.tail_cons] at hrest
    have hf : ∀ g ∈ fs, ¬Refuses g := fun g hg hrefuses ↦ hrest ⟨g, hg, hrefuses⟩
    rcases set_cases f with hentry | ⟨e, hentry, ⟨-, hset⟩ | ⟨hbit, hset⟩⟩
    · refine absurd ?_ hfirst
      rw [hinfo]
      intro g hg
      cases hg
      rw [set, hentry]
      rfl
    · refine absurd ?_ hfirst
      rw [hinfo]
      intro g hg
      cases hg
      exact hset
    · exact update_model_set_iff widen sql_statement sql_set sql_where hinfo hf hentry hbit hset

end Updating

/-! ## All three statements -/

/-- A statement that is passed on says what is meant just if the strings found room, nothing is left
out behind a column that was written, each number that is printed is the value, no text needs to
be written in another way, and nothing is cut off. -/
theorem statements_pass_iff (widen : BitVec 32 → BitVec 64)
    (sql_statement sql_columns sql_values sql_update sql_set sql_where : Blank) (t : Table) :
    (Passes (Inserts t (ascii ")")) (insert_model widen sql_statement sql_columns sql_values t) ↔
      (∃ f ∈ t.meta_info, Refuses f) ∨ pairs false t.meta_info = [] ∨
        Prints (printed widen) sql_columns sql_values (ascii ")") t) ∧
    (Passes (Updates t) (update_model widen sql_statement sql_set sql_where t) ↔
      ((∀ f ∈ t.meta_info.head?, set f = none) ∨ ∃ f ∈ t.meta_info.tail, Refuses f) ∨
        pairs true t.meta_info.tail = [] ∨ Assigns (printed widen) sql_set t) ∧
    (Passes (Inserts t (onDuplicate t))
        (insert_or_update_model sql_statement sql_columns sql_values sql_update t) ↔
      (∃ f ∈ t.meta_info, Refuses f) ∨ pairs false t.meta_info ≠ [] ∧
        Fits sql_update.str.value_max_len 0 (duplicates t) ∧
        Prints BitVec.toInt sql_columns sql_values (onDuplicate t) t) :=
  ⟨insert_model_passes_iff widen sql_statement sql_columns sql_values t,
    update_model_passes_iff widen sql_statement sql_set sql_where t,
    insert_or_update_model_passes_iff sql_statement sql_columns sql_values sql_update t⟩

/-- A string as it is constructed. -/
def blank : Blank :=
  ⟨Str.init, Str.holds_init, by rw [Str.value_max_len, Str.init, List.length_replicate]⟩

def name (text : Text) (h : text ≠ [] ∧
    ∀ c ∈ text, isDigit c ∨ 65 ≤ c ∧ c ≤ 90 ∨ 97 ≤ c ∧ c ≤ 122 ∨ c = 95) : Name :=
  ⟨text, h.1, h.2⟩

set_option maxRecDepth 2000 in
/-- The text has a quote in it. -/
def people : Table :=
  ⟨name (ascii "people") (by decide),
    [⟨name (ascii "name") (by decide),
      some ⟨true, 0, .string ⟨ascii "O'Brien", by decide⟩⟩⟩]⟩

theorem not_statements_pass :
    ¬∀ (widen : BitVec 32 → BitVec 64)
      (sql_statement sql_columns sql_values sql_update sql_set sql_where : Blank) (t : Table),
      Passes (Inserts t (ascii ")")) (insert_model widen sql_statement sql_columns sql_values t) ∧
        Passes (Updates t) (update_model widen sql_statement sql_set sql_where t) ∧
        Passes (Inserts t (onDuplicate t))
          (insert_or_update_model sql_statement sql_columns sql_values sql_update t) := by
  intro h
  have hpassed : insert_model (BitVec.setWidth 64) blank blank blank people =
      .passed (ascii "INSERT INTO people (name) VALUES ('O'Brien')") := by
    decide +kernel
  have hnot : ¬Passes (Inserts people (ascii ")"))
      (.passed (ascii "INSERT INTO people (name) VALUES ('O'Brien')")) := by
    rintro ⟨-, u, hu, hread⟩
    have hrest : u = ascii "'O'Brien')" := by
      have hparts : ascii "INSERT INTO people (name) VALUES ('O'Brien')" =
          insertion people ++ ascii "'O'Brien')" := by
        decide
      rw [hparts] at hu
      exact (List.append_cancel_left hu).symm
    subst hrest
    revert hread
    decide
  have hall := h (BitVec.setWidth 64) blank blank blank blank blank blank people
  rw [hpassed] at hall
  exact hnot hall.1

end Libobject.OrmConn
