import Libobject.Core.Rbmap
import Libobject.Http.Request

/-!
# The forms of a query

The names and values of a query are pieces of one buffer, and the map of the forms holds where they
begin. `__construct` sets the comparison of strings twice on the headers and never on the forms, so
names are compared as addresses; and `__get_form_value` returns a variable that a search which finds
nothing does not set.
-/

namespace Libobject.Http

open Scan

/-! ## Pieces in memory -/

/-- A C string and where it begins. -/
abbrev Place := ℕ × Text

def placed (pos : ℕ) (s : Text) : List Place := if s = [] then [] else [(pos, s)]

/-- The loop of `__split` over a text that begins at `pos`. -/
def splitAt (delim : UInt8 → Bool) : ℕ → ℕ → Text → List Place
  | 0, pos, s => placed pos s
  | n + 1, pos, s =>
    let first := s.takeWhile (fun c ↦ !delim c)
    if first.length < s.length then
      placed pos first ++ splitAt delim n (pos + first.length + 1) (s.drop (first.length + 1))
    else placed pos s

theorem map_placed (pos : ℕ) (s : Text) : (placed pos s).map Prod.snd = piece s := by
  rw [placed, piece]
  split_ifs <;> rfl

theorem map_splitAt (delim : UInt8 → Bool) (n pos : ℕ) (s : Text) :
    (splitAt delim n pos s).map Prod.snd = splitFrom delim n s := by
  induction n generalizing pos s with
  | zero => exact map_placed pos s
  | succ n ih =>
    rw [splitAt, splitFrom]
    split_ifs
    · rw [List.map_append, map_placed, ih]
    · exact map_placed pos s

theorem mem_placed {pos : ℕ} {s : Text} {p : Place} (h : p ∈ placed pos s) :
    p.1 = pos ∧ p.1 < pos + s.length := by
  rw [placed] at h
  split_ifs at h with hs
  · cases h
  · obtain rfl := List.mem_singleton.mp h
    exact ⟨rfl, Nat.lt_add_of_pos_right (List.length_pos_iff.mpr hs)⟩

theorem mem_splitAt {delim : UInt8 → Bool} {n pos : ℕ} {s : Text} {p : Place}
    (h : p ∈ splitAt delim n pos s) : pos ≤ p.1 ∧ p.1 < pos + s.length := by
  induction n generalizing pos s with
  | zero =>
    obtain ⟨hpos, hlt⟩ := mem_placed h
    exact ⟨Nat.le_of_eq hpos.symm, hlt⟩
  | succ n ih =>
    rw [splitAt] at h
    split_ifs at h with hlen
    · rcases List.mem_append.mp h with h | h
      · obtain ⟨hpos, hlt⟩ := mem_placed h
        omega
      · have hrest := ih h
        rw [List.length_drop] at hrest
        omega
    · obtain ⟨hpos, hlt⟩ := mem_placed h
      omega

theorem nodup_splitAt (delim : UInt8 → Bool) (n pos : ℕ) (s : Text) :
    ((splitAt delim n pos s).map Prod.fst).Nodup := by
  have hone (pos : ℕ) (s : Text) : ((placed pos s).map Prod.fst).Nodup := by
    rw [placed]
    split_ifs <;> simp
  induction n generalizing pos s with
  | zero => exact hone pos s
  | succ n ih =>
    rw [splitAt]
    split_ifs
    · rw [List.map_append, List.nodup_append]
      refine ⟨hone pos _, ih _ _, ?_⟩
      intro a ha b hb
      obtain ⟨p, hp, rfl⟩ := List.mem_map.mp ha
      obtain ⟨q, hq, rfl⟩ := List.mem_map.mp hb
      have hpos := (mem_placed hp).1
      have hbehind := (mem_splitAt hq).1
      omega
    · exact hone pos s

/-! ## The map of the forms -/

abbrev FormMap := RbTreeMap Rbmap.default_key_cmp_func ℕ

def addForms (rb : Rebalance (ℕ × ℕ)) : List Place → FormMap → FormMap
  | key :: value :: rest, forms => addForms rb rest (forms.add rb key.1 value.1)
  | _, forms => forms

/-- What `__read_form` leaves: its return value, the uri, the forms, and the pieces in memory. -/
structure Forms where
  ret : ℤ
  uri : Text
  map : FormMap
  pieces : List Place

/-- `__read_form`; the query is copied to the buffer at `buf`. -/
def readForms (rb : Rebalance (ℕ × ℕ)) (buf : ℕ) (uri : Text) : Forms :=
  match split (fun c ↦ c = 63) 1 uri with
  | [path, query] =>
    let pieces := splitAt (fun c ↦ c = 61 || c = 38) (query.length + 1) buf query
    if pieces.length = 1 then ⟨0, path, RbTreeMap.empty, pieces⟩
    else if pieces.length % 2 = 1 then ⟨-1, path, RbTreeMap.empty, pieces⟩
    else ⟨1, path, addForms rb pieces RbTreeMap.empty, pieces⟩
  | _ => ⟨0, uri, RbTreeMap.empty, []⟩

/-- `__get_form_value` of a name at an address; `none` is a value that nothing has set. -/
def get_form_value (forms : FormMap) (form_name : ℕ) : Option ℕ := forms.search form_name

theorem readForms_eq (rb : Rebalance (ℕ × ℕ)) (buf : ℕ) (uri : Text) :
    (readForms rb buf uri).ret = (read_form uri).ret ∧
      (readForms rb buf uri).uri = (read_form uri).uri ∧
      (0 < (read_form uri).ret →
        (read_form uri).forms = pairs ((readForms rb buf uri).pieces.map Prod.snd)) := by
  rw [readForms, read_form]
  rcases split (fun c ↦ c = 63) 1 uri with _ | ⟨path, _ | ⟨query, _ | ⟨_, _⟩⟩⟩
  · exact ⟨rfl, rfl, by simp⟩
  · exact ⟨rfl, rfl, by simp⟩
  · have hmap := map_splitAt (fun c ↦ c = 61 || c = 38) (query.length + 1) buf query
    have hsplit : split (fun c ↦ c = 61 || c = 38) (-1) query =
        splitFrom (fun c ↦ c = 61 || c = 38) (query.length + 1) query := rfl
    dsimp only
    rw [hsplit, ← hmap, List.length_map]
    split_ifs <;> simp
  · exact ⟨rfl, rfl, by simp⟩

theorem mem_addForms {rb : Rebalance (ℕ × ℕ)} {pieces : List Place} {forms : FormMap} {e : ℕ × ℕ}
    (h : e ∈ (addForms rb pieces forms).entries) :
    e ∈ forms.entries ∨ ∃ p ∈ pieces, p.1 = e.1 := by
  induction pieces, forms using addForms.induct rb with
  | case1 key value rest forms ih =>
    rw [addForms] at h
    rcases ih h with hmem | ⟨p, hp, heq⟩
    · have hadd := RbTreeMap.entries_add rb forms key.1 value.1
      rcases List.mem_cons.mp (hadd.subset hmem) with rfl | hmem
      · exact .inr ⟨key, List.mem_cons_self, rfl⟩
      · exact .inl hmem
    · exact .inr ⟨p, List.mem_cons_of_mem _ (List.mem_cons_of_mem _ hp), heq⟩
  | case2 pieces forms hshort =>
    rw [addForms] at h
    · exact .inl h
    · exact hshort

theorem get_form_value_none {rb : Rebalance (ℕ × ℕ)} {pieces : List Place} {name : ℕ}
    (h : ∀ p ∈ pieces, p.1 ≠ name) :
    get_form_value (addForms rb pieces RbTreeMap.empty) name = none := by
  cases hsearch : get_form_value (addForms rb pieces RbTreeMap.empty) name with
  | none => rfl
  | some v =>
    obtain ⟨name', hcmp, hmem⟩ := RbTreeMap.search_some hsearch
    have hname : name = name' := by
      rw [Rbmap.default_key_cmp_func_eq] at hcmp
      exact Nat.compare_eq_eq.mp hcmp
    rcases mem_addForms hmem with hempty | ⟨p, hp, heq⟩
    · cases hempty
    · exact absurd (heq.trans hname.symm) (h p hp)

/-! ## Uris with a query -/

/-- A name or a value: a C string without the signs that cut the uri. -/
def Plain (s : Text) : Prop := ∀ c ∈ s, c ≠ 0 ∧ c ≠ 63 ∧ c ≠ 61 ∧ c ≠ 38

/-- A path and the fields of its query; without fields there is no query. -/
structure FormUri where
  path : Text
  fields : List (Text × Text)
  path_free : ∀ c ∈ path, c ≠ 0 ∧ c ≠ 63
  fields_plain : ∀ f ∈ fields, Plain f.1 ∧ Plain f.2

def queryText : List (Text × Text) → Text
  | [] => []
  | [f] => f.1 ++ 61 :: f.2
  | f :: g :: fs => f.1 ++ 61 :: (f.2 ++ 38 :: queryText (g :: fs))

namespace FormUri

def text (u : FormUri) : Text :=
  if u.fields = [] then u.path else u.path ++ 63 :: queryText u.fields

end FormUri

theorem splitFrom_last {delim : UInt8 → Bool} {s : Text} (hne : s ≠ [])
    (hs : ∀ c ∈ s, delim c = false) (n : ℕ) : splitFrom delim n s = [s] := by
  cases n with
  | zero => exact splitFrom_zero hne
  | succ n =>
    have hfirst : s.takeWhile (fun c ↦ !delim c) = s :=
      List.takeWhile_eq_self_iff.mpr (by simpa using hs)
    rw [splitFrom, hfirst]
    simp [piece, hne]

theorem two_mul_le_length_queryText (fs : List (Text × Text)) :
    2 * fs.length ≤ (queryText fs).length + 1 := by
  induction fs using queryText.induct with
  | case1 => simp
  | case2 f =>
    simp only [queryText, List.length_append, List.length_cons, List.length_nil]
    omega
  | case3 f g fs ih =>
    rw [queryText]
    simp only [List.length_append, List.length_cons] at ih ⊢
    omega

theorem splitFrom_queryText {fs : List (Text × Text)}
    (hplain : ∀ f ∈ fs, Plain f.1 ∧ Plain f.2) (hne : ∀ f ∈ fs, f.1 ≠ [] ∧ f.2 ≠ []) {n : ℕ}
    (hn : 2 * fs.length ≤ n + 1) :
    splitFrom (fun c ↦ c = 61 || c = 38) n (queryText fs) = fs.flatMap fun f ↦ [f.1, f.2] := by
  have hword {s : Text} (h : Plain s) : ∀ c ∈ s, (decide (c = 61) || decide (c = 38)) = false := by
    intro c hc
    obtain ⟨-, -, h61, h38⟩ := h c hc
    simp [h61, h38]
  induction fs using queryText.induct generalizing n with
  | case1 => cases n <;> simp [queryText, splitFrom, piece]
  | case2 f =>
    obtain ⟨hname, hvalue⟩ := hplain f List.mem_cons_self
    obtain ⟨hname', hvalue'⟩ := hne f List.mem_cons_self
    rw [List.length_singleton] at hn
    obtain ⟨m, rfl⟩ : ∃ m, n = m + 1 := ⟨n - 1, by omega⟩
    rw [queryText, splitFrom_piece hname' (hword hname) (by decide),
      splitFrom_last hvalue' (hword hvalue)]
    rfl
  | case3 f g fs ih =>
    obtain ⟨hname, hvalue⟩ := hplain f List.mem_cons_self
    obtain ⟨hname', hvalue'⟩ := hne f List.mem_cons_self
    rw [List.length_cons, List.length_cons] at hn
    obtain ⟨m, rfl⟩ : ∃ m, n = m + 2 := ⟨n - 2, by omega⟩
    have hrest := ih (fun f' hf' ↦ hplain f' (List.mem_cons_of_mem f hf'))
      (fun f' hf' ↦ hne f' (List.mem_cons_of_mem f hf')) (n := m)
      (by rw [List.length_cons]; omega)
    rw [queryText, splitFrom_piece hname' (hword hname) (by decide),
      splitFrom_piece hvalue' (hword hvalue) (by decide), hrest]
    rfl

theorem pairs_flatMap (fs : List (Text × Text)) : pairs (fs.flatMap fun f ↦ [f.1, f.2]) = fs := by
  induction fs with
  | nil => rfl
  | cons f fs ih => simpa [pairs] using ih

theorem read_form_fields (u : FormUri) (hpath : u.path ≠ []) (hfields : u.fields ≠ [])
    (hne : ∀ f ∈ u.fields, f.1 ≠ [] ∧ f.2 ≠ []) : read_form u.text = ⟨1, u.path, u.fields⟩ := by
  have hcount := two_mul_le_length_queryText u.fields
  have hlen : 0 < u.fields.length := List.length_pos_iff.mpr hfields
  have hquery : queryText u.fields ≠ [] := by
    intro h
    rw [h, List.length_nil] at hcount
    omega
  have huri : split (fun c ↦ c = 63) 1 u.text = [u.path, queryText u.fields] := by
    have hfree : ∀ c ∈ u.path, decide (c = 63) = false := fun c hc ↦
      decide_eq_false (u.path_free c hc).2
    rw [FormUri.text, if_neg hfields, split, if_pos (by decide)]
    exact (splitFrom_piece hpath hfree (by decide) 0 _).trans
      (congrArg _ (splitFrom_zero hquery))
  have hpieces : split (fun c ↦ c = 61 || c = 38) (-1) (queryText u.fields) =
      u.fields.flatMap fun f ↦ [f.1, f.2] := by
    rw [split, if_neg (by decide)]
    exact splitFrom_queryText u.fields_plain hne (by omega)
  have hlength : (u.fields.flatMap fun f ↦ [f.1, f.2]).length = u.fields.length * 2 := by
    simp [List.length_flatMap]
  rw [read_form, huri]
  dsimp only
  rw [hpieces, hlength, if_neg (by omega), if_neg (by omega), pairs_flatMap]

/-! ## Answers about the forms -/

/-- A caller's name is a C string of the memory `mem`, in which the pieces lie, and it is not in the
buffer of the query. -/
structure Asks (buf : ℕ) (u : FormUri) (pieces : List Place) (mem : ℕ → Text) (name : ℕ) :
    Prop where
  pieces_eq : ∀ p ∈ pieces, mem p.1 = p.2
  outside : name < buf ∨ buf + u.text.length < name

/-- A request is read as it should: the query is cut off, and a name is answered with one of its
values, or with `NULL` where the query does not have it. -/
def Answers (rb : Rebalance (ℕ × ℕ)) (buf : ℕ) (u : FormUri) : Prop :=
  let r := readForms rb buf u.text
  if u.fields = [] then r.map.entries = []
  else
    r.uri = u.path ∧ ∀ mem name, Asks buf u r.pieces mem name →
      ((∃ v, (mem name, v) ∈ u.fields) →
        ∃ a, get_form_value r.map name = some a ∧ (mem name, mem a) ∈ u.fields) ∧
      ((∀ v, (mem name, v) ∉ u.fields) → get_form_value r.map name = some 0)

theorem exists_memory {pieces : List Place} (h : (pieces.map Prod.fst).Nodup) :
    ∃ mem : ℕ → Text, ∀ p ∈ pieces, mem p.1 = p.2 := by
  induction pieces with
  | nil => exact ⟨fun _ ↦ [], by simp⟩
  | cons p pieces ih =>
    rw [List.map_cons, List.nodup_cons] at h
    obtain ⟨mem, hmem⟩ := ih h.2
    refine ⟨Function.update mem p.1 p.2, ?_⟩
    intro q hq
    rcases List.mem_cons.mp hq with rfl | hq
    · exact Function.update_self _ _ _
    · have hne : q.1 ≠ p.1 := fun heq ↦ h.1 (heq ▸ List.mem_map_of_mem hq)
      rw [Function.update_of_ne hne, hmem q hq]

theorem length_le_of_mem_splitFrom {delim : UInt8 → Bool} {n : ℕ} {s t : Text}
    (h : t ∈ splitFrom delim n s) : t.length ≤ s.length := by
  have hone {s t : Text} (h : t ∈ piece s) : t = s := by
    rw [piece] at h
    split_ifs at h
    · cases h
    · exact List.mem_singleton.mp h
  induction n generalizing s with
  | zero => exact Nat.le_of_eq (congrArg List.length (hone h))
  | succ n ih =>
    rw [splitFrom] at h
    split_ifs at h with hlen
    · rcases List.mem_append.mp h with h | h
      · rw [hone h]
        exact Nat.le_of_lt hlen
      · have hrest := ih h
        rw [List.length_drop] at hrest
        omega
    · exact Nat.le_of_eq (congrArg List.length (hone h))

theorem readForms_spec (rb : Rebalance (ℕ × ℕ)) (buf : ℕ) (uri : Text) :
    ((readForms rb buf uri).pieces.map Prod.fst).Nodup ∧
      (∀ p ∈ (readForms rb buf uri).pieces, buf ≤ p.1 ∧ p.1 < buf + uri.length) ∧
      ∀ name, (∀ p ∈ (readForms rb buf uri).pieces, p.1 ≠ name) →
        get_form_value (readForms rb buf uri).map name = none := by
  have hempty (name : ℕ) : get_form_value RbTreeMap.empty name = none := rfl
  rw [readForms]
  split
  · next path query hsplit =>
      have hlen : query.length ≤ uri.length :=
        length_le_of_mem_splitFrom (hsplit ▸ List.mem_cons_of_mem path List.mem_cons_self)
      have hnodup := nodup_splitAt (fun c ↦ c = 61 || c = 38) (query.length + 1) buf query
      have hin : ∀ p ∈ splitAt (fun c ↦ c = 61 || c = 38) (query.length + 1) buf query,
          buf ≤ p.1 ∧ p.1 < buf + uri.length := by
        intro p hp
        obtain ⟨hle, hlt⟩ := mem_splitAt hp
        exact ⟨hle, by omega⟩
      dsimp only
      split_ifs
      · exact ⟨hnodup, hin, fun name _ ↦ hempty name⟩
      · exact ⟨hnodup, hin, fun name _ ↦ hempty name⟩
      · exact ⟨hnodup, hin, fun name h ↦ get_form_value_none h⟩
  · exact ⟨List.nodup_nil, by simp, fun name _ ↦ hempty name⟩

theorem split_of_free {d : UInt8} {s : Text} (h : ∀ c ∈ s, c ≠ d) :
    split (fun c ↦ c = d) 1 s = piece s := by
  have hfirst : s.takeWhile (fun c ↦ !decide (c = d)) = s :=
    List.takeWhile_eq_self_iff.mpr (by simpa using h)
  rw [split, if_pos (by decide)]
  show splitFrom _ 1 s = _
  rw [splitFrom, hfirst, if_neg (Nat.lt_irrefl _)]

/-- A request is read as it should exactly if its uri has no query. -/
theorem answers_iff (rb : Rebalance (ℕ × ℕ)) (buf : ℕ) (u : FormUri) :
    Answers rb buf u ↔ u.fields = [] := by
  obtain ⟨hnodup, hin, hnone⟩ := readForms_spec rb buf u.text
  rw [Answers]
  constructor
  · intro h
    by_contra hfields
    rw [if_neg hfields] at h
    obtain ⟨f, hf⟩ := List.exists_mem_of_ne_nil u.fields hfields
    -- A name of the query that a caller has in memory of its own is not found.
    obtain ⟨mem, hmem⟩ := exists_memory hnodup
    let name := buf + u.text.length + 1
    have haway : ∀ p ∈ (readForms rb buf u.text).pieces, p.1 ≠ name := by
      intro p hp
      have hlt := (hin p hp).2
      show p.1 ≠ buf + u.text.length + 1
      omega
    have hasks : Asks buf u (readForms rb buf u.text).pieces
        (Function.update mem name f.1) name := by
      refine ⟨fun p hp ↦ ?_, .inr (Nat.lt_succ_self _)⟩
      rw [Function.update_of_ne (haway p hp), hmem p hp]
    have hgiven : (Function.update mem name f.1 name, f.2) ∈ u.fields := by
      rw [Function.update_self]
      exact hf
    obtain ⟨a, hfound, -⟩ := (h.2 _ name hasks).1 ⟨f.2, hgiven⟩
    rw [hnone name haway] at hfound
    cases hfound
  · intro hfields
    have huri : split (fun c ↦ c = 63) 1 u.text = piece u.path := by
      rw [FormUri.text, if_pos hfields]
      exact split_of_free fun c hc ↦ (u.path_free c hc).2
    rw [if_pos hfields, readForms, huri, piece]
    split_ifs <;> rfl

/-- `/f?a=1` -/
def oneField : FormUri where
  path := [47, 102]
  fields := [([97], [49])]
  path_free := by simp
  fields_plain := by simp [Plain]

theorem read_form_oneField : read_form oneField.text = ⟨1, [47, 102], [([97], [49])]⟩ :=
  read_form_fields oneField (by simp [oneField]) (by simp [oneField]) (by simp [oneField])

/-- The field of a query is not found under its name. -/
theorem not_answers : ¬Answers (.small _) 100 oneField := by
  intro h
  have hpieces : (readForms (.small _) 100 oneField.text).pieces = [(100, [97]), (102, [49])] := by
    decide
  let mem (a : ℕ) : Text := if a = 102 then [49] else [97]
  have hasks : Asks 100 oneField (readForms (.small _) 100 oneField.text).pieces mem 300 :=
    ⟨by simp [hpieces, mem], by decide⟩
  obtain ⟨a, hfound, -⟩ := (h.2 mem 300 hasks).1 ⟨[49], by simp [mem, oneField]⟩
  have hnone : get_form_value (readForms (.small _) 100 oneField.text).map 300 = none := by decide
  rw [hnone] at hfound
  cases hfound

end Libobject.Http
