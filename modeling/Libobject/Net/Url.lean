import Libobject.Core.StringFind

/-!
# Taking a URL apart

Each part is looked for in what is left behind the part before, by a split at the first delimiter of
its kind, and a split leaves out pieces that are empty. Strings are the texts in them; one for which
twice its length is no C integer cannot be had.
-/

namespace Libobject.Url

/-- A string of the object: none, one with a text, or one that has been given back. -/
inductive Part
  | null
  | str (t : Text)
  | freed
  deriving DecidableEq

end Url

structure Url where
  scheme : Url.Part
  user : Url.Part
  password : Url.Part
  host : Url.Part
  port : Url.Part
  path : Url.Part
  query : Url.Part
  fragment : Url.Part
  deriving DecidableEq

namespace Url

def init : Url := ⟨.null, .null, .null, .null, .null, .null, .null, .null⟩

/-- A split at the first `c`: the text that the string then shows, and the pieces. -/
def split (c : UInt8) (t : Text) : Text × List Text :=
  (t.takeWhile (· ≠ c),
    Str.kept (if c ∈ t then [t.takeWhile (· ≠ c), (t.dropWhile (· ≠ c)).tail] else [t]))

/-- `assign` to a new string. -/
def assign (t : Text) : Option Text := if t.length < 1073741823 then some t else none

/-- `assign` of a slash and `append`, to a new string. -/
def slash (t : Text) : Option Text := if t.length < 1073741821 then some (47 :: t) else none

/-- `replace(scheme, "://", "/", -1)` -/
def shorten (t : Text) : Text × ℕ :=
  Str.substitute (Str.literal (Scan.ascii "://")) (Scan.ascii "/") (Str.turns (-1) t.length) [] t

/-- The string of a piece that is not there is `NULL`. -/
def parse_scheme (url : Url) (raw : Text) : Option (Url × ℤ) := do
  let scheme ← assign raw
  match shorten scheme with
  | (scheme, 1) =>
    match split 47 scheme with
    | (scheme, [_, rest]) => do
      let user ← assign rest
      return ({ url with scheme := .str scheme, user := .str user }, 1)
    | (_, ps) => do
      let rest ← ps[0]?
      let user ← assign rest
      return ({ url with scheme := .freed, user := .str user }, 1)
  | _ => return ({ url with scheme := .freed }, -1)

def parse_user_and_password (url : Url) : Option (Url × ℤ) :=
  match url.user with
  | .null => some (url, 0)
  | .freed => none
  | .str user =>
    match split 64 user with
    | (user, [_, rest]) => do
      let host ← assign rest
      match split 58 user with
      | (user, [_, rest]) => do
        let password ← assign rest
        return ({ url with
          user := .str user, password := .str password, host := .str host }, 1)
      | (user, _) => return ({ url with user := .str user, host := .str host }, 1)
    | (_, ps) => do
      let rest ← ps[0]?
      let host ← assign rest
      return ({ url with user := .null, host := .str host }, 1)

def parse_host (url : Url) : Option (Url × ℤ) :=
  match url.host with
  | .null => some (url, 0)
  | .freed => none
  | .str host =>
    match split 58 host with
    | (host, [_, rest]) => do
      let port ← assign rest
      match split 47 port with
      | (port, [_, rest]) => do
        let path ← slash rest
        return ({ url with host := .str host, port := .str port, path := .str path }, 1)
      | (port, _) => return ({ url with host := .str host, port := .str port }, 1)
    | (host, _) =>
      match split 47 host with
      | (host, [_, rest]) => do
        let path ← slash rest
        return ({ url with host := .str host, path := .str path }, 1)
      | (host, _) => return ({ url with host := .str host }, 1)

def parse_path (url : Url) : Option (Url × ℤ) :=
  match url.path with
  | .null => some (url, 0)
  | .freed => none
  | .str path =>
    match split 63 path with
    | (path, [_, rest]) => do
      let query ← assign rest
      return ({ url with path := .str path, query := .str query }, 1)
    | (path, _) => return ({ url with path := .str path }, 1)

def parse_query (url : Url) : Option (Url × ℤ) :=
  match url.query with
  | .null => some (url, 0)
  | .freed => none
  | .str query =>
    match split 35 query with
    | (query, [_, rest]) => do
      let fragment ← assign rest
      return ({ url with query := .str query, fragment := .str fragment }, 1)
    | (query, _) => return ({ url with query := .str query }, 1)

/-- The next part, unless the one before could not be parsed. -/
def andThen (r : Option (Url × ℤ)) (f : Url → Option (Url × ℤ)) : Option (Url × ℤ) := do
  let (url, ret) ← r
  if ret < 0 then return (url, ret) else f url

/-- The parsing of a new object; what `parse_query` returns is not passed on where it succeeds. -/
def parse (u : Text) : Option (Url × ℤ) :=
  andThen (andThen (andThen (andThen (andThen (parse_scheme init u) parse_user_and_password)
    parse_host) parse_path) parse_query) fun url ↦ some (url, 1)

section Split

variable {d : UInt8} {x y t : Text}

theorem takeWhile_append (h : d ∉ x) (y : Text) :
    (x ++ y).takeWhile (· ≠ d) = x ++ y.takeWhile (· ≠ d) :=
  List.takeWhile_append_of_pos fun _ hc ↦ decide_eq_true fun heq ↦ h (heq ▸ hc)

theorem split_of_notMem (h : d ∉ t) : split d t = (t, Str.kept [t]) := by
  have htake : t.takeWhile (· ≠ d) = t := by
    simpa using takeWhile_append h []
  rw [split, htake, if_neg h]

theorem split_append (h : d ∉ x) (y : Text) : split d (x ++ d :: y) = (x, Str.kept [x, y]) := by
  have htake : (x ++ d :: y).takeWhile (· ≠ d) = x := by
    rw [takeWhile_append h]
    simp
  have hdrop : ((x ++ d :: y).dropWhile (· ≠ d)).tail = y := by
    have hall : ∀ c ∈ x, decide (c ≠ d) = true := fun c hc ↦ decide_eq_true fun heq ↦ h (heq ▸ hc)
    rw [List.dropWhile_append_of_pos hall]
    simp
  rw [split, htake, hdrop, if_pos (by simp)]

theorem exists_cut (h : d ∈ t) : ∃ x y, t = x ++ d :: y ∧ d ∉ x := by
  induction t with
  | nil => cases h
  | cons c t ih =>
    by_cases hc : c = d
    · exact ⟨[], t, by rw [hc]; rfl, List.not_mem_nil⟩
    · obtain ⟨x, y, rfl, hx⟩ := ih ((List.mem_cons.1 h).resolve_left fun heq ↦ hc heq.symm)
      refine ⟨c :: x, y, rfl, ?_⟩
      rw [List.mem_cons, not_or]
      exact ⟨fun heq ↦ hc heq.symm, hx⟩

theorem prefix_of_cut {a : Text} (h : a ++ t = x ++ d :: y) (hd : d ∉ a) :
    ∃ x', x = a ++ x' ∧ t = x' ++ d :: y := by
  rcases List.append_eq_append_iff.1 h with ⟨x', hx, ht⟩ | ⟨b, ha, hb⟩
  · exact ⟨x', hx, ht⟩
  · cases b with
    | nil =>
      rw [List.append_nil] at ha
      rw [List.nil_append] at hb
      exact ⟨[], by rw [ha, List.append_nil], hb.symm⟩
    | cons e b =>
      rw [List.cons_append] at hb
      obtain ⟨rfl, -⟩ := List.cons.inj hb
      exact absurd (by rw [ha]; simp) hd

theorem kept_nil_left (y : Text) : Str.kept [[], y] = Str.kept [y] := by simp [Str.kept]

theorem kept_nil_right (x : Text) : Str.kept [x, []] = Str.kept [x] := by
  simp [Str.kept, List.filter_cons]

theorem kept_pair (hx : x ≠ []) (hy : y ≠ []) : Str.kept [x, y] = [x, y] := by
  simp [Str.kept, hx, hy]

theorem kept_single (hx : x ≠ []) : Str.kept [x] = [x] := by simp [Str.kept, hx]

theorem kept_single_cases (x : Text) : Str.kept [x] = [] ∨ ∃ a, Str.kept [x] = [a] := by
  by_cases hx : x = []
  · exact .inl (by simp [hx, Str.kept])
  · exact .inr ⟨x, kept_single hx⟩

theorem split_cases (d : UInt8) (t : Text) :
    (∃ x y, split d t = (x, [x, y]) ∧ x.length + 1 + y.length = t.length) ∨
      ∃ x, x.length ≤ t.length ∧ (split d t = (x, []) ∨ ∃ a, split d t = (x, [a])) := by
  by_cases h : d ∈ t
  · obtain ⟨x, y, rfl, hx⟩ := exists_cut h
    rw [split_append hx]
    by_cases hxne : x = []
    · subst hxne
      rw [kept_nil_left]
      rcases kept_single_cases y with hkept | ⟨a, hkept⟩
      · exact .inr ⟨[], Nat.zero_le _, .inl (by rw [hkept])⟩
      · exact .inr ⟨[], Nat.zero_le _, .inr ⟨a, by rw [hkept]⟩⟩
    · by_cases hy : y = []
      · subst hy
        rw [kept_nil_right, kept_single hxne]
        exact .inr ⟨x, by simp, .inr ⟨x, rfl⟩⟩
      · refine .inl ⟨x, y, by rw [kept_pair hxne hy], ?_⟩
        simp only [List.length_append, List.length_cons]
        omega
  · rw [split_of_notMem h]
    rcases kept_single_cases t with hkept | ⟨a, hkept⟩
    · exact .inr ⟨t, le_rfl, .inl (by rw [hkept])⟩
    · exact .inr ⟨t, le_rfl, .inr ⟨a, by rw [hkept]⟩⟩

theorem assign_of_lt (h : t.length < 1073741823) : assign t = some t := if_pos h

theorem assign_eq {r : Text} (h : assign t = some r) : r = t := by
  rw [assign] at h
  split at h
  · exact (Option.some.inj h).symm
  · cases h

theorem slash_eq {r : Text} (h : slash t = some r) : r = 47 :: t := by
  rw [slash] at h
  split at h
  · exact (Option.some.inj h).symm
  · cases h

end Split

section Strings

variable {t : Text}

theorem assign_new (hzero : 0 ∉ t) :
    (∀ r, assign t = some r → ∃ s, Str.init.assign t = some s ∧ s.Holds r) ∧
      (assign t = none → Str.init.assign t = none) := by
  have hmax : Str.init.value_max_len = 256 := List.length_replicate
  have hlen₀ : Str.init.value_len = 0 := rfl
  rw [assign]
  by_cases hlen : t.length < 1073741823
  · rw [if_pos hlen]
    refine ⟨?_, fun h ↦ absurd h (Option.some_ne_none _)⟩
    rintro r ⟨⟩
    apply Str.holds_init.assign ⟨t, hzero⟩
    rw [hmax, hlen₀]
    exact .inl ⟨by omega, by dsimp only; omega⟩
  · rw [if_neg hlen]
    refine ⟨fun r h ↦ absurd h.symm (Option.some_ne_none r), fun _ ↦ ?_⟩
    have hroom : Str.roomFor 256 0 t.length = 2 * (0 + t.length + 1) :=
      if_pos ⟨by omega, by omega⟩
    have hnone : Str.init.modulate_capacity t.length = none := by
      rw [Str.modulate_capacity, hmax, hlen₀, hroom]
      dsimp only
      rw [if_neg (by omega), if_neg (by omega)]
    rw [Str.assign, hnone]
    rfl

set_option maxRecDepth 4000 in
theorem slash_new (hzero : 0 ∉ t) :
    ∃ s, Str.init.assign [47] = some s ∧
      (∀ r, slash t = some r → ∃ s', s.append (some t) (-1) = some s' ∧ s'.Holds r) ∧
      (slash t = none → s.append (some t) (-1) = none) := by
  have hmax : (⟨47 :: List.replicate 255 0, 1⟩ : Str).value_max_len = 256 := by
    rw [Str.value_max_len, List.length_cons, List.length_replicate]
  have hs : (⟨47 :: List.replicate 255 0, 1⟩ : Str).Holds [47] :=
    ⟨⟨List.replicate 254 0, by rw [← List.replicate_succ]; rfl⟩, by decide, rfl, by omega⟩
  refine ⟨⟨47 :: List.replicate 255 0, 1⟩, rfl, ?_⟩
  have hfits : Str.Fits 256 1 t.length ↔ t.length < 1073741821 := by
    rw [Str.Fits, Str.roomFor]
    split_ifs with hroom
    · omega
    · omega
  rw [slash]
  by_cases hlen : t.length < 1073741821
  · rw [if_pos hlen]
    refine ⟨?_, fun h ↦ absurd h (Option.some_ne_none _)⟩
    rintro r ⟨⟩
    obtain ⟨s', happend, hs', -⟩ := hs.append_fits hzero (hmax ▸ hfits.2 hlen)
    exact ⟨s', happend, hs'⟩
  · rw [if_neg hlen]
    exact ⟨fun r h ↦ absurd h.symm (Option.some_ne_none r), fun _ ↦
      hs.append_not_fits fun h ↦ hlen (hfits.1 (hmax ▸ h))⟩

theorem value_of_splitEnd {st : Str.Splitting} {r : Str.Split} (h : Str.splitEnd st = .done r) :
    r.value = st.value := by
  rw [Str.splitEnd] at h
  split_ifs at h
  cases h
  rfl

theorem exec_cut {d : UInt8} {x : Text} (h : d ∉ x) (y : Text) :
    (Str.literal [d]).exec (x ++ d :: y) = some (x.length, x.length + 1) := by
  refine Str.literal_of_first (occursAt_iff_split.2 ⟨x, y, rfl, rfl⟩) ?_
  rintro j hj ⟨-, htake⟩
  have hget : (x ++ d :: y)[j]? = some d := by
    have hfirst := congrArg (fun l ↦ l[0]?) htake
    rw [List.length_singleton, List.getElem?_take_of_lt Nat.one_pos, List.getElem?_drop] at hfirst
    exact hfirst
  rw [List.getElem?_append_left hj] at hget
  exact h (List.mem_of_getElem? hget)

theorem exec_eq_none {d : UInt8} (h : d ∉ t) : (Str.literal [d]).exec t = none := by
  rw [Str.literal_eq_none_iff]
  intro i hocc
  obtain ⟨x, y, heq, -⟩ := occursAt_iff_split.1 hocc
  exact h (by rw [heq]; simp)

/-- The text and the pieces of a string that has been split once; its length need not be that of
the text. -/
theorem split_string {regcomp : Text → Option Regex} {s : Str} {pattern rest : Text} {d : UInt8}
    (hcomp : regcomp pattern = some (Str.literal [d])) (hvalue : s.value = t ++ 0 :: rest)
    (hzero : 0 ∉ t) :
    ∃ r, Str.Splits regcomp s pattern 1 r ∧ Scan.cString r.value = (split d t).1 ∧
      r.ret = (split d t).2.length ∧ r.pieces.map (Str.pieceText r.value) = (split d t).2 := by
  have htext : Scan.cString (t ++ 0 :: rest) = t := Scan.cString_append hzero rest
  simp only [Str.Splits, hcomp, hvalue, htext]
  by_cases hnil : t = []
  · subst hnil
    exact ⟨⟨[] ++ 0 :: rest, 0, []⟩, by rw [if_pos rfl], rfl, rfl, rfl⟩
  · simp only [if_neg hnil]
    have hmem : 0 ∈ (t ++ 0 :: rest).drop 0 := by simp
    by_cases hd : d ∈ t
    · obtain ⟨x, y, rfl, hx⟩ := exists_cut hd
      have hxzero : 0 ∉ x := fun h ↦ hzero (List.mem_append_left _ h)
      have hyzero : 0 ∉ y := fun h ↦ hzero (by simp [h])
      obtain ⟨ps, hps, hshows⟩ : ∃ ps : List Str.Piece,
          ps = (if x.length ≠ 0 then [⟨0, x.length⟩] else []) ∧
            Str.Shows (x ++ [0]) ps (Str.kept [x]) := by
        refine ⟨_, rfl, ?_⟩
        by_cases hxne : x = []
        · subst hxne
          exact .nil
        · rw [if_pos fun h ↦ hxne (List.length_eq_zero_iff.1 h), kept_single hxne]
          exact .cons ⟨[], [], rfl, rfl, hxzero⟩ .nil
      obtain ⟨r, hr, -, hret, hshow⟩ :=
        @Str.splitEnd_eq (x ++ [0]) y rest hyzero 1 ps _ hshows
      have hlen : (x ++ [0]).length = x.length + 1 := List.length_append
      rw [hlen] at hr
      have hset : ((x ++ d :: y ++ 0 :: rest).set (0 + (x.length + 1) - 1) 0).set
          (0 + x.length) 0 = x ++ [0] ++ (y ++ 0 :: rest) := by
        rw [Nat.zero_add, Nat.zero_add, Nat.add_sub_cancel, List.set_set, List.append_assoc,
          List.set_append_right _ _ le_rfl, Nat.sub_self]
        simp
      have hturn : Str.splitTurn (Str.literal [d]) 1 ⟨x ++ d :: y ++ 0 :: rest, 0, 0, []⟩ =
          .next ⟨x ++ [0] ++ (y ++ 0 :: rest), x.length + 1, 1, ps⟩ := by
        rw [Str.splitTurn, if_pos (.inl Int.one_pos), if_neg (not_not_intro hmem), List.drop_zero,
          htext,
          exec_cut hx]
        dsimp only
        rw [if_neg (by omega), hset, Nat.zero_add, hps, List.nil_append]
      have hlast : Str.splitTurn (Str.literal [d]) 1
          ⟨x ++ [0] ++ (y ++ 0 :: rest), x.length + 1, 1, ps⟩ = .done r := by
        rw [Str.splitTurn, if_neg (fun h ↦ h.elim (lt_irrefl _) (by omega)), hr]
      have hvalue' := value_of_splitEnd hr
      have hpieces := hshow.map_pieceText.1
      have hkept : Str.kept [x, y] = Str.kept [x] ++ Str.kept [y] := List.filter_append [x] [y]
      rw [split_append hx, hkept]
      refine ⟨r, ⟨2, ?_⟩, ?_, ?_, hpieces⟩
      · rw [Machine.after_succ_of_next hturn, Machine.after, hlast]
      · rw [hvalue', List.append_assoc]
        exact Scan.cString_append hxzero _
      · rw [hret, ← hpieces, List.length_map]
    · obtain ⟨r, hr, -, hret, hshow⟩ := @Str.splitEnd_eq [] t rest hzero 0 [] [] .nil
      rw [List.nil_append, List.length_nil] at hr
      rw [List.nil_append] at hshow
      have hvalue' := value_of_splitEnd hr
      have hpieces := hshow.map_pieceText.1
      rw [split_of_notMem hd]
      refine ⟨r, ⟨1, ?_⟩, ?_, ?_, hpieces⟩
      · rw [Machine.after, Str.splitTurn, if_pos (.inl Int.one_pos), if_neg (not_not_intro hmem),
          List.drop_zero, htext, exec_eq_none hd]
        dsimp only
        rw [hr]
      · rw [hvalue']
        exact htext
      · rw [hret, ← hpieces, List.length_map]

theorem replaceable_of_shorter {p newstr : Text} (hp : newstr.length < p.length) (str_len n : ℕ)
    (max_len : ℕ) (done rest : Text) :
    Str.Replaceable (Str.literal p) newstr str_len false n max_len done rest := by
  induction n generalizing done rest with
  | zero => trivial
  | succ n ih =>
    rw [Str.Replaceable]
    by_cases hnil : done ++ rest = []
    · rw [if_pos hnil]
      trivial
    · rw [if_neg hnil]
      cases hexec : (Str.literal p).exec rest with
      | none => trivial
      | some m =>
        obtain ⟨a, b⟩ := m
        have hlen : b = a + p.length := by
          obtain ⟨i, -, hi⟩ := List.exists_of_findSome?_eq_some hexec
          split_ifs at hi
          cases hi
          rfl
        dsimp only
        rw [if_neg (by omega)]
        exact ⟨.inr (by omega), ih _ _⟩

theorem shorten_string {regcomp : Text → Option Regex} {s : Str} (hs : s.Holds t)
    (hcomp : regcomp (Scan.ascii "://") = some (Str.literal (Scan.ascii "://"))) :
    ∃ s', s.replace regcomp (some (Scan.ascii "://")) (some (Scan.ascii "/")) (-1) =
        some (s', ((shorten t).2 : ℤ)) ∧ Str.Holds s' (shorten t).1 := by
  have hreg : Str.Regular regcomp s (.replace (some (Str.ascii "://" (by decide)))
      (some (Str.ascii "/" (by decide))) (-1)) := by
    rintro p ⟨⟩ new ⟨⟩ rx hrx
    cases Option.some.inj (hcomp.symm.trans hrx)
    exact replaceable_of_shorter (by decide) _ _ _ _ _
  obtain ⟨s', hreplace, hs'⟩ := hs.replace hreg
  have hreplaced : Str.replaced regcomp t (-1) (some (Str.ascii "://" (by decide)))
      (some (Str.ascii "/" (by decide))) = ((shorten t).1, ((shorten t).2 : ℤ)) := by
    simp only [Str.replaced, Str.ascii, hcomp, shorten]
  rw [hreplaced] at hreplace hs'
  exact ⟨s', hreplace, hs'⟩

end Strings

end Url

end Libobject
