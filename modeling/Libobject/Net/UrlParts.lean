import Libobject.Net.Url

/-!
# The parts of a URL, put together and parsed

The text of the parts gives them back only where each split finds the delimiter that ends its own
part: it does not know which parts are missing, and looks in what is behind.
-/

namespace Libobject.Url

/-- No byte of the text is one of these. -/
def Free (bad : Text) (t : Text) : Prop := ∀ c ∈ t, c ∉ bad

instance decidableFree (bad t : Text) : Decidable (Free bad t) := List.decidableBAll _ t

/-- The parts of `scheme://[user[:password]@]host[:port][/path][?query][#fragment]`. No part holds a
delimiter that would end it. -/
structure Components where
  scheme : Text
  user : Option Text
  password : Option Text
  host : Text
  port : Option Text
  path : Option Text
  query : Option Text
  fragment : Option Text
  scheme_ne : scheme ≠ []
  scheme_free : Free (0 :: Scan.ascii ":/?#@") scheme
  user_free : ∀ t ∈ user, Free (0 :: Scan.ascii ":/?#@") t
  password_free : ∀ t ∈ password, Free (0 :: Scan.ascii "/?#@") t
  user_of_password : user = none → password = none
  host_ne : host ≠ []
  host_free : Free (0 :: Scan.ascii ":/?#@") host
  port_digits : ∀ t ∈ port, ∀ c ∈ t, Scan.isDigit c = true
  path_free : ∀ t ∈ path, Free (0 :: Scan.ascii "?#") t
  query_free : ∀ t ∈ query, Free (0 :: Scan.ascii "#") t
  fragment_free : ∀ t ∈ fragment, Free (0 :: Scan.ascii "#") t

namespace Components

/-- A part with its delimiter in front, or nothing. -/
def behind (delimiter : UInt8) : Option Text → Text
  | none => []
  | some t => delimiter :: t

def tail (c : Components) : Text :=
  behind 47 c.path ++ behind 63 c.query ++ behind 35 c.fragment

def hostText (c : Components) : Text := c.host ++ behind 58 c.port ++ c.tail

def userText (c : Components) : Text :=
  match c.user with
  | none => []
  | some user => user ++ behind 58 c.password ++ [64]

def rest (c : Components) : Text := c.userText ++ c.hostText

def compose (c : Components) : Text := c.scheme ++ Scan.ascii "://" ++ c.rest

def part : Option Text → Part
  | none => .null
  | some t => .str t

/-- What the object should hold; a path begins with its slash. -/
def url (c : Components) : Url where
  scheme := .str c.scheme
  user := part c.user
  password := part c.password
  host := .str c.host
  port := part c.port
  path := part (c.path.map fun t ↦ 47 :: t)
  query := part c.query
  fragment := part c.fragment

/-- The components from which nothing gets lost: the parts that are there are not empty, but for the
path in front of a query, there is a path in front of a query and a query in front of a fragment,
and no delimiter stands in a later part that is looked for where its own part is missing. -/
structure Plain (c : Components) : Prop where
  length_lt : c.compose.length < 1073741823
  scheme_only : ¬Scan.ascii "://" <:+: c.rest
  user_ne : c.user ≠ some []
  password_ne : c.password ≠ some []
  no_user : c.user = none → 64 ∉ c.hostText
  port_ne : c.port ≠ some []
  no_port : c.port = none → 58 ∉ c.tail
  path_ne : c.path = some [] → c.query ≠ none
  no_path : c.path = none → c.query = none
  query_ne : c.query ≠ some []
  no_query : c.query = none → c.fragment = none
  fragment_ne : c.fragment ≠ some []

end Components

section Scheme

variable (c : Components)

theorem notMem_of_free {bad t : Text} (h : Free bad t) {d : UInt8} (hd : d ∈ bad) : d ∉ t :=
  fun ht ↦ h d ht hd

theorem exec_compose :
    (Str.literal (Scan.ascii "://")).exec c.compose =
      some (c.scheme.length, c.scheme.length + 3) := by
  have hcolon : 58 ∉ c.scheme := notMem_of_free c.scheme_free (by decide)
  refine Str.literal_of_first ?_ ?_
  · exact occursAt_iff_split.2 ⟨c.scheme, c.rest, List.append_assoc _ _ _, rfl⟩
  · rintro j hj ⟨-, htake⟩
    have hget : c.compose[j]? = some 58 := by
      have hfirst := congrArg (fun l ↦ l[0]?) htake
      have htext : (Scan.ascii "://")[0]? = some 58 := by decide
      rw [List.getElem?_take_of_lt (by decide), List.getElem?_drop, htext] at hfirst
      exact hfirst
    rw [Components.compose, List.append_assoc, List.getElem?_append_left hj] at hget
    exact hcolon (List.mem_of_getElem? hget)

theorem exec_none_iff {p t : Text} : (Str.literal p).exec t = none ↔ ¬p <:+: t := by
  rw [Str.literal_eq_none_iff]
  constructor
  · rintro h ⟨x, y, heq⟩
    exact h x.length (occursAt_iff_split.2 ⟨x, y, by rw [← heq, List.append_assoc], rfl⟩)
  · intro h i hocc
    obtain ⟨x, y, heq, -⟩ := occursAt_iff_split.1 hocc
    exact h ⟨x, y, by rw [heq, List.append_assoc]⟩

theorem shorten_compose :
    (¬Scan.ascii "://" <:+: c.rest → shorten c.compose = (c.scheme ++ 47 :: c.rest, 1)) ∧
      (Scan.ascii "://" <:+: c.rest → (shorten c.compose).2 ≠ 1) := by
  have hslash : Scan.ascii "/" = [47] := by decide
  obtain ⟨n, hn⟩ : ∃ n, Str.turns (-1) c.compose.length = n + 2 := by
    have hscheme : 0 < c.scheme.length := List.length_pos_of_ne_nil c.scheme_ne
    have hlen : c.scheme.length ≤ c.compose.length := by
      rw [Components.compose, List.append_assoc, List.length_append]
      exact Nat.le_add_right _ _
    have hturns : Str.turns (-1) c.compose.length = c.compose.length + 1 := rfl
    rw [hturns]
    exact ⟨c.compose.length - 1, by omega⟩
  have hne : ([] : Text) ++ c.compose ≠ [] := by
    rw [List.nil_append, Components.compose, List.append_assoc]
    exact List.append_ne_nil_of_left_ne_nil c.scheme_ne _
  have htake : c.compose.take c.scheme.length = c.scheme := by
    rw [Components.compose, List.append_assoc, List.take_left]
  have hdrop : c.compose.drop (c.scheme.length + 3) = c.rest := by
    have hlen : (c.scheme ++ Scan.ascii "://").length = c.scheme.length + 3 := by
      rw [List.length_append]
      rfl
    rw [← hlen, Components.compose, List.drop_left]
  have hne' : c.scheme ++ [47] ++ c.rest ≠ [] := by simp
  rw [shorten, hn, Str.substitute, if_neg hne, exec_compose, hslash]
  dsimp only
  rw [htake, hdrop, List.nil_append, Str.substitute, if_neg hne']
  constructor
  · intro h
    rw [exec_none_iff.2 h]
    simp
  · intro h
    cases hexec : (Str.literal (Scan.ascii "://")).exec c.rest with
    | none => exact absurd h (exec_none_iff.1 hexec)
    | some m => simp

theorem rest_ne : c.rest ≠ [] := by
  rw [Components.rest, Components.hostText]
  simp [c.host_ne]

theorem length_rest_lt : c.rest.length < c.compose.length := by
  rw [Components.compose, List.length_append, List.length_append]
  have hscheme := List.length_pos_of_ne_nil c.scheme_ne
  omega

theorem parse_scheme_compose (hlen : c.compose.length < 1073741823)
    (honly : ¬Scan.ascii "://" <:+: c.rest) :
    parse_scheme init c.compose =
      some ({ init with scheme := .str c.scheme, user := .str c.rest }, 1) := by
  have hslash : 47 ∉ c.scheme := notMem_of_free c.scheme_free (by decide)
  have hrest : assign c.rest = some c.rest := assign_of_lt ((length_rest_lt c).trans hlen)
  rw [parse_scheme, assign_of_lt hlen]
  simp only [Option.bind_eq_bind, Option.bind_some, (shorten_compose c).1 honly,
    split_append hslash, kept_pair c.scheme_ne (rest_ne c), hrest]
  rfl

theorem of_parse_scheme {u : Url} {ret : ℤ} (h : parse_scheme init c.compose = some (u, ret))
    (hret : 0 ≤ ret) :
    (c.compose.length < 1073741823 ∧ ¬Scan.ascii "://" <:+: c.rest) ∧
      u = { init with scheme := .str c.scheme, user := .str c.rest } := by
  have hlen : c.compose.length < 1073741823 := by
    by_contra hnot
    have hnone : assign c.compose = none := if_neg hnot
    rw [parse_scheme, hnone] at h
    cases h
  have honly : ¬Scan.ascii "://" <:+: c.rest := by
    intro hinfix
    have hcount := (shorten_compose c).2 hinfix
    rw [parse_scheme, assign_of_lt hlen] at h
    simp only [Option.bind_eq_bind, Option.bind_some] at h
    split at h
    · rename_i heq
      rw [heq] at hcount
      exact hcount rfl
    · cases h
      exact absurd hret (by decide)
  refine ⟨⟨hlen, honly⟩, ?_⟩
  rw [parse_scheme_compose c hlen honly] at h
  cases h
  rfl

end Scheme

section User

variable (c : Components)

theorem hostText_ne : c.hostText ≠ [] := by
  rw [Components.hostText]
  simp [c.host_ne]

/-- The object when its host is looked at. -/
def atHost (c : Components) (s : Part) : Url where
  scheme := s
  user := Components.part c.user
  password := Components.part c.password
  host := .str c.hostText
  port := .null
  path := .null
  query := .null
  fragment := .null

theorem rest_of_none (h : c.user = none) : c.rest = c.hostText := by
  rw [Components.rest, Components.userText, h, List.nil_append]

theorem rest_of_some {user : Text} (h : c.user = some user) :
    c.rest = user ++ Components.behind 58 c.password ++ 64 :: c.hostText ∧
      64 ∉ user ++ Components.behind 58 c.password ∧ 58 ∉ user := by
  have hfree := c.user_free user h
  refine ⟨?_, ?_, notMem_of_free hfree (by decide)⟩
  · rw [Components.rest, Components.userText, h]
    simp only [List.append_assoc, List.singleton_append]
  · rw [List.mem_append, not_or]
    refine ⟨notMem_of_free hfree (by decide), ?_⟩
    cases hpassword : c.password with
    | none => exact List.not_mem_nil
    | some q =>
      rw [Components.behind, List.mem_cons, not_or]
      exact ⟨by decide, notMem_of_free (c.password_free q hpassword) (by decide)⟩

theorem split_user {user : Text} (h : 58 ∉ user) (password : Option Text) :
    split 58 (user ++ Components.behind 58 password) =
      (user, Str.kept (user :: password.toList)) := by
  cases password with
  | none => rw [Components.behind, List.append_nil, split_of_notMem h]; rfl
  | some q => exact split_append h q

theorem parse_user_rest {s : Part} (hlen : c.rest.length < 1073741823) (huser : c.user ≠ some [])
    (hpassword : c.password ≠ some []) (hno : c.user = none → 64 ∉ c.hostText) :
    parse_user_and_password { init with scheme := s, user := .str c.rest } =
      some (atHost c s, 1) := by
  rw [parse_user_and_password]
  dsimp only
  cases huserEq : c.user with
  | none =>
    have hpasswordEq := c.user_of_password huserEq
    rw [rest_of_none c huserEq] at hlen ⊢
    rw [split_of_notMem (hno huserEq), kept_single (hostText_ne c)]
    simp only [List.getElem?_cons_zero, Option.bind_eq_bind, Option.bind_some, assign_of_lt hlen]
    rw [atHost, huserEq, hpasswordEq]
    rfl
  | some user =>
    obtain ⟨hrest, hat, hcolon⟩ := rest_of_some c huserEq
    have hne : user ≠ [] := fun h ↦ huser (h ▸ huserEq)
    have hleft : user ++ Components.behind 58 c.password ≠ [] :=
      List.append_ne_nil_of_left_ne_nil hne _
    have hhost : assign c.hostText = some c.hostText := by
      apply assign_of_lt
      rw [hrest, List.length_append, List.length_cons] at hlen
      omega
    rw [hrest, split_append hat, kept_pair hleft (hostText_ne c)]
    simp only [Option.bind_eq_bind, Option.bind_some, hhost, split_user hcolon]
    cases hpasswordEq : c.password with
    | none =>
      simp only [Option.toList_none, kept_single hne, atHost, huserEq, hpasswordEq]
      rfl
    | some q =>
      have hq : q ≠ [] := fun h ↦ hpassword (h ▸ hpasswordEq)
      have hassign : assign q = some q := by
        apply assign_of_lt
        rw [hrest, hpasswordEq, Components.behind] at hlen
        simp only [List.length_append, List.length_cons] at hlen
        omega
      simp only [Option.toList_some, kept_pair hne hq, hassign, Option.bind_some, atHost,
        huserEq, hpasswordEq]
      rfl

theorem part_cases {d : UInt8} {x : Text} {k : Text → Option Text} {f : Text → Text → Url}
    {g : Text → Url} {v : Url} {ret : ℤ}
    (h : (match split d x with
      | (a, [_, rest]) => do
        let t ← k rest
        return (f a t, 1)
      | (a, _) => return (g a, 1) : Option (Url × ℤ)) = some (v, ret)) :
    (∃ a b t, split d x = (a, [a, b]) ∧ a.length + 1 + b.length = x.length ∧ k b = some t ∧
        v = f a t) ∨
      ∃ a, (split d x).1 = a ∧ a.length ≤ x.length ∧ v = g a := by
  rcases split_cases d x with ⟨a, b, hsplit, hlen⟩ | ⟨a, hlen, hsplit | ⟨b, hsplit⟩⟩
  · rw [hsplit] at h
    obtain ⟨t, ht, h⟩ := Option.bind_eq_some_iff.1 h
    cases h
    exact .inl ⟨a, b, t, hsplit, hlen, ht, rfl⟩
  · rw [hsplit] at h
    cases h
    exact .inr ⟨a, by rw [hsplit], hlen, rfl⟩
  · rw [hsplit] at h
    cases h
    exact .inr ⟨a, by rw [hsplit], hlen, rfl⟩

theorem of_parse_user {s : Part} {u : Url} {ret : ℤ}
    (h : parse_user_and_password { init with scheme := s, user := .str c.rest } = some (u, ret))
    (huser : u.user = Components.part c.user) (hpassword : u.password = Components.part c.password)
    (hhost : ∀ t, u.host = .str t → c.hostText.length ≤ t.length) :
    c.user ≠ some [] ∧ c.password ≠ some [] ∧ (c.user = none → 64 ∉ c.hostText) := by
  rw [parse_user_and_password] at h
  dsimp only at h
  cases huserEq : c.user with
  | none =>
    have hpasswordEq := c.user_of_password huserEq
    refine ⟨nofun, by rw [hpasswordEq]; exact nofun, fun _ hat ↦ ?_⟩
    obtain ⟨x, y, hcut, hx⟩ := exists_cut hat
    have hxne : x ≠ [] := by
      have hnot : 64 ∉ c.host := notMem_of_free c.host_free (by decide)
      rw [Components.hostText, List.append_assoc] at hcut
      obtain ⟨x', rfl, -⟩ := prefix_of_cut hcut hnot
      exact List.append_ne_nil_of_left_ne_nil c.host_ne x'
    rw [rest_of_none c huserEq, hcut, split_append hx] at h
    by_cases hy : y = []
    · -- the last byte is lost
      subst hy
      rw [kept_nil_right, kept_single hxne] at h
      obtain ⟨t, ht, h⟩ := Option.bind_eq_some_iff.1 h
      cases ht
      obtain ⟨t, ht, h⟩ := Option.bind_eq_some_iff.1 h
      cases assign_eq ht
      cases h
      have hle := hhost x rfl
      rw [hcut, List.length_append, List.length_singleton] at hle
      omega
    · -- what stands in front of it is taken for the user
      rw [kept_pair hxne hy] at h
      obtain ⟨t, -, h⟩ := Option.bind_eq_some_iff.1 h
      rw [huserEq] at huser
      rcases part_cases h with ⟨a, b, t', -, -, -, rfl⟩ | ⟨a, -, -, rfl⟩
      · cases huser
      · cases huser
  | some user =>
    obtain ⟨hrest, hat, hcolon⟩ := rest_of_some c huserEq
    rw [hrest, split_append hat] at h
    rw [huserEq] at huser
    by_cases hleft : user ++ Components.behind 58 c.password = []
    · rw [hleft, kept_nil_left, kept_single (hostText_ne c)] at h
      obtain ⟨t, -, h⟩ := Option.bind_eq_some_iff.1 h
      obtain ⟨t, -, h⟩ := Option.bind_eq_some_iff.1 h
      cases h
      cases huser
    · rw [kept_pair hleft (hostText_ne c)] at h
      obtain ⟨t, -, h⟩ := Option.bind_eq_some_iff.1 h
      rw [split_user hcolon] at h
      cases hpasswordEq : c.password with
      | none =>
        rw [hpasswordEq, Components.behind, List.append_nil] at hleft
        exact ⟨fun heq ↦ hleft (Option.some.inj heq), nofun, nofun⟩
      | some q =>
        rw [hpasswordEq] at h hpassword
        by_cases hne : user = [] ∨ q = []
        · -- one piece or none is left of the two
          have hkept : Str.kept (user :: (some q).toList) = [] ∨
              ∃ a, Str.kept (user :: (some q).toList) = [a] := by
            rcases hne with rfl | rfl
            · rw [Option.toList_some, kept_nil_left]
              exact kept_single_cases q
            · rw [Option.toList_some, kept_nil_right]
              exact kept_single_cases user
          rcases hkept with hkept | ⟨a, hkept⟩
          · rw [hkept] at h
            cases h
            cases hpassword
          · rw [hkept] at h
            cases h
            cases hpassword
        · rw [not_or] at hne
          exact ⟨fun heq ↦ hne.1 (Option.some.inj heq), fun heq ↦ hne.2 (Option.some.inj heq),
            nofun⟩

end User

section Host

variable (c : Components)

/-- What is behind the slash. -/
def inner (c : Components) : Text :=
  c.path.getD [] ++ Components.behind 63 c.query ++ Components.behind 35 c.fragment

/-- The object when its path is looked at. -/
def atPath (c : Components) (s : Part) : Url where
  scheme := s
  user := Components.part c.user
  password := Components.part c.password
  host := .str c.host
  port := Components.part c.port
  path := Components.part (c.path.map fun _ ↦ 47 :: inner c)
  query := .null
  fragment := .null

theorem tail_of_path {p : Text} (h : c.path = some p) : c.tail = 47 :: inner c := by
  rw [Components.tail, inner, h]
  simp only [Components.behind, Option.getD_some, List.cons_append]

theorem tail_of_none (h : c.path = none) :
    c.tail = Components.behind 63 c.query ++ Components.behind 35 c.fragment := by
  rw [Components.tail, h, Components.behind, List.nil_append]

theorem takeWhile_tail (h : c.path = none) (htail : c.tail ≠ []) :
    c.tail.takeWhile (· ≠ 47) ≠ [] := by
  rw [tail_of_none c h] at htail ⊢
  cases hquery : c.query with
  | some q =>
    rw [Components.behind, List.cons_append, List.takeWhile_cons, if_pos (by decide)]
    exact List.cons_ne_nil _ _
  | none =>
    cases hfragment : c.fragment with
    | none =>
      rw [hquery, hfragment] at htail
      exact absurd rfl htail
    | some f =>
      rw [Components.behind, List.nil_append, Components.behind, List.takeWhile_cons,
        if_pos (by decide)]
      exact List.cons_ne_nil _ _

theorem split_tail {a : Text} (ha : a ≠ []) (hslash : 47 ∉ a) (hpath : c.path ≠ none → inner c ≠ [])
    (hno : c.path = none → c.tail = []) :
    split 47 (a ++ c.tail) = (a, a :: (c.path.map fun _ ↦ inner c).toList) := by
  cases hpathEq : c.path with
  | none => rw [hno hpathEq, List.append_nil, split_of_notMem hslash, kept_single ha]; rfl
  | some p =>
    have hinner := hpath (by rw [hpathEq]; exact nofun)
    rw [tail_of_path c hpathEq, split_append hslash, kept_pair ha hinner]
    rfl

theorem of_split_tail {a : Text} (ha : a ≠ []) (hslash : 47 ∉ a)
    (hshow : (split 47 (a ++ c.tail)).1 = a)
    (hpieces : c.path ≠ none → split 47 (a ++ c.tail) ≠ (a, [a])) :
    (c.path ≠ none → inner c ≠ []) ∧ (c.path = none → c.tail = []) := by
  constructor
  · intro hpath hinner
    obtain ⟨p, hp⟩ := Option.ne_none_iff_exists'.1 hpath
    apply hpieces hpath
    rw [tail_of_path c hp, hinner, split_append hslash, kept_nil_right, kept_single ha]
  · intro hpath
    by_contra htail
    rw [split] at hshow
    dsimp only at hshow
    rw [takeWhile_append hslash] at hshow
    exact takeWhile_tail c hpath htail (List.append_right_eq_self.1 hshow)

theorem slash_notMem_port {p : Text} (h : c.port = some p) : 47 ∉ p := fun hmem ↦
  absurd (c.port_digits p h 47 hmem) (by decide)

theorem slash_of_path {p : Text} (hlen : c.hostText.length < 1073741819) (h : c.path = some p) :
    slash (inner c) = some (47 :: inner c) := by
  rw [Components.hostText, tail_of_path c h] at hlen
  simp only [List.length_append, List.length_cons] at hlen
  exact if_pos (by omega)

theorem parse_host_text {s : Part} (hlen : c.hostText.length < 1073741819)
    (hport : c.port ≠ some [])
    (hnoport : c.port = none → 58 ∉ c.tail) (hpath : c.path ≠ none → inner c ≠ [])
    (hno : c.path = none → c.tail = []) :
    parse_host (atHost c s) = some (atPath c s, 1) := by
  have hcolon : 58 ∉ c.host := notMem_of_free c.host_free (by decide)
  have hslash : 47 ∉ c.host := notMem_of_free c.host_free (by decide)
  rw [parse_host, atHost]
  dsimp only
  cases hportEq : c.port with
  | none =>
    have hnone : 58 ∉ c.host ++ c.tail := by
      rw [List.mem_append, not_or]
      exact ⟨hcolon, hnoport hportEq⟩
    have htext : c.hostText = c.host ++ c.tail := by
      rw [Components.hostText, hportEq, Components.behind, List.append_nil]
    have hne : c.host ++ c.tail ≠ [] := List.append_ne_nil_of_left_ne_nil c.host_ne _
    rw [htext, split_of_notMem hnone, kept_single hne]
    dsimp only
    rw [split_tail c c.host_ne hslash hpath hno]
    cases hpathEq : c.path with
    | none =>
      rw [atPath, hportEq, hpathEq]
      rfl
    | some p =>
      simp only [Option.map_some, Option.toList_some, Option.bind_eq_bind,
        slash_of_path c hlen hpathEq, Option.bind_some]
      rw [atPath, hportEq, hpathEq]
      rfl
  | some p =>
    have hp : p ≠ [] := fun h ↦ hport (h ▸ hportEq)
    have htext : c.hostText = c.host ++ 58 :: (p ++ c.tail) := by
      rw [Components.hostText, hportEq, Components.behind, List.append_assoc, List.cons_append]
    have hbehind : p ++ c.tail ≠ [] := List.append_ne_nil_of_left_ne_nil hp _
    have hassign : assign (p ++ c.tail) = some (p ++ c.tail) := by
      apply assign_of_lt
      rw [htext, List.length_append, List.length_cons] at hlen
      omega
    rw [htext, split_append hcolon, kept_pair c.host_ne hbehind]
    simp only [hassign, Option.bind_eq_bind, Option.bind_some,
      split_tail c hp (slash_notMem_port c hportEq) hpath hno]
    cases hpathEq : c.path with
    | none =>
      rw [atPath, hportEq, hpathEq]
      rfl
    | some q =>
      simp only [Option.map_some, Option.toList_some, slash_of_path c hlen hpathEq,
        Option.bind_some]
      rw [atPath, hportEq, hpathEq]
      rfl

/-- The length of what the object holds, with the delimiters. -/
def Part.length : Part → ℕ
  | .str t => t.length
  | _ => 0

/-- The length with the delimiter in front. -/
def Part.behind : Part → ℕ
  | .str t => t.length + 1
  | _ => 0

theorem path_cases {x : Text} {f : Text → Text → Url} {g : Text → Url} {v : Url} {ret : ℤ}
    (h : (match split 47 x with
      | (a, [_, rest]) => do
        let path ← slash rest
        return (f a path, 1)
      | (a, _) => return (g a, 1) : Option (Url × ℤ)) = some (v, ret)) :
    (∃ a b, split 47 x = (a, [a, b]) ∧ a.length + 1 + b.length = x.length ∧ v = f a (47 :: b)) ∨
      ∃ a, (split 47 x).1 = a ∧ a.length ≤ x.length ∧ v = g a := by
  rcases part_cases h with ⟨a, b, t, hsplit, hlen, ht, rfl⟩ | hshort
  · cases slash_eq ht
    exact .inl ⟨a, b, hsplit, hlen, rfl⟩
  · exact .inr hshort

theorem of_path_cases {a : Text} {path : Part} (ha : a ≠ []) (hslash : 47 ∉ a)
    (h : (∃ y, split 47 (a ++ c.tail) = (a, [a, y])) ∨
      (split 47 (a ++ c.tail)).1 = a ∧ path = .null)
    (hpath : c.path ≠ none → path ≠ .null) :
    (c.path ≠ none → inner c ≠ []) ∧ (c.path = none → c.tail = []) := by
  rcases h with ⟨y, hsplit⟩ | ⟨hsplit, hnull⟩
  · apply of_split_tail c ha hslash
    · rw [hsplit]
    · intro _ heq
      rw [hsplit] at heq
      simp at heq
  · exact of_split_tail c ha hslash hsplit fun hne ↦ absurd hnull (hpath hne)

theorem of_parse_host {s : Part} {u : Url} {ret : ℤ} (h : parse_host (atHost c s) = some (u, ret))
    (hhost : u.host = .str c.host) (hport : u.port = Components.part c.port)
    (hpath : c.path ≠ none → u.path ≠ .null)
    (hlen : c.hostText.length ≤ u.host.length + u.port.behind + u.path.length) :
    (c.port ≠ some [] ∧ (c.port = none → 58 ∉ c.tail)) ∧
      (c.path ≠ none → inner c ≠ []) ∧ (c.path = none → c.tail = []) := by
  have hcolon : 58 ∉ c.host := notMem_of_free c.host_free (by decide)
  have hslash : 47 ∉ c.host := notMem_of_free c.host_free (by decide)
  rw [parse_host, atHost] at h
  dsimp only at h
  cases hportEq : c.port with
  | none =>
    have htext : c.hostText = c.host ++ c.tail := by
      rw [Components.hostText, hportEq, Components.behind, List.append_nil]
    rw [hportEq] at hport
    have hno : 58 ∉ c.tail := by
      intro hmem
      obtain ⟨x, y, hcut, hx⟩ := exists_cut (List.mem_append_right c.host hmem)
      obtain ⟨x', hx', -⟩ := prefix_of_cut hcut hcolon
      have hxne : x ≠ [] := hx' ▸ List.append_ne_nil_of_left_ne_nil c.host_ne x'
      rw [htext, hcut, split_append hx] at h
      by_cases hy : y = []
      · -- the last byte is lost
        subst hy
        rw [kept_nil_right, kept_single hxne] at h
        dsimp only at h
        rw [htext, hcut, List.length_append, List.length_singleton, hport] at hlen
        simp only [Components.part, Part.behind] at hlen
        rcases path_cases h with ⟨a, b, -, hab, rfl⟩ | ⟨a, -, hab, rfl⟩
        · simp only [Part.length, List.length_cons] at hlen
          omega
        · simp only [Part.length] at hlen
          omega
      · -- what stands behind it is taken for the port
        rw [kept_pair hxne hy] at h
        obtain ⟨t, -, h⟩ := Option.bind_eq_some_iff.1 h
        rcases path_cases h with ⟨a, b, -, -, rfl⟩ | ⟨a, -, -, rfl⟩
        · cases hport
        · cases hport
    refine ⟨⟨nofun, fun _ ↦ hno⟩, ?_⟩
    have hnone : 58 ∉ c.host ++ c.tail := by
      rw [List.mem_append, not_or]
      exact ⟨hcolon, hno⟩
    have hne : c.host ++ c.tail ≠ [] := List.append_ne_nil_of_left_ne_nil c.host_ne _
    rw [htext, split_of_notMem hnone, kept_single hne] at h
    dsimp only at h
    refine of_path_cases c c.host_ne hslash ?_ hpath
    rcases path_cases h with ⟨a, b, hsplit, -, rfl⟩ | ⟨a, hsplit, -, rfl⟩
    · cases Part.str.inj hhost
      exact .inl ⟨b, hsplit⟩
    · exact .inr ⟨hsplit.trans (Part.str.inj hhost), rfl⟩
  | some p =>
    have htext : c.hostText = c.host ++ 58 :: (p ++ c.tail) := by
      rw [Components.hostText, hportEq, Components.behind, List.append_assoc, List.cons_append]
    rw [htext, split_append hcolon] at h
    rw [hportEq] at hport
    by_cases hbehind : p ++ c.tail = []
    · rw [hbehind, kept_nil_right, kept_single c.host_ne] at h
      dsimp only at h
      rcases path_cases h with ⟨a, b, -, -, rfl⟩ | ⟨a, -, -, rfl⟩
      · cases hport
      · cases hport
    · rw [kept_pair c.host_ne hbehind] at h
      obtain ⟨t, ht, h⟩ := Option.bind_eq_some_iff.1 h
      cases assign_eq ht
      have hcases := path_cases h
      have hp : p ≠ [] := by
        rintro rfl
        rw [List.nil_append] at hcases hbehind
        cases hpathEq : c.path with
        | none =>
          apply takeWhile_tail c hpathEq hbehind
          rcases hcases with ⟨a, b, hsplit, -, rfl⟩ | ⟨a, hsplit, -, rfl⟩
          · exact (congrArg Prod.fst hsplit).trans (Part.str.inj hport)
          · exact hsplit.trans (Part.str.inj hport)
        | some q =>
          -- nothing is left in front of the slash
          rcases hcases with ⟨a, b, hsplit, -, rfl⟩ | ⟨a, -, -, rfl⟩
          · have hcut := split_append (@List.not_mem_nil _ 47) (inner c)
            rw [List.nil_append, kept_nil_left] at hcut
            rw [tail_of_path c hpathEq, hcut] at hsplit
            rcases kept_single_cases (inner c) with hkept | ⟨r, hkept⟩
            · rw [hkept] at hsplit
              cases hsplit
            · rw [hkept] at hsplit
              cases hsplit
          · exact hpath (by rw [hpathEq]; exact nofun) rfl
      refine ⟨⟨fun heq ↦ hp (Option.some.inj heq), nofun⟩, ?_⟩
      refine of_path_cases c hp (slash_notMem_port c hportEq) ?_ hpath
      rcases hcases with ⟨a, b, hsplit, -, rfl⟩ | ⟨a, hsplit, -, rfl⟩
      · cases Part.str.inj hport
        exact .inl ⟨b, hsplit⟩
      · exact .inr ⟨hsplit.trans (Part.str.inj hport), rfl⟩

end Host

section Path

variable (c : Components)

/-- The query and what is behind it. -/
def behindPath (c : Components) : Option Text :=
  c.query.map fun q ↦ q ++ Components.behind 35 c.fragment

/-- The object when its query is looked at. -/
def atQuery (c : Components) (s : Part) : Url :=
  { c.url with scheme := s, query := Components.part (behindPath c), fragment := .null }

theorem inner_eq {p : Text} (h : c.path = some p) (hno : c.query = none → c.fragment = none) :
    47 :: inner c = 47 :: p ++ Components.behind 63 (behindPath c) := by
  rw [inner, h, behindPath]
  cases hquery : c.query with
  | none =>
    rw [hno hquery]
    simp [Components.behind]
  | some q => simp [Components.behind]

theorem question_notMem_path {p : Text} (h : c.path = some p) : 63 ∉ 47 :: p := by
  rw [List.mem_cons, not_or]
  exact ⟨by decide, notMem_of_free (c.path_free p h) (by decide)⟩

theorem hash_notMem_query {q : Text} (h : c.query = some q) : 35 ∉ q :=
  notMem_of_free (c.query_free q h) (by decide)

theorem parse_path_text {s : Part} (hlen : c.hostText.length < 1073741819)
    (hnopath : c.path = none → c.query = none) (hquery : c.query ≠ some [])
    (hno : c.query = none → c.fragment = none) :
    ∃ ret, 0 ≤ ret ∧ parse_path (atPath c s) = some (atQuery c s, ret) := by
  cases hpathEq : c.path with
  | none =>
    refine ⟨0, le_rfl, ?_⟩
    rw [parse_path, atPath, atQuery, Components.url, behindPath, hpathEq, hnopath hpathEq]
    rfl
  | some p =>
    refine ⟨1, Int.one_nonneg, ?_⟩
    have hfree := question_notMem_path c hpathEq
    have hinner := inner_eq c hpathEq hno
    rw [parse_path, atPath, hpathEq]
    simp only [Option.map_some, Components.part, hinner]
    cases hqueryEq : c.query with
    | none =>
      rw [behindPath, hqueryEq, Option.map_none, Components.behind, List.append_nil,
        split_of_notMem hfree, kept_single (List.cons_ne_nil _ _)]
      rw [atQuery, Components.url, behindPath, hpathEq, hqueryEq]
      rfl
    | some q =>
      have hq : q ++ Components.behind 35 c.fragment ≠ [] :=
        List.append_ne_nil_of_left_ne_nil (fun heq ↦ hquery (heq ▸ hqueryEq)) _
      have hassign : assign (q ++ Components.behind 35 c.fragment) =
          some (q ++ Components.behind 35 c.fragment) := by
        apply assign_of_lt
        rw [Components.hostText, tail_of_path c hpathEq, hinner, behindPath, hqueryEq,
          Option.map_some, Components.behind] at hlen
        simp only [List.length_append, List.length_cons] at hlen ⊢
        omega
      rw [behindPath, hqueryEq, Option.map_some, Components.behind, split_append hfree,
        kept_pair (List.cons_ne_nil _ _) hq]
      simp only [Option.bind_eq_bind, hassign, Option.bind_some]
      rw [atQuery, Components.url, behindPath, hpathEq, hqueryEq]
      rfl

theorem parse_query_text {s : Part} (hlen : c.hostText.length < 1073741819)
    (hquery : c.query ≠ some []) (hno : c.query = none → c.fragment = none)
    (hfragment : c.fragment ≠ some []) :
    ∃ ret, 0 ≤ ret ∧ parse_query (atQuery c s) = some ({ c.url with scheme := s }, ret) := by
  cases hqueryEq : c.query with
  | none =>
    refine ⟨0, le_rfl, ?_⟩
    rw [parse_query, atQuery, Components.url, behindPath, hqueryEq, hno hqueryEq]
    rfl
  | some q =>
    refine ⟨1, Int.one_nonneg, ?_⟩
    have hq : q ≠ [] := fun heq ↦ hquery (heq ▸ hqueryEq)
    have hfree := hash_notMem_query c hqueryEq
    rw [parse_query, atQuery, behindPath, hqueryEq]
    simp only [Option.map_some, Components.part]
    cases hfragmentEq : c.fragment with
    | none =>
      rw [Components.behind, List.append_nil, split_of_notMem hfree, kept_single hq]
      rw [Components.url, hqueryEq, hfragmentEq]
      rfl
    | some f =>
      have hf : f ≠ [] := fun heq ↦ hfragment (heq ▸ hfragmentEq)
      have hassign : assign f = some f := by
        apply assign_of_lt
        rw [Components.hostText, Components.tail, hfragmentEq, Components.behind] at hlen
        simp only [List.length_append, List.length_cons] at hlen
        omega
      rw [Components.behind, split_append hfree, kept_pair hq hf]
      simp only [Option.bind_eq_bind, hassign, Option.bind_some]
      rw [Components.url, hqueryEq, hfragmentEq]
      rfl

theorem of_parse_query {u v : Url} {q : Text} {ret : ℤ} (hfree : 35 ∉ q)
    (hu : u.query = .str (q ++ Components.behind 35 c.fragment)) (hnull : u.fragment = .null)
    (hne : q ++ Components.behind 35 c.fragment ≠ []) (h : parse_query u = some (v, ret))
    (hv : v.fragment = Components.part c.fragment) : q ≠ [] ∧ c.fragment ≠ some [] := by
  rw [parse_query, hu] at h
  dsimp only at h
  cases hfragmentEq : c.fragment with
  | none =>
    rw [hfragmentEq, Components.behind, List.append_nil] at hne
    exact ⟨hne, nofun⟩
  | some f =>
    rw [hfragmentEq, Components.behind, split_append hfree] at h
    rw [hfragmentEq] at hv
    by_cases hempty : q = [] ∨ f = []
    · -- one piece or none is left of the two
      have hkept : Str.kept [q, f] = [] ∨ ∃ a, Str.kept [q, f] = [a] := by
        rcases hempty with rfl | rfl
        · rw [kept_nil_left]
          exact kept_single_cases f
        · rw [kept_nil_right]
          exact kept_single_cases q
      rcases hkept with hkept | ⟨a, hkept⟩
      · rw [hkept] at h
        cases h
        cases hnull.symm.trans hv
      · rw [hkept] at h
        cases h
        cases hnull.symm.trans hv
    · rw [not_or] at hempty
      exact ⟨hempty.1, fun heq ↦ hempty.2 (Option.some.inj heq)⟩

theorem parse_query_frame {u v : Url} {ret : ℤ} (h : parse_query u = some (v, ret)) :
    v = { u with query := v.query, fragment := v.fragment } ∧ (u.query = .null → v = u) ∧
      v.query.behind + v.fragment.behind ≤ u.query.behind + u.fragment.behind := by
  rw [parse_query] at h
  split at h
  · rename_i hnull
    cases h
    exact ⟨rfl, fun _ ↦ rfl, le_rfl⟩
  · cases h
  · rename_i q hq
    rw [hq]
    rcases part_cases h with ⟨a, b, t, -, hlen, ht, rfl⟩ | ⟨a, -, hlen, rfl⟩
    · cases assign_eq ht
      refine ⟨rfl, nofun, ?_⟩
      simp only [Part.behind]
      omega
    · refine ⟨rfl, nofun, ?_⟩
      simp only [Part.behind]
      omega

theorem parse_path_frame {u v : Url} {ret : ℤ} (h : parse_path u = some (v, ret)) :
    v = { u with path := v.path, query := v.query } ∧ (u.path = .null → v = u) ∧
      v.path.length + v.query.behind ≤ u.path.length + u.query.behind := by
  rw [parse_path] at h
  split at h
  · rename_i hnull
    cases h
    exact ⟨rfl, fun _ ↦ rfl, le_rfl⟩
  · cases h
  · rename_i path hpath
    rw [hpath]
    rcases part_cases h with ⟨a, b, t, -, hlen, ht, rfl⟩ | ⟨a, -, hlen, rfl⟩
    · cases assign_eq ht
      refine ⟨rfl, nofun, ?_⟩
      simp only [Part.length, Part.behind]
      omega
    · refine ⟨rfl, nofun, ?_⟩
      simp only [Part.length]
      omega

theorem of_parse_path {s : Part} {u v : Url} {ret ret' : ℤ}
    (h : parse_path (atPath c s) = some (u, ret)) (h' : parse_query u = some (v, ret'))
    (hpath : v.path = c.url.path) (hquery : v.query = c.url.query)
    (hfragment : v.fragment = c.url.fragment) (hinner : c.path ≠ none → inner c ≠ [])
    (htail : c.path = none → c.tail = []) :
    (c.path = some [] → c.query ≠ none) ∧ (c.path = none → c.query = none) ∧
      c.query ≠ some [] ∧ (c.query = none → c.fragment = none) ∧ c.fragment ≠ some [] := by
  cases hpathEq : c.path with
  | none =>
    have hnil := htail hpathEq
    rw [tail_of_none c hpathEq, List.append_eq_nil_iff] at hnil
    have hnone : c.query = none ∧ c.fragment = none := by
      constructor
      · cases hq : c.query with
        | none => rfl
        | some q =>
          rw [hq] at hnil
          cases hnil.1
      · cases hf : c.fragment with
        | none => rfl
        | some f =>
          rw [hf] at hnil
          cases hnil.2
    rw [hnone.1, hnone.2]
    have hsome : (none : Option Text) ≠ some [] := (Option.some_ne_none _).symm
    exact ⟨fun h ↦ absurd h hsome, fun _ ↦ rfl, hsome, fun _ ↦ rfl, hsome⟩
  | some p =>
    have hfree := question_notMem_path c hpathEq
    obtain ⟨hkeep, -, -⟩ := parse_query_frame h'
    have hupath : u.path = .str (47 :: p) := by
      rw [hkeep, Components.url, hpathEq] at hpath
      exact hpath
    rw [parse_path, atPath, hpathEq] at h
    simp only [Option.map_some, Components.part] at h
    have hno : c.query = none → c.fragment = none := by
      intro hqueryEq
      cases hfragmentEq : c.fragment with
      | none => rfl
      | some f =>
        -- what is behind the path is shown with it
        exfalso
        have htext : 47 :: inner c = 47 :: p ++ 35 :: f := by
          rw [inner, hpathEq, hqueryEq, hfragmentEq]
          simp [Components.behind]
        have hshow : u.path = .str (split 63 (47 :: p ++ 35 :: f)).1 := by
          rw [htext] at h
          rcases part_cases h with ⟨a, b, t, hsplit, -, -, rfl⟩ | ⟨a, hsplit, -, rfl⟩
          · rw [hsplit]
          · rw [hsplit]
        have hcut := Part.str.inj (hupath.symm.trans hshow)
        rw [split] at hcut
        dsimp only at hcut
        rw [takeWhile_append hfree, List.takeWhile_cons, if_pos (by decide)] at hcut
        exact absurd (List.self_eq_append_right.1 hcut) (List.cons_ne_nil _ _)
    rw [inner_eq c hpathEq hno] at h
    cases hqueryEq : c.query with
    | none =>
      refine ⟨fun hp ↦ ?_, fun h ↦ absurd h (Option.some_ne_none _), (Option.some_ne_none _).symm,
        fun _ ↦ hno hqueryEq, ?_⟩
      · cases hp
        refine absurd ?_ (hinner (by rw [hpathEq]; exact Option.some_ne_none _))
        rw [inner, hpathEq, hqueryEq, hno hqueryEq]
        rfl
      · rw [hno hqueryEq]
        exact (Option.some_ne_none _).symm
    | some q =>
      rw [behindPath, hqueryEq, Option.map_some, Components.behind, split_append hfree] at h
      have hne : q ++ Components.behind 35 c.fragment ≠ [] := by
        intro hnil
        rw [hnil, kept_nil_right, kept_single (List.cons_ne_nil _ _)] at h
        cases h
        obtain ⟨-, hsame, -⟩ := parse_query_frame h'
        rw [hsame rfl, Components.url, hqueryEq] at hquery
        cases hquery
      rw [kept_pair (List.cons_ne_nil _ _) hne] at h
      obtain ⟨t, ht, h⟩ := Option.bind_eq_some_iff.1 h
      cases assign_eq ht
      cases h
      obtain ⟨hq, hf⟩ := of_parse_query c (hash_notMem_query c hqueryEq) rfl rfl hne h' hfragment
      exact ⟨fun _ ↦ Option.some_ne_none q, fun h ↦ absurd h (Option.some_ne_none _),
        fun heq ↦ hq (Option.some.inj heq), fun h ↦ absurd h (Option.some_ne_none _), hf⟩

theorem parse_user_frame {u v : Url} {ret : ℤ} (h : parse_user_and_password u = some (v, ret)) :
    v = { u with user := v.user, password := v.password, host := v.host } := by
  rw [parse_user_and_password] at h
  split at h
  · cases h
    rfl
  · cases h
  · split at h
    · obtain ⟨host, -, h⟩ := Option.bind_eq_some_iff.1 h
      split at h
      · obtain ⟨password, -, h⟩ := Option.bind_eq_some_iff.1 h
        cases h
        rfl
      · cases h
        rfl
    · obtain ⟨rest, -, h⟩ := Option.bind_eq_some_iff.1 h
      obtain ⟨host, -, h⟩ := Option.bind_eq_some_iff.1 h
      cases h
      rfl

theorem parse_host_frame {u v : Url} {ret : ℤ} (hport : u.port = .null) (hpath : u.path = .null)
    (h : parse_host u = some (v, ret)) :
    v = { u with host := v.host, port := v.port, path := v.path } ∧
      v.host.length + v.port.behind + v.path.length ≤ u.host.length := by
  rw [parse_host] at h
  split at h
  · rename_i hnull
    cases h
    refine ⟨rfl, ?_⟩
    rw [hport, hpath]
    exact le_rfl
  · cases h
  · rename_i host hhost
    rw [hhost]
    have hwhole {x : Text} {p : ℤ} (hx : x.length ≤ host.length)
        (h : (match split 47 x with
          | (host, [_, rest]) => do
            let path ← slash rest
            return ({ u with host := .str host, path := .str path }, 1)
          | (host, _) => return ({ u with host := .str host }, 1) : Option (Url × ℤ)) =
            some (v, p)) :
        v = { u with host := v.host, port := v.port, path := v.path } ∧
          v.host.length + v.port.behind + v.path.length ≤ host.length := by
      rcases path_cases h with ⟨a, b, -, hlen, rfl⟩ | ⟨a, -, hlen, rfl⟩
      · refine ⟨rfl, ?_⟩
        simp only [Part.length, Part.behind, hport, List.length_cons]
        omega
      · refine ⟨rfl, ?_⟩
        simp only [Part.length, Part.behind, hport, hpath]
        omega
    rcases split_cases 58 host with ⟨x, y, hsplit, hxy⟩ | ⟨x, hx, hsplit | ⟨b, hsplit⟩⟩
    · rw [hsplit] at h
      obtain ⟨t, ht, h⟩ := Option.bind_eq_some_iff.1 h
      cases assign_eq ht
      rcases path_cases h with ⟨a, b, -, hlen, rfl⟩ | ⟨a, -, hlen, rfl⟩
      · refine ⟨rfl, ?_⟩
        simp only [Part.length, Part.behind, List.length_cons]
        omega
      · refine ⟨rfl, ?_⟩
        simp only [Part.length, Part.behind, hpath]
        omega
    · rw [hsplit] at h
      exact hwhole hx h
    · rw [hsplit] at h
      exact hwhole hx h

end Path

section Whole

variable (c : Components)

theorem andThen_of_nonneg {r : Option (Url × ℤ)} {f : Url → Option (Url × ℤ)} {u : Url} {ret : ℤ}
    (h : r = some (u, ret)) (hret : 0 ≤ ret) : andThen r f = f u := by
  rw [h, andThen]
  exact if_neg hret.not_gt

theorem andThen_eq_some {r : Option (Url × ℤ)} {f : Url → Option (Url × ℤ)} {u : Url} {ret : ℤ}
    (h : andThen r f = some (u, ret)) (hret : 0 ≤ ret) :
    ∃ v k, r = some (v, k) ∧ 0 ≤ k ∧ f v = some (u, ret) := by
  obtain ⟨⟨v, k⟩, hr, h⟩ := Option.bind_eq_some_iff.1 h
  dsimp only at h
  by_cases hk : k < 0
  · rw [if_pos hk] at h
    cases h
    omega
  · rw [if_neg hk] at h
    exact ⟨v, k, hr, not_lt.1 hk, h⟩

theorem length_hostText :
    c.hostText.length = c.url.host.length + c.url.port.behind + c.url.path.length +
      c.url.query.behind + c.url.fragment.behind := by
  have hbehind (d : UInt8) (t : Option Text) :
      (Components.behind d t).length = (Components.part t).behind := by
    cases t with
    | none => rfl
    | some t => exact List.length_cons
  have hpath : (Components.behind 47 c.path).length =
      (Components.part (c.path.map fun t ↦ 47 :: t)).length := by
    cases c.path with
    | none => rfl
    | some t => rfl
  have hhost : c.url.host.length = c.host.length := rfl
  rw [Components.hostText, Components.tail, List.length_append, List.length_append,
    List.length_append, List.length_append, hpath, hbehind, hbehind, hbehind, hhost]
  simp only [Components.url]
  omega

theorem length_hostText_lt (h : c.compose.length < 1073741823) :
    c.hostText.length < 1073741819 := by
  have hscheme := List.length_pos_of_ne_nil c.scheme_ne
  have hsep : (Scan.ascii "://").length = 3 := rfl
  rw [Components.compose, Components.rest] at h
  simp only [List.length_append, hsep] at h
  omega

theorem parse_of_plain (h : c.Plain) : parse c.compose = some (c.url, 1) := by
  have hhost := length_hostText_lt c h.length_lt
  have hrest := (length_rest_lt c).trans h.length_lt
  have hinner : c.path ≠ none → inner c ≠ [] := by
    intro hpath hnil
    obtain ⟨p, hp⟩ := Option.ne_none_iff_exists'.1 hpath
    rw [inner, hp] at hnil
    simp only [List.append_eq_nil_iff, Option.getD_some] at hnil
    obtain ⟨⟨rfl, hquery⟩, -⟩ := hnil
    apply h.path_ne hp
    cases hq : c.query with
    | none => rfl
    | some q =>
      rw [hq] at hquery
      cases hquery
  have htail : c.path = none → c.tail = [] := by
    intro hpath
    have hquery := h.no_path hpath
    rw [Components.tail, hpath, hquery, h.no_query hquery]
    rfl
  obtain ⟨ret, hret, hpath⟩ :=
    @parse_path_text c (.str c.scheme) hhost h.no_path h.query_ne h.no_query
  obtain ⟨ret', hret', hquery⟩ :=
    @parse_query_text c (.str c.scheme) hhost h.query_ne h.no_query h.fragment_ne
  have hscheme := parse_scheme_compose c h.length_lt h.scheme_only
  have huser := @parse_user_rest c (.str c.scheme) hrest h.user_ne h.password_ne h.no_user
  have htext := @parse_host_text c (.str c.scheme) hhost h.port_ne h.no_port hinner htail
  have hone : (0 : ℤ) ≤ 1 := Int.one_nonneg
  rw [parse, hscheme, andThen_of_nonneg rfl hone, huser, andThen_of_nonneg rfl hone, htext,
    andThen_of_nonneg rfl hone, hpath, andThen_of_nonneg rfl hret, hquery,
    andThen_of_nonneg rfl hret']
  rfl

theorem plain_of_parse (h : parse c.compose = some (c.url, 1)) : c.Plain := by
  have hone : (0 : ℤ) ≤ 1 := Int.one_nonneg
  obtain ⟨u₅, k₅, h, hk₅, hlast⟩ := andThen_eq_some h hone
  cases hlast
  obtain ⟨u₄, k₄, h, hk₄, hquery⟩ := andThen_eq_some h hk₅
  obtain ⟨u₃, k₃, h, hk₃, hpath⟩ := andThen_eq_some h hk₄
  obtain ⟨u₂, k₂, h, hk₂, hhost⟩ := andThen_eq_some h hk₃
  obtain ⟨u₁, k₁, hscheme, hk₁, huser⟩ := andThen_eq_some h hk₂
  obtain ⟨⟨hlen, honly⟩, rfl⟩ := of_parse_scheme c hscheme hk₁
  have hframe₂ := parse_user_frame huser
  have hport₂ : u₂.port = .null := by rw [hframe₂]; rfl
  have hpath₂ : u₂.path = .null := by rw [hframe₂]; rfl
  obtain ⟨hframe₃, hlen₃⟩ := parse_host_frame hport₂ hpath₂ hhost
  obtain ⟨hframe₄, hnull₄, hlen₄⟩ := parse_path_frame hpath
  obtain ⟨hframe₅, -, hlen₅⟩ := parse_query_frame hquery
  have hquery₃ : u₃.query.behind = 0 := by rw [hframe₃, hframe₂]; rfl
  have hfragment₄ : u₄.fragment.behind = 0 := by rw [hframe₄, hframe₃, hframe₂]; rfl
  have huser₂ : u₂.user = c.url.user := by rw [hframe₅, hframe₄, hframe₃]
  have hpassword₂ : u₂.password = c.url.password := by rw [hframe₅, hframe₄, hframe₃]
  have hhost₃ : u₃.host = c.url.host := by rw [hframe₅, hframe₄]
  have hport₃ : u₃.port = c.url.port := by rw [hframe₅, hframe₄]
  have hpath₄ : u₄.path = c.url.path := by rw [hframe₅]
  have htext := length_hostText c
  rw [← hhost₃, ← hport₃, ← hpath₄] at htext
  obtain ⟨huserNe, hpasswordNe, hnoUser⟩ :=
    of_parse_user c huser huser₂ hpassword₂ fun t ht ↦ by
      rw [ht] at hlen₃
      simp only [Part.length] at hlen₃ hlen₄ htext
      omega
  have hrest := (length_rest_lt c).trans hlen
  rw [parse_user_rest c hrest huserNe hpasswordNe hnoUser] at huser
  cases huser
  have hpathNe : c.path ≠ none → u₃.path ≠ .null := by
    intro hne hnull
    obtain ⟨p, hp⟩ := Option.ne_none_iff_exists'.1 hne
    rw [hnull₄ hnull, hnull, Components.url, hp] at hpath₄
    cases hpath₄
  obtain ⟨⟨hportNe, hnoPort⟩, hinner, htail⟩ :=
    of_parse_host c hhost hhost₃ hport₃ hpathNe (by omega)
  have hhostLen : c.hostText.length < 1073741819 := length_hostText_lt c hlen
  rw [parse_host_text c hhostLen hportNe hnoPort hinner htail] at hhost
  cases hhost
  obtain ⟨hpathNe, hnoPath, hqueryNe, hnoQuery, hfragmentNe⟩ :=
    of_parse_path c hpath hquery rfl rfl rfl hinner htail
  exact ⟨hlen, honly, huserNe, hpasswordNe, hnoUser, hportNe, hnoPort, hpathNe, hnoPath, hqueryNe,
    hnoQuery, hfragmentNe⟩

/-- The parts come back exactly if none of the splits looks for a delimiter in a part behind its own
and there is nothing empty that a split would leave out. -/
theorem parse_iff : parse c.compose = some (c.url, 1) ↔ c.Plain :=
  ⟨plain_of_parse c, parse_of_plain c⟩

/-- A path with `@`, as in `http://h/a@b`. -/
def atInPath : Components where
  scheme := Scan.ascii "http"
  user := none
  password := none
  host := Scan.ascii "h"
  port := none
  path := some (Scan.ascii "a@b")
  query := none
  fragment := none
  scheme_ne := by decide
  scheme_free := by decide
  user_free := nofun
  password_free := nofun
  user_of_password := fun _ ↦ rfl
  host_ne := by decide
  host_free := by decide
  port_digits := nofun
  path_free := by
    rintro t ⟨⟩
    decide
  query_free := nofun
  fragment_free := nofun

/-- What stands in front of the `@` is taken for the user. -/
theorem not_parse : ¬∀ c : Components, parse c.compose = some (c.url, 1) := fun h ↦
  absurd (h atInPath) (by decide)

end Whole

end Libobject.Url
