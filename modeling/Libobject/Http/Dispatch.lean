import Libobject.Core.RbTreeMap
import Libobject.Lib.Scan
import Libobject.Lib.Run

/-!
# Routes

The handlers of a server, in a map for each kind of method, and what becomes of a request that none
of its files answers. The map holds the addresses of the handlers. A path that ends with a slash and
an asterisk is a pattern.
-/

namespace Libobject.Http.Dispatch

open Scan

variable {σ ω : Type*}

/-- A callback is called with the argument of its handler; it works on the request, the response and
whatever else there is, and returns a number. -/
abbrev Callback (σ ω : Type*) := Option ω → σ → σ × ℤ

structure Handler (σ ω : Type*) where
  method : Text
  path : Text
  callback : Option (Callback σ ω)
  arg : Option ω
  pre_callback : Option (Callback σ ω)
  post_callback : Option (Callback σ ω)

/-- What `allocator_mem_zalloc` gives, with the method and the path of the first registration. -/
def Handler.new (method path : Text) : Handler σ ω := ⟨method, path, none, none, none, none⟩

/-- The arguments of `register_handler` behind the path. Every caller gives a main callback. -/
structure Given (σ ω : Type*) where
  pre_callback : Option (Callback σ ω)
  callback : Callback σ ω
  post_callback : Option (Callback σ ω)
  arg : Option ω

/-- What is given replaces what there was. -/
def Handler.assign (h : Handler σ ω) (g : Given σ ω) : Handler σ ω :=
  { h with
    callback := some g.callback
    arg := g.arg <|> h.arg
    pre_callback := g.pre_callback <|> h.pre_callback
    post_callback := g.post_callback <|> h.post_callback }

structure Handlers (σ ω : Type*) where
  map : RbTreeMap strcmp ℕ
  memory : List (Handler σ ω)

def Handlers.empty : Handlers σ ω := ⟨.empty, []⟩

structure Server (σ ω : Type*) where
  get_handlers : Handlers σ ω
  post_handlers : Handlers σ ω
  other_handlers : Handlers σ ω

def Server.empty : Server σ ω := ⟨.empty, .empty, .empty⟩

section Register

variable (rb : Rebalance (Text × ℕ))

/-- A path that is not there yet gets a new handler. -/
def Handlers.register (hs : Handlers σ ω) (method path : Text) (g : Given σ ω) : Handlers σ ω :=
  match hs.map.search path with
  | some a => ⟨hs.map, hs.memory.modify a (·.assign g)⟩
  | none =>
    ⟨hs.map.add rb path hs.memory.length, hs.memory ++ [(Handler.new method path).assign g]⟩

def register_handler (s : Server σ ω) (method path : Text) (g : Given σ ω) : Server σ ω :=
  if method = ascii "GET" then
    { s with get_handlers := s.get_handlers.register rb method path g }
  else if method = ascii "POST" then
    { s with post_handlers := s.post_handlers.register rb method path g }
  else { s with other_handlers := s.other_handlers.register rb method path g }

end Register

/-- The handler that was found, if any, and the one of the entry that the loop comes to. -/
def wildcard_match_callback (uri : Text) (found : Option ℕ) (e : Text × ℕ) : Option ℕ :=
  if found.isSome then found
  else
    let registered_len := e.1.length
    if registered_len < 2 then none
    else if e.1[registered_len - 2]? ≠ some 47 ∨ e.1[registered_len - 1]? ≠ some 42 then none
    else
      let wildcard_len := registered_len - 2
      if e.1.take wildcard_len = uri.take wildcard_len ∧ wildcard_len < uri.length then some e.2
      else none

def Handlers.find (hs : Handlers σ ω) (uri : Text) : Option ℕ :=
  match hs.map.search uri with
  | some a => some a
  | none => hs.map.entries.foldl (wildcard_match_callback uri) none

inductive Stage
  | pre
  | main
  | post
  deriving DecidableEq

/-- What a request has come to: its handler, the callbacks that were called with what they returned,
and what is returned for the request itself. -/
structure Outcome (σ ω : Type*) where
  handler : Option (Handler σ ω)
  called : List (Stage × ℤ)
  ret : ℤ
  state : σ

/-- `EXEC` of a callback that is there. -/
def Outcome.exec (o : Outcome σ ω) (stage : Stage) (callback : Option (Callback σ ω))
    (arg : Option ω) : Outcome σ ω :=
  match callback with
  | none => o
  | some f =>
    let (state, ret) := f arg o.state
    { o with
      called := o.called ++ [(stage, ret)], ret := if ret < 0 then -1 else o.ret, state := state }

/-- The callbacks of a handler. Without a main callback, a null pointer is called. -/
def Handler.serve (h : Handler σ ω) (state : σ) : Option (Outcome σ ω) := do
  let o := (⟨some h, [], 1, state⟩ : Outcome σ ω).exec .pre h.pre_callback h.arg
  if o.ret < 0 then return o
  let callback ← h.callback
  let o := o.exec .main (some callback) h.arg
  if o.ret < 0 then return o
  return o.exec .post h.post_callback h.arg

/-- `not_found` and `response` are what the functions of these names do. -/
def process_dynamic_request (not_found response : σ → σ) (s : Server σ ω) (method uri : Text)
    (state : σ) : Option (Outcome σ ω) :=
  let hs :=
    if method = ascii "GET" ∨ method = ascii "HEAD" then s.get_handlers
    else if method = ascii "POST" then s.post_handlers
    else s.other_handlers
  match hs.find uri with
  | none => some ⟨none, [], -2, response (not_found state)⟩
  | some a => do
    let h ← hs.memory[a]?
    let o ← h.serve state
    return { o with state := response o.state }

/-! ## What the routes are for -/

/-- The handlers by their paths. -/
abbrev Table (σ ω : Type*) := Text → Option (Handler σ ω)

/-- The path of a pattern. -/
def pattern (p : Text) : Text := p ++ [47, 42]

/-- A slash and at least one character come behind `p`. -/
def Below (p uri : Text) : Prop := p ++ [47] <+: uri ∧ p.length + 1 < uri.length

instance decidableBelow (p uri : Text) : Decidable (Below p uri) :=
  inferInstanceAs (Decidable (_ ∧ _))

/-- The handler that a request for the uri should get. -/
def Table.Chooses (T : Table σ ω) (uri : Text) : Option (Handler σ ω) → Prop
  | some h => T uri = some h ∨ T uri = none ∧ ∃ p, T (pattern p) = some h ∧ Below p uri
  | none => T uri = none ∧ ∀ p, Below p uri → T (pattern p) = none

/-- The callbacks that a handler has, in their order. -/
def Handler.stages (h : Handler σ ω) : List Stage :=
  (if h.pre_callback.isSome then [.pre] else []) ++ (if h.callback.isSome then [.main] else []) ++
    if h.post_callback.isSome then [.post] else []

/-- The callbacks of the handler are called in their order, up to the first that fails. -/
structure Outcome.Orderly (o : Outcome σ ω) : Prop where
  order : o.called.map Prod.fst <+: (o.handler.map Handler.stages).getD []
  stops : ∀ e ∈ o.called.dropLast, 0 ≤ e.2
  ends : (∀ e ∈ o.called, 0 ≤ e.2) → o.called.map Prod.fst = (o.handler.map Handler.stages).getD []

/-- Which of the three maps a method is registered in, and looked up in. -/
inductive Methods
  | get
  | post
  | other
  deriving DecidableEq

def Methods.registered (method : Text) : Methods :=
  if method = ascii "GET" then .get else if method = ascii "POST" then .post else .other

def Methods.requested (method : Text) : Methods :=
  if method = ascii "GET" ∨ method = ascii "HEAD" then .get
  else if method = ascii "POST" then .post else .other

/-- The arguments of a registration. -/
structure Registration (σ ω : Type*) where
  method : Text
  path : Text
  given : Given σ ω

/-- What a registration makes of the tables. -/
def Table.register (T : Table σ ω) (method path : Text) (g : Given σ ω) : Table σ ω :=
  Function.update T path (some (((T path).getD (.new method path)).assign g))

def enter (T : Methods → Table σ ω) (r : Registration σ ω) : Methods → Table σ ω :=
  Function.update T (.registered r.method)
    ((T (.registered r.method)).register r.method r.path r.given)

def tables (rs : List (Registration σ ω)) : Methods → Table σ ω := rs.foldl enter fun _ _ ↦ none

def server (rb : Rebalance (Text × ℕ)) (rs : List (Registration σ ω)) : Server σ ω :=
  rs.foldl (fun s r ↦ register_handler rb s r.method r.path r.given) .empty

/-- The handler is the right one, and its callbacks are called in order; without one, the request is
answered as not found. -/
structure Dispatched (T : Table σ ω) (not_found response : σ → σ) (uri : Text) (state : σ)
    (o : Outcome σ ω) : Prop where
  chooses : T.Chooses uri o.handler
  orderly : o.Orderly
  missing : o.handler = none → o.ret = -2 ∧ o.state = response (not_found state)

/-- The path is registered itself, or wherever the uri goes on behind `p` without a slash and a
character, the pattern of `p` comes behind another one that the uri is below. -/
def Table.Settles (T : Table σ ω) (uri : Text) : Prop :=
  (T uri).isSome ∨ ∀ p, (T (pattern p)).isSome → p <+: uri → p.length < uri.length →
    ¬Below p uri → ∃ q, (T (pattern q)).isSome ∧ Below q uri ∧ strcmp (pattern q) (pattern p) = .lt

/-! ## The scan of the patterns -/

theorem Below.loose {p uri : Text} (h : Below p uri) : p <+: uri ∧ p.length < uri.length :=
  ⟨(List.prefix_append p [47]).trans h.1, Nat.lt_of_succ_lt h.2⟩

theorem pattern_inj {p q : Text} (h : pattern p = pattern q) : p = q := List.append_cancel_right h

theorem foldl_wildcard_match_callback (uri : Text) (es : List (Text × ℕ)) :
    es.foldl (wildcard_match_callback uri) none =
      es.findSome? (wildcard_match_callback uri none) := by
  induction es with
  | nil => rfl
  | cons e es ih =>
    rw [List.foldl_cons, List.findSome?_cons]
    cases h : wildcard_match_callback uri none e with
    | none => exact ih
    | some a =>
      clear ih h
      induction es with
      | nil => rfl
      | cons e es ih => exact ih

theorem eq_pattern {k : Text} (hlen : ¬k.length < 2) (hslash : k[k.length - 2]? = some 47)
    (hstar : k[k.length - 1]? = some 42) : k = pattern (k.take (k.length - 2)) := by
  have hdrop : k.drop (k.length - 2) = [47, 42] := by
    apply List.ext_getElem?
    intro i
    rw [List.getElem?_drop]
    match i with
    | 0 => exact hslash
    | 1 =>
      have hlast : k.length - 2 + 1 = k.length - 1 := by omega
      rw [hlast]
      exact hstar
    | i + 2 => exact List.getElem?_eq_none (by omega)
  have hsplit := List.take_append_drop (k.length - 2) k
  rw [hdrop] at hsplit
  exact hsplit.symm

theorem wildcard_match_callback_eq_some {uri k : Text} {a b : ℕ} :
    wildcard_match_callback uri none (k, a) = some b ↔
      b = a ∧ ∃ p, k = pattern p ∧ p <+: uri ∧ p.length < uri.length := by
  constructor
  · intro h
    rw [wildcard_match_callback] at h
    simp only [Option.isSome_none, Bool.false_eq_true, if_false] at h
    split at h
    · cases h
    · next hlen =>
        split at h
        · cases h
        · next hends =>
            split at h
            · next hloose =>
                simp only [not_or, not_not] at hends
                have hk := eq_pattern hlen hends.1 hends.2
                have htake : (k.take (k.length - 2)).length = k.length - 2 := by
                  rw [List.length_take]
                  omega
                refine ⟨(Option.some.inj h).symm, _, hk, ?_, htake.symm ▸ hloose.2⟩
                rw [hloose.1]
                exact List.take_prefix _ _
            · cases h
  · rintro ⟨rfl, p, rfl, hprefix, hlt⟩
    have hlen : (pattern p).length = p.length + 2 := List.length_append
    have htwo : ¬p.length + 2 < 2 := by omega
    have hsub : p.length + 2 - 2 = p.length := rfl
    have hslash : (pattern p)[p.length]? = some 47 := by simp [pattern]
    have hstar : (pattern p)[p.length + 2 - 1]? = some 42 := by simp [pattern]
    have htake : (pattern p).take p.length = uri.take p.length := by
      rw [pattern, List.take_left, ← List.prefix_iff_eq_take.mp hprefix]
    simp only [wildcard_match_callback, hlen, htwo, hsub, hslash, hstar, htake, hlt,
      Option.isSome_none, Bool.false_eq_true, ne_eq, not_true_eq_false, or_self, and_self, if_false,
      if_true]

/-! ## The maps and the tables -/

theorem Table.register_cases {T : Table σ ω} {method path path' : Text} {g : Given σ ω}
    {x : Handler σ ω} (h : T.register method path g path' = some x) :
    path' = path ∧ x = ((T path).getD (.new method path)).assign g ∨
      path' ≠ path ∧ T path' = some x := by
  rw [Table.register] at h
  by_cases hpath : path' = path
  · subst hpath
    rw [Function.update_self, Option.some.injEq] at h
    exact .inl ⟨rfl, h.symm⟩
  · rw [Function.update_of_ne hpath] at h
    exact .inr ⟨hpath, h⟩

/-- Every handler has a main callback, and its own path. -/
def Table.Named (T : Table σ ω) : Prop :=
  ∀ path h, T path = some h → h.callback.isSome ∧ h.path = path

theorem Table.Named.register {T : Table σ ω} (hT : T.Named) (method path : Text) (g : Given σ ω) :
    (T.register method path g).Named := by
  intro path' x hx
  rcases Table.register_cases hx with ⟨rfl, rfl⟩ | ⟨-, hx⟩
  · refine ⟨rfl, ?_⟩
    cases hold : T path' with
    | none => rfl
    | some h => exact (hT path' h hold).2
  · exact hT path' x hx

/-- The entries of a map lead to the handlers of a table. -/
structure Handlers.Holds (hs : Handlers σ ω) (T : Table σ ω) : Prop where
  keys : (hs.map.entries.map Prod.fst).Nodup
  addrs : (hs.map.entries.map Prod.snd).Nodup
  inside : ∀ e ∈ hs.map.entries, e.2 < hs.memory.length
  table : ∀ path h, T path = some h ↔ ∃ a, (path, a) ∈ hs.map.entries ∧ hs.memory[a]? = some h
  named : T.Named

namespace Handlers.Holds

variable {hs : Handlers σ ω} {T : Table σ ω}

theorem empty : (Handlers.empty : Handlers σ ω).Holds fun _ ↦ none where
  keys := List.nodup_nil
  addrs := List.nodup_nil
  inside _ h := nomatch h
  table _ _ := by simp [Handlers.empty]
  named _ _ h := nomatch h

theorem key_inj (hh : hs.Holds T) {path : Text} {a b : ℕ} (ha : (path, a) ∈ hs.map.entries)
    (hb : (path, b) ∈ hs.map.entries) : a = b :=
  congrArg Prod.snd (List.inj_on_of_nodup_map hh.keys ha hb rfl)

theorem addr_inj (hh : hs.Holds T) {path path' : Text} {a : ℕ} (ha : (path, a) ∈ hs.map.entries)
    (hb : (path', a) ∈ hs.map.entries) : path = path' :=
  congrArg Prod.fst (List.inj_on_of_nodup_map hh.addrs ha hb rfl)

theorem search_some {path : Text} {a : ℕ} (h : hs.map.search path = some a) :
    (path, a) ∈ hs.map.entries := by
  obtain ⟨k, heq, hmem⟩ := RbTreeMap.search_some h
  obtain rfl := Std.LawfulEqCmp.eq_of_compare heq
  exact hmem

theorem search_none {path : Text} (h : hs.map.search path = none) (a : ℕ) :
    (path, a) ∉ hs.map.entries := fun hmem ↦
  RbTreeMap.search_none h _ hmem Std.ReflCmp.compare_self

theorem found (hh : hs.Holds T) {path : Text} {a : ℕ} (ha : (path, a) ∈ hs.map.entries) :
    ∃ h, hs.memory[a]? = some h ∧ T path = some h := by
  have hlt := hh.inside _ ha
  have hget : hs.memory[a]? = some hs.memory[a] := List.getElem?_eq_getElem hlt
  exact ⟨_, hget, (hh.table path _).mpr ⟨a, ha, hget⟩⟩

theorem table_none (hh : hs.Holds T) {path : Text} :
    T path = none ↔ ∀ a, (path, a) ∉ hs.map.entries := by
  constructor
  · intro h a ha
    obtain ⟨_, -, hT⟩ := hh.found ha
    rw [h] at hT
    cases hT
  · intro h
    cases hT : T path with
    | none => rfl
    | some x =>
      obtain ⟨a, ha, -⟩ := (hh.table path x).mp hT
      exact (h a ha).elim

theorem replace (hh : hs.Holds T) {path : Text} {a : ℕ} (hmem : (path, a) ∈ hs.map.entries)
    (method : Text) (g : Given σ ω) :
    (⟨hs.map, hs.memory.modify a (·.assign g)⟩ : Handlers σ ω).Holds
      (T.register method path g) := by
  obtain ⟨h, hget, hT⟩ := hh.found hmem
  refine ⟨hh.keys, hh.addrs, fun e he ↦ ?_, fun path' x ↦ ?_, hh.named.register method path g⟩
  · simpa using hh.inside e he
  · rw [Table.register, hT]
    by_cases hpath : path' = path
    · subst hpath
      simp only [Function.update_self, Option.getD_some, Option.some.injEq]
      constructor
      · rintro rfl
        exact ⟨a, hmem, by simp [hget]⟩
      · rintro ⟨b, hb, hx⟩
        obtain rfl := hh.key_inj hmem hb
        simpa [hget] using hx
    · have hne : ∀ b, (path', b) ∈ hs.map.entries → a ≠ b := by
        rintro b hb rfl
        exact hpath (hh.addr_inj hb hmem)
      rw [Function.update_of_ne hpath, hh.table path' x]
      refine exists_congr fun b ↦ and_congr_right fun hb ↦ ?_
      rw [List.getElem?_modify_ne _ _ (hne b hb)]

theorem add (hh : hs.Holds T) (rb : Rebalance (Text × ℕ)) {path : Text}
    (hnew : ∀ a, (path, a) ∉ hs.map.entries) (method : Text) (g : Given σ ω) :
    (⟨hs.map.add rb path hs.memory.length, hs.memory ++ [(Handler.new method path).assign g]⟩ :
      Handlers σ ω).Holds (T.register method path g) := by
  have hT : T path = none := hh.table_none.mpr hnew
  have hperm := RbTreeMap.entries_add rb hs.map path hs.memory.length
  have hentry (e : Text × ℕ) : e ∈ (hs.map.add rb path hs.memory.length).entries ↔
      e = (path, hs.memory.length) ∨ e ∈ hs.map.entries := by
    rw [hperm.mem_iff, List.mem_cons]
  refine ⟨?_, ?_, fun e he ↦ ?_, fun path' x ↦ ?_, hh.named.register method path g⟩
  · rw [(hperm.map Prod.fst).nodup_iff, List.map_cons, List.nodup_cons]
    refine ⟨fun hin ↦ ?_, hh.keys⟩
    obtain ⟨⟨_, a⟩, ha, rfl⟩ := List.mem_map.mp hin
    exact hnew a ha
  · rw [(hperm.map Prod.snd).nodup_iff, List.map_cons, List.nodup_cons]
    refine ⟨fun hin ↦ ?_, hh.addrs⟩
    obtain ⟨e, he, heq⟩ := List.mem_map.mp hin
    exact Nat.ne_of_lt (hh.inside e he) heq
  · rw [List.length_append]
    rcases (hentry e).mp he with rfl | he
    · exact Nat.lt_succ_self _
    · exact Nat.lt_succ_of_lt (hh.inside e he)
  · rw [Table.register, hT]
    by_cases hpath : path' = path
    · subst hpath
      simp only [Function.update_self, Option.getD_none, Option.some.injEq, hentry]
      constructor
      · rintro rfl
        exact ⟨_, Or.inl rfl, by simp⟩
      · rintro ⟨b, hb | hb, hx⟩
        · obtain rfl := (Prod.mk.inj hb).2
          simpa using hx
        · exact (hnew b hb).elim
    · rw [Function.update_of_ne hpath, hh.table path' x]
      refine exists_congr fun b ↦ ?_
      rw [hentry]
      constructor
      · rintro ⟨hb, hx⟩
        exact ⟨Or.inr hb, by rw [List.getElem?_append_left (hh.inside _ hb), hx]⟩
      · rintro ⟨hb | hb, hx⟩
        · exact (hpath (Prod.mk.inj hb).1).elim
        · exact ⟨hb, by rwa [List.getElem?_append_left (hh.inside _ hb)] at hx⟩

theorem register (hh : hs.Holds T) (rb : Rebalance (Text × ℕ)) (method path : Text)
    (g : Given σ ω) : (hs.register rb method path g).Holds (T.register method path g) := by
  rw [Handlers.register]
  cases hsearch : hs.map.search path with
  | some a => exact hh.replace (search_some hsearch) method g
  | none => exact hh.add rb (search_none hsearch) method g

theorem scan_some (hh : hs.Holds T) {uri : Text} {b : ℕ}
    (h : hs.map.entries.findSome? (wildcard_match_callback uri none) = some b) :
    ∃ p, (pattern p, b) ∈ hs.map.entries ∧ (p <+: uri ∧ p.length < uri.length) ∧
      ∀ q a, (pattern q, a) ∈ hs.map.entries → q <+: uri → q.length < uri.length →
        q = p ∨ strcmp (pattern p) (pattern q) = .lt := by
  obtain ⟨front, ⟨k, c⟩, rest, hsplit, hfound, hfront⟩ := List.findSome?_eq_some_iff.mp h
  obtain ⟨rfl, p, rfl, hloose⟩ := wildcard_match_callback_eq_some.mp hfound
  refine ⟨p, by simp [hsplit], hloose, fun q a hq hprefix hlt ↦ ?_⟩
  have hmatch : wildcard_match_callback uri none (pattern q, a) = some a :=
    wildcard_match_callback_eq_some.mpr ⟨rfl, q, rfl, hprefix, hlt⟩
  have hsorted := hs.map.sorted
  have hkeys := hh.keys
  rw [Sorted, ← RbTreeMap.entries, hsplit, List.pairwise_append, List.pairwise_cons] at hsorted
  rw [hsplit, List.map_append, List.map_cons, List.nodup_append, List.nodup_cons] at hkeys
  rw [hsplit, List.mem_append, List.mem_cons] at hq
  rcases hq with hq | hq | hq
  · rw [hfront _ hq] at hmatch
    cases hmatch
  · exact .inl (pattern_inj (Prod.mk.inj hq).1)
  · right
    have hle := hsorted.2.1.1 _ hq
    have hne : pattern p ≠ pattern q := fun heq ↦
      hkeys.2.1.1 (List.mem_map.mpr ⟨_, hq, heq.symm⟩)
    cases hcmp : strcmp (pattern p) (pattern q) with
    | lt => rfl
    | eq => exact (hne (Std.LawfulEqCmp.eq_of_compare hcmp)).elim
    | gt =>
      rw [hcmp] at hle
      cases hle

theorem find_none (hh : hs.Holds T) {uri : Text} (h : hs.find uri = none) :
    T uri = none ∧ ∀ p, (T (pattern p)).isSome → p <+: uri → ¬p.length < uri.length := by
  rw [Handlers.find] at h
  cases hsearch : hs.map.search uri with
  | some a =>
    rw [hsearch] at h
    cases h
  | none =>
    rw [hsearch, foldl_wildcard_match_callback] at h
    refine ⟨hh.table_none.mpr (search_none hsearch), fun p hp hprefix hlt ↦ ?_⟩
    obtain ⟨x, hx⟩ := Option.isSome_iff_exists.mp hp
    obtain ⟨a, ha, -⟩ := (hh.table _ x).mp hx
    have hmatch : wildcard_match_callback uri none (pattern p, a) = some a :=
      wildcard_match_callback_eq_some.mpr ⟨rfl, p, rfl, hprefix, hlt⟩
    rw [List.findSome?_eq_none_iff.mp h _ ha] at hmatch
    cases hmatch

theorem find_some (hh : hs.Holds T) {uri : Text} {b : ℕ} (h : hs.find uri = some b) :
    ∃ x, hs.memory[b]? = some x ∧ x.callback.isSome ∧
      (T.Chooses uri (some x) ↔ T.Settles uri) := by
  rw [Handlers.find] at h
  cases hsearch : hs.map.search uri with
  | some a =>
    rw [hsearch] at h
    cases h
    obtain ⟨x, hget, hT⟩ := hh.found (search_some hsearch)
    exact ⟨x, hget, (hh.named uri x hT).1,
      iff_of_true (.inl hT) (.inl (Option.isSome_iff_exists.mpr ⟨x, hT⟩))⟩
  | none =>
    rw [hsearch, foldl_wildcard_match_callback] at h
    have hnone : T uri = none := hh.table_none.mpr (search_none hsearch)
    obtain ⟨p, hmem, hloose, hfirst⟩ := hh.scan_some h
    obtain ⟨x, hget, hT⟩ := hh.found hmem
    refine ⟨x, hget, (hh.named _ x hT).1, ?_, ?_⟩
    · rintro (hx | ⟨-, q, hq, hbelow⟩)
      · rw [hnone] at hx
        cases hx
      · have hpq : q = p :=
          pattern_inj ((hh.named _ x hq).2.symm.trans (hh.named _ x hT).2)
        subst hpq
        refine .inr fun r hr hprefix hlt hnot ↦ ⟨q, ?_, hbelow, ?_⟩
        · exact Option.isSome_iff_exists.mpr ⟨x, hT⟩
        · obtain ⟨y, hy⟩ := Option.isSome_iff_exists.mp hr
          obtain ⟨a, ha, -⟩ := (hh.table _ y).mp hy
          rcases hfirst r a ha hprefix hlt with rfl | hlt
          · exact (hnot hbelow).elim
          · exact hlt
    · rintro (hsome | hsettles)
      · rw [hnone] at hsome
        cases hsome
      · by_cases hbelow : Below p uri
        · exact .inr ⟨hnone, p, hT, hbelow⟩
        · have hp : (T (pattern p)).isSome := Option.isSome_iff_exists.mpr ⟨x, hT⟩
          obtain ⟨q, hq, hqbelow, hlt⟩ := hsettles p hp hloose.1 hloose.2 hbelow
          obtain ⟨y, hy⟩ := Option.isSome_iff_exists.mp hq
          obtain ⟨a, ha, -⟩ := (hh.table _ y).mp hy
          rcases hfirst q a ha hqbelow.loose.1 hqbelow.loose.2 with rfl | hgt
          · exact (hbelow hqbelow).elim
          · rw [Std.OrientedCmp.gt_of_lt hlt] at hgt
            cases hgt

end Handlers.Holds

/-! ## The callbacks of a request -/

namespace Outcome

/-- The callbacks `done` were called, and none has failed. -/
structure Good (o : Outcome σ ω) (h : Handler σ ω) (done : List Stage) : Prop where
  handler : o.handler = some h
  order : o.called.map Prod.fst = done
  nonneg : ∀ e ∈ o.called, 0 ≤ e.2
  ret : o.ret = 1

/-- The callbacks `done` were called, and the last one has failed. -/
structure Failed (o : Outcome σ ω) (h : Handler σ ω) (done : List Stage) : Prop where
  handler : o.handler = some h
  order : o.called.map Prod.fst = done
  stops : ∀ e ∈ o.called.dropLast, 0 ≤ e.2
  fails : ∃ e ∈ o.called, e.2 < 0
  ret : o.ret < 0

variable {o : Outcome σ ω} {h : Handler σ ω} {done : List Stage}

theorem Good.exec (hg : o.Good h done) (stage : Stage) (callback : Option (Callback σ ω))
    (arg : Option ω) :
    (o.exec stage callback arg).Good h (done ++ if callback.isSome then [stage] else []) ∨
      (o.exec stage callback arg).Failed h (done ++ if callback.isSome then [stage] else []) := by
  cases callback with
  | none => exact .inl ⟨hg.handler, by simpa [Outcome.exec] using hg.order, hg.nonneg, hg.ret⟩
  | some f =>
    by_cases hret : (f arg o.state).2 < 0
    · refine .inr ⟨hg.handler, by simp [Outcome.exec, hg.order], ?_, ?_,
        by simp [Outcome.exec, hret]⟩
      · simpa [Outcome.exec] using hg.nonneg
      · exact ⟨_, List.mem_append_right _ (List.mem_singleton_self _), hret⟩
    · refine .inl ⟨hg.handler, by simp [Outcome.exec, hg.order], fun e he ↦ ?_, ?_⟩
      · rcases List.mem_append.mp he with he | he
        · exact hg.nonneg e he
        · rw [List.mem_singleton.mp he]
          exact Int.not_lt.mp hret
      · simp [Outcome.exec, hret, hg.ret]

theorem Good.continues (hg : o.Good h done) : ¬o.ret < 0 := by
  rw [hg.ret]
  decide

theorem Good.orderly (hg : o.Good h h.stages) : o.Orderly where
  order := by rw [hg.order, hg.handler]; exact List.prefix_rfl
  stops e he := hg.nonneg e (List.mem_of_mem_dropLast he)
  ends _ := by rw [hg.order, hg.handler]; rfl

theorem Failed.orderly (hf : o.Failed h done) (hdone : done <+: h.stages) : o.Orderly where
  order := by rw [hf.order, hf.handler]; exact hdone
  stops := hf.stops
  ends hall := by
    obtain ⟨e, he, hneg⟩ := hf.fails
    exact (Int.not_lt.mpr (hall e he) hneg).elim

end Outcome

theorem Handler.serve_spec {h : Handler σ ω} (hmain : h.callback.isSome) (state : σ) :
    ∃ o, h.serve state = some o ∧ o.handler = some h ∧ o.Orderly := by
  obtain ⟨main, heq⟩ := Option.isSome_iff_exists.mp hmain
  have hstart : (⟨some h, [], 1, state⟩ : Outcome σ ω).Good h [] :=
    ⟨rfl, rfl, fun _ he ↦ (List.not_mem_nil he).elim, rfl⟩
  have hstages : h.stages = ([] ++ if h.pre_callback.isSome then [Stage.pre] else []) ++
      (if (some main).isSome then [.main] else []) ++
        if h.post_callback.isSome then [.post] else [] := by
    rw [Handler.stages, heq, List.nil_append]
  rw [Handler.serve]
  rcases hstart.exec .pre h.pre_callback h.arg with hpre | hpre
  · simp only [hpre.continues, if_false, heq, Option.bind_eq_bind, Option.bind_some]
    rcases hpre.exec .main (some main) h.arg with hm | hm
    · simp only [hm.continues, if_false]
      rcases hm.exec .post h.post_callback h.arg with hpost | hpost
      · exact ⟨_, rfl, hpost.handler, Outcome.Good.orderly (hstages ▸ hpost)⟩
      · exact ⟨_, rfl, hpost.handler, hpost.orderly (by rw [hstages])⟩
    · simp only [hm.ret, if_true]
      exact ⟨_, rfl, hm.handler, hm.orderly (by rw [hstages]; exact List.prefix_append _ _)⟩
  · simp only [hpre.ret, if_true]
    refine ⟨_, rfl, hpre.handler, hpre.orderly ?_⟩
    rw [hstages, List.append_assoc _ _ (if h.post_callback.isSome then [Stage.post] else [])]
    exact List.prefix_append _ _

/-! ## Servers -/

def Server.handlers (s : Server σ ω) : Methods → Handlers σ ω
  | .get => s.get_handlers
  | .post => s.post_handlers
  | .other => s.other_handlers

theorem handlers_requested (s : Server σ ω) (method : Text) :
    s.handlers (.requested method) =
      if method = ascii "GET" ∨ method = ascii "HEAD" then s.get_handlers
      else if method = ascii "POST" then s.post_handlers
      else s.other_handlers := by
  rw [Methods.requested]
  split
  · rfl
  · split <;> rfl

theorem handlers_register_handler (rb : Rebalance (Text × ℕ)) (s : Server σ ω)
    (method path : Text) (g : Given σ ω) :
    (register_handler rb s method path g).handlers =
      Function.update s.handlers (.registered method)
        ((s.handlers (.registered method)).register rb method path g) := by
  rw [register_handler, Methods.registered]
  funext m
  split
  · cases m <;> rfl
  · split <;> cases m <;> rfl

theorem holds_server (rb : Rebalance (Text × ℕ)) (rs : List (Registration σ ω)) (m : Methods) :
    ((server rb rs).handlers m).Holds (tables rs m) := by
  have hrun : ∀ (s : Server σ ω) (T : Methods → Table σ ω), (∀ m, (s.handlers m).Holds (T m)) →
      ∀ m, ((rs.foldl (fun s r ↦ register_handler rb s r.method r.path r.given) s).handlers m).Holds
        (rs.foldl enter T m) := by
    induction rs with
    | nil => exact fun s T h m ↦ h m
    | cons r rs ih =>
      intro s T h
      apply ih
      intro m
      rw [handlers_register_handler, enter]
      by_cases hm : m = .registered r.method
      · subst hm
        rw [Function.update_self, Function.update_self]
        exact (h _).register rb r.method r.path r.given
      · rw [Function.update_of_ne hm, Function.update_of_ne hm]
        exact h m
  apply hrun
  intro m
  cases m <;> exact .empty

/-- Whatever is registered and requested, the request gets the right handler exactly where the
routes settle it. -/
theorem dispatches_iff (rb : Rebalance (Text × ℕ)) (rs : List (Registration σ ω))
    (not_found response : σ → σ) (method uri : Text) (state : σ) :
    (∃ o, process_dynamic_request not_found response (server rb rs) method uri state = some o ∧
        Dispatched (tables rs (.requested method)) not_found response uri state o) ↔
      (tables rs (.requested method)).Settles uri := by
  have hh := holds_server rb rs (.requested method)
  rw [process_dynamic_request, ← handlers_requested]
  cases hfind : ((server rb rs).handlers (.requested method)).find uri with
  | none =>
    obtain ⟨hnone, hpatterns⟩ := hh.find_none hfind
    refine iff_of_true ⟨_, rfl, ?_, ⟨List.nil_prefix, by simp, fun _ ↦ rfl⟩, fun _ ↦ ⟨rfl, rfl⟩⟩
      (.inr fun p hp hprefix hlt ↦ (hpatterns p hp hprefix hlt).elim)
    refine ⟨hnone, fun p hbelow ↦ ?_⟩
    by_contra hne
    exact hpatterns p (Option.isSome_iff_ne_none.mpr hne) hbelow.loose.1 hbelow.loose.2
  | some a =>
    obtain ⟨h, hget, hmain, hiff⟩ := hh.find_some hfind
    obtain ⟨o, hserve, hhandler, horder⟩ := Handler.serve_spec hmain state
    rw [← hiff]
    simp only [hget, hserve, Option.bind_eq_bind, Option.bind_some, Option.pure_def]
    constructor
    · rintro ⟨_, heq, hchooses, -, -⟩
      rw [← Option.some.inj heq] at hchooses
      exact hhandler ▸ hchooses
    · intro hchooses
      refine ⟨_, rfl, ?_, ⟨horder.order, horder.stops, horder.ends⟩, fun hnone ↦ ?_⟩
      · rw [← hhandler] at hchooses
        exact hchooses
      · rw [show o.handler = none from hnone] at hhandler
        cases hhandler

/-- The handler of uploads to a path. -/
def uploads : List (Registration Unit ℕ) :=
  [⟨ascii "POST", ascii "/api/upload/*", ⟨none, fun _ s ↦ (s, 0), none, none⟩⟩]

/-- A path that only begins like the one of a pattern gets its handler. -/
theorem not_dispatches :
    ¬∃ o, process_dynamic_request id id (server (.small _) uploads) (ascii "POST")
        (ascii "/api/uploads") () = some o ∧
      Dispatched (tables uploads (.requested (ascii "POST"))) id id
        (ascii "/api/uploads") () o := by
  rintro ⟨o, hprocess, hchooses, -, -⟩
  have hpath : ((process_dynamic_request id id (server (.small _) uploads) (ascii "POST")
      (ascii "/api/uploads") ()).bind Outcome.handler).map Handler.path =
        some (pattern (ascii "/api/upload")) := by decide
  rw [hprocess, Option.bind_some, Option.map_eq_some_iff] at hpath
  obtain ⟨x, hx, hpath⟩ := hpath
  have hnamed := (holds_server (.small _) uploads (.requested (ascii "POST"))).named
  rw [hx] at hchooses
  rcases hchooses with hself | ⟨-, p, hp, hbelow⟩
  · have heq := (hnamed _ x hself).2.symm.trans hpath
    have hne : ascii "/api/uploads" ≠ pattern (ascii "/api/upload") := by decide
    exact hne heq
  · obtain rfl := pattern_inj ((hnamed _ x hp).2.symm.trans hpath)
    have hnot : ¬Below (ascii "/api/upload") (ascii "/api/uploads") := by decide
    exact hnot hbelow

end Libobject.Http.Dispatch
