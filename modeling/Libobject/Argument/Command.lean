import Libobject.Core.String

/-!
# Parsing of a command line

A command has options, arguments and subcommands, and goes through its words from left to right. A
subcommand is handed the rest of them. What is set on the way is kept as a list of actions, each
with the number of words behind the one it is for; behind the choice of a subcommand the actions are
the subcommand's. Values are kept in strings, and one that is written behind its buffer is
undefined.
-/

namespace Libobject.Argument

open Scan

/-! ## Commands -/

/-- An option without a value has a null pointer there. -/
structure CmdOption where
  name : Text
  aliasName : Text
  value : Option Str
  set_flag : Bool
  multi_value_flag : Bool

structure Arg where
  value : Option Str
  set_flag : Bool

/-- A command without arguments has no vector for them. -/
structure Command where
  name : Text
  options : List CmdOption
  args : Option (List Arg)
  subcommands : List Command
  selected_subcommand : Option ℕ

/-- Options, arguments and subcommands are named by their places. -/
inductive Action
  | value (option : ℕ) (value : Text)
  | append (option : ℕ) (value : Text)
  | flag (option : ℕ)
  | argument (arg : ℕ) (value : Text)
  | select (subcommand : ℕ) (argv : List Text)
  deriving DecidableEq

/-- The slots of a vector that `n` elements were added to. -/
def capacity : ℕ → ℕ
  | 0 => 20
  | n + 1 => if capacity n ≤ n then 2 * capacity n else capacity n

namespace Command

variable (c : Command)

def get_option (option_name : Text) : Option ℕ :=
  c.options.findIdx? fun o ↦ o.name = option_name ∨ o.aliasName = option_name

def get_subcommand (command_name : Text) : Option ℕ :=
  c.subcommands.findIdx? fun s ↦ s.name = command_name

/-- `add_argument` gives a new argument the value "". -/
def setArg (arg : ℕ) (value : Text) (args : List Arg) : Option (List Arg) := do
  let args := if arg < args.length then args else args ++ [⟨some Str.init, false⟩]
  let o ← args[arg]?
  let v ← (o.value.getD Str.init).assign value
  return args.set arg ⟨some v, true⟩

/-- `assign` to the string that is there, or to a new one. -/
def CmdOption.set (value : Text) (o : CmdOption) : Option CmdOption := do
  let v ← (o.value.getD Str.init).assign value
  return { o with value := some v, set_flag := true }

/-- A second value goes behind the first. -/
def CmdOption.add (value : Text) (o : CmdOption) : Option CmdOption :=
  if o.set_flag then do
    let v ← o.value
    let v ← v.append (some [59]) (-1)
    let v ← v.append (some value) (-1)
    return { o with multi_value_flag := true, value := some v }
  else CmdOption.set value o

def setOption (k : ℕ) (f : CmdOption → Option CmdOption) : Option Command := do
  let o ← c.options[k]?
  let o ← f o
  return { c with options := c.options.set k o }

/-- What an action sets; the actions of a subcommand are not its own. -/
def act : Action → Option Command
  | .value k v => c.setOption k (CmdOption.set v)
  | .append k v => c.setOption k (CmdOption.add v)
  | .flag k => c.setOption k fun o ↦ some { o with set_flag := true }
  | .argument n v => do
    let args ← c.args
    let args ← setArg n v args
    return { c with args := some args }
  | .select j _ => some { c with selected_subcommand := some j }

end Command

/-! ## Words -/

def is_arg_option (arg : Text) : Bool := arg.head? = some 45

/-- The place of the first equal sign, or 0 without one. -/
def does_option_contains_equal_sign (option : Text) : ℕ :=
  if 61 ∈ option then option.idxOf 61 else 0

/-- The pieces of a split at equal signs, at `num` of them at most. -/
def split : ℕ → Text → List Text
  | 0, pos => if pos ≠ [] then [pos] else []
  | num + 1, pos =>
    if 61 ∈ pos then
      let so := pos.idxOf 61
      (if so ≠ 0 then [pos.take so] else []) ++ split num (pos.drop (so + 1))
    else if pos ≠ [] then [pos] else []

namespace Command

variable (c : Command)

/-- The value and its option, if there are two pieces and such an option. -/
def parse_option_value_with_equal_sign (option : Text) : List Action :=
  match split 2 option with
  | [key, value] =>
    match c.get_option key with
    | none => []
    | some k => [.value k value]
  | _ => []

/-- -1, 0 and 1. -/
def does_option_need_value (option : Text) : Option Bool := do
  let k ← c.get_option option
  let o ← c.options[k]?
  return o.value.isSome

/-- What was done for the word that `n` words are behind of, and then the rest. -/
def did (n : ℕ) (actions : List Action) (r : List (ℕ × Action) × Command) :
    List (ℕ × Action) × Command :=
  (actions.map (Prod.mk n) ++ r.1, r.2)

/-- The actions and what becomes of the command; `none` when a word is read that is not there, or a
slot that the vector of arguments does not have, and when a string is too short. -/
def parse (c : Command) (arg_cnt : ℕ) : List Text → Option (List (ℕ × Action) × Command)
  | [] => some ([], c)
  | word :: rest =>
    if is_arg_option word then
      if does_option_contains_equal_sign word ≠ 0 then
        let actions := c.parse_option_value_with_equal_sign word
        (Str.init.assign word).bind fun _ ↦ (actions.foldlM act c).bind fun c ↦
          (parse c arg_cnt rest).map (did rest.length actions)
      else
        match c.get_option word, c.does_option_need_value word with
        | some k, some true =>
          match rest with
          | [] => none
          | next :: rest' =>
            if (c.get_subcommand next).isSome then parse c arg_cnt (next :: rest')
            else
              (c.act (.append k next)).bind fun c ↦ (parse c arg_cnt rest').map
                (did (rest'.length + 1) [.append k next])
        | some k, some false =>
          (c.act (.flag k)).bind fun c ↦
            (parse c arg_cnt rest).map (did rest.length [.flag k])
        | _, _ => parse c arg_cnt rest
    else
      match c.get_subcommand word with
      | some j => do
        let s ← c.subcommands[j]?
        let (actions, s') ← parse s 0 rest
        let c ← c.act (.select j (word :: rest))
        return did rest.length [.select j (word :: rest)]
          (actions, { c with subcommands := c.subcommands.set j s' })
      | none =>
        match c.args with
        | none => parse c arg_cnt rest
        | some args =>
          if arg_cnt < capacity args.length then
            (c.act (.argument arg_cnt word)).bind fun c ↦
              (parse c (arg_cnt + 1) rest).map (did rest.length [.argument arg_cnt word])
          else none

/-- Nothing but the words behind the first is parsed. -/
def parse_args (argv : List Text) : Option (List (ℕ × Action) × Command) := c.parse 0 argv.tail

end Command

/-! ## What the words ask for -/

/-- The text in front of the first equal sign, and the one behind it. -/
def key (word : Text) : Text := word.take (word.idxOf 61)

def valueOf (word : Text) : Text := word.drop (word.idxOf 61 + 1)

namespace Command

/-- The option has a value in its declaration. -/
def takesValue (c : Command) (k : ℕ) : Bool := (c.options[k]?.bind CmdOption.value).isSome

def asked (c : Command) (arg_cnt : ℕ) : List Text → List (ℕ × Action)
  | [] => []
  | word :: rest =>
    if is_arg_option word then
      if 61 ∈ word then
        match c.get_option (key word) with
        | none => asked c arg_cnt rest
        | some k => (rest.length, .value k (valueOf word)) :: asked c arg_cnt rest
      else
        match c.get_option word with
        | none => asked c arg_cnt rest
        | some k =>
          if c.takesValue k then
            match rest with
            | [] => []
            | next :: rest' =>
              if (c.get_subcommand next).isSome then asked c arg_cnt (next :: rest')
              else (rest'.length + 1, .append k next) :: asked c arg_cnt rest'
          else (rest.length, .flag k) :: asked c arg_cnt rest
    else
      match c.get_subcommand word with
      | some j => (rest.length, .select j (word :: rest)) ::
          c.subcommands[j]?.elim [] fun s ↦ asked s 0 rest
      | none => (rest.length, .argument arg_cnt word) :: asked c (arg_cnt + 1) rest

/-- The command after the actions, if the strings have room for them. -/
def final (c : Command) : List Action → Option Command
  | [] => some c
  | .select j argv :: actions => do
    let s ← c.subcommands[j]?
    let s ← final s actions
    let c ← c.act (.select j argv)
    return { c with subcommands := c.subcommands.set j s }
  | action :: actions => (c.act action).bind fun c ↦ final c actions

/-- Only the words are read, and what they ask for is set and nothing else. -/
def Parses (c : Command) (argv : List Text) : Prop :=
  ∃ c', c.final ((c.asked 0 argv.tail).map Prod.snd) = some c' ∧
    c.parse_args argv = some (c.asked 0 argv.tail, c')

/-- Words that are parsed as they are meant: a word with an equal sign fits in a string, and the
value behind it is neither empty nor has another one, no option that takes a value is the last word,
a flag that was `given` a value is not set without one afterwards, and for every other word in front
of a subcommand the vector of arguments has a slot. -/
def Regular (c : Command) (given : List ℕ) (arg_cnt : ℕ) : List Text → Prop
  | [] => True
  | word :: rest =>
    if is_arg_option word then
      if 61 ∈ word then
        word.length + 1 < 2 ^ 30 ∧
          match c.get_option (key word) with
          | none => Regular c given arg_cnt rest
          | some k =>
            (valueOf word ≠ [] ∧ 61 ∉ valueOf word) ∧ Regular c (k :: given) arg_cnt rest
      else
        match c.get_option word with
        | none => Regular c given arg_cnt rest
        | some k =>
          if c.takesValue k then
            match rest with
            | [] => False
            | next :: rest' =>
              if (c.get_subcommand next).isSome then Regular c given arg_cnt (next :: rest')
              else Regular c given arg_cnt rest'
          else k ∉ given ∧ Regular c given arg_cnt rest
    else
      match c.get_subcommand word with
      | some j => ∀ s, c.subcommands[j]? = some s → Regular s [] 0 rest
      | none =>
        (∃ args, c.args = some args ∧ arg_cnt < capacity (max args.length arg_cnt)) ∧
          Regular c given (arg_cnt + 1) rest

end Command

/-! ## Splitting at equal signs -/

theorem split_one_eq_self_iff (v : Text) : split 1 v = [v] ↔ v ≠ [] ∧ 61 ∉ v := by
  rw [split]
  by_cases h : 61 ∈ v
  · rw [if_pos h]
    refine iff_of_false (fun heq ↦ ?_) (fun hv ↦ hv.2 h)
    -- each of the pieces is shorter than the text
    have hlt : v.idxOf 61 < v.length := List.idxOf_lt_length_iff.mpr h
    have hshort : ∀ w ∈ (if v.idxOf 61 ≠ 0 then [v.take (v.idxOf 61)] else []) ++
        split 0 (v.drop (v.idxOf 61 + 1)), w.length < v.length := by
      intro w hw
      rcases List.mem_append.mp hw with hw | hw
      · split at hw
        · rw [List.mem_singleton.mp hw, List.length_take]
          omega
        · exact (List.not_mem_nil hw).elim
      · rw [split] at hw
        split at hw
        · rw [List.mem_singleton.mp hw, List.length_drop]
          omega
        · exact (List.not_mem_nil hw).elim
    dsimp only at heq
    rw [heq] at hshort
    exact Nat.lt_irrefl _ (hshort v List.mem_cons_self)
  · rw [if_neg h]
    by_cases hnil : v = []
    · rw [if_neg fun hne ↦ hne hnil]
      exact iff_of_false (List.cons_ne_nil _ _).symm fun hv ↦ hv.1 hnil
    · rw [if_pos hnil]
      exact iff_of_true rfl ⟨hnil, h⟩

theorem idxOf_ne_zero {word : Text} (hdash : is_arg_option word = true) (h : 61 ∈ word) :
    word.idxOf 61 ≠ 0 := by
  cases word with
  | nil => exact (List.not_mem_nil h).elim
  | cons c word =>
    have hc : c = 45 := by simpa [is_arg_option] using hdash
    rw [hc, List.idxOf_cons_ne _ (by decide)]
    exact Nat.succ_ne_zero _

theorem contains_iff {word : Text} (hdash : is_arg_option word = true) :
    does_option_contains_equal_sign word ≠ 0 ↔ 61 ∈ word := by
  rw [does_option_contains_equal_sign]
  by_cases h : 61 ∈ word
  · rw [if_pos h]
    exact iff_of_true (idxOf_ne_zero hdash h) h
  · rw [if_neg h]
    exact iff_of_false (fun hne ↦ hne rfl) h

theorem split_two {word : Text} (hdash : is_arg_option word = true) (h : 61 ∈ word) :
    split 2 word = key word :: split 1 (valueOf word) := by
  rw [split, if_pos h]
  dsimp only
  rw [if_pos (idxOf_ne_zero hdash h), List.singleton_append]
  rfl

namespace Command

section Equal

variable {c : Command} {word : Text} {k : ℕ}

theorem parse_equal_none (hdash : is_arg_option word = true) (h : 61 ∈ word)
    (hk : c.get_option (key word) = none) : c.parse_option_value_with_equal_sign word = [] := by
  rw [parse_option_value_with_equal_sign, split_two hdash h]
  rcases split 1 (valueOf word) with - | ⟨v, - | ⟨w, ws⟩⟩
  · rfl
  · dsimp only
    rw [hk]
  · rfl

theorem parse_equal_some (hdash : is_arg_option word = true) (h : 61 ∈ word)
    (hk : c.get_option (key word) = some k) :
    (c.parse_option_value_with_equal_sign word = [] ∨
      ∃ v, c.parse_option_value_with_equal_sign word = [.value k v]) ∧
    (c.parse_option_value_with_equal_sign word = [.value k (valueOf word)] ↔
      valueOf word ≠ [] ∧ 61 ∉ valueOf word) := by
  rw [← split_one_eq_self_iff, parse_option_value_with_equal_sign, split_two hdash h]
  rcases split 1 (valueOf word) with - | ⟨v, - | ⟨w, ws⟩⟩
  · exact ⟨.inl rfl, iff_of_false (List.cons_ne_nil _ _).symm (List.cons_ne_nil _ _).symm⟩
  · dsimp only
    rw [hk]
    refine ⟨.inr ⟨v, rfl⟩, ?_⟩
    simp
  · refine ⟨.inl rfl, iff_of_false (List.cons_ne_nil _ _).symm fun heq ↦ ?_⟩
    have hlen := congrArg List.length heq
    simp at hlen

end Equal

/-! ## The command on the way -/

theorem does_option_need_value_eq {c : Command} {word : Text} {k : ℕ}
    (h : c.get_option word = some k) : c.does_option_need_value word = some (c.takesValue k) := by
  obtain ⟨hk, -⟩ := List.findIdx?_eq_some_iff_getElem.mp h
  rw [does_option_need_value, h, takesValue]
  simp [List.getElem?_eq_getElem hk]

/-- What was declared and what has become of it: the options that were `given` a value have one. -/
structure Progress (c₀ c : Command) (given : List ℕ) (arg_cnt : ℕ) : Prop where
  names : c.options.map (fun o ↦ (o.name, o.aliasName)) =
    c₀.options.map (fun o ↦ (o.name, o.aliasName))
  values : ∀ k < c₀.options.length, c.takesValue k = true ↔ c₀.takesValue k = true ∨ k ∈ given
  subs : c.subcommands = c₀.subcommands
  args : c.args.map List.length = c₀.args.map fun args ↦ max args.length arg_cnt

namespace Progress

variable {c₀ c : Command} {given : List ℕ} {arg_cnt : ℕ}

theorem refl (c : Command) : Progress c c [] 0 where
  names := rfl
  values k _ := by simp
  subs := rfl
  args := by simp

theorem get_option (h : Progress c₀ c given arg_cnt) (word : Text) :
    c.get_option word = c₀.get_option word := by
  have hmap (c : Command) : c.get_option word =
      (c.options.map fun o ↦ (o.name, o.aliasName)).findIdx? fun p ↦ p.1 = word ∨ p.2 = word := by
    rw [List.findIdx?_map]
    rfl
  rw [hmap, h.names, ← hmap]

theorem get_subcommand (h : Progress c₀ c given arg_cnt) (word : Text) :
    c.get_subcommand word = c₀.get_subcommand word := by
  rw [Command.get_subcommand, h.subs]
  rfl

theorem lt_length {word : Text} {k : ℕ} (h : c₀.get_option word = some k) :
    k < c₀.options.length := (List.findIdx?_eq_some_iff_getElem.mp h).1

theorem length_options (h : Progress c₀ c given arg_cnt) :
    c.options.length = c₀.options.length := by
  have hlen := congrArg List.length h.names
  rwa [List.length_map, List.length_map] at hlen

theorem values_of_get (h : Progress c₀ c given arg_cnt) {k : ℕ} {o : CmdOption}
    (ho : c.options[k]? = some o) :
    o.value.isSome = true ↔ c₀.takesValue k = true ∨ k ∈ given := by
  obtain ⟨hk, -⟩ := List.getElem?_eq_some_iff.mp ho
  rw [h.length_options] at hk
  rw [← h.values k hk, takesValue, ho, Option.bind_some]

/-- One option is set, and says whether it has been given a value. -/
theorem modify (h : Progress c₀ c given arg_cnt) {k : ℕ} {f : CmdOption → Option CmdOption}
    {c' : Command} (hact : c.setOption k f = some c') {given' : List ℕ}
    (hf : ∀ o o', c.options[k]? = some o → f o = some o' →
      (o'.name, o'.aliasName) = (o.name, o.aliasName) ∧
        (o'.value.isSome = true ↔ c₀.takesValue k = true ∨ k ∈ given'))
    (hgiven : ∀ j ≠ k, j ∈ given' ↔ j ∈ given) : Progress c₀ c' given' arg_cnt := by
  obtain ⟨o, ho, hact⟩ := Option.bind_eq_some_iff.mp hact
  obtain ⟨o', ho', hact⟩ := Option.bind_eq_some_iff.mp hact
  cases hact
  obtain ⟨hnames, hvalue⟩ := hf o o' ho ho'
  obtain ⟨hk, hget⟩ := List.getElem?_eq_some_iff.mp ho
  constructor
  · rw [← h.names]
    change (c.options.set k o').map _ = _
    rw [List.map_set, hnames, ← hget]
    exact List.map_set.symm.trans (congrArg _ (List.set_getElem_self hk))
  · intro j hj
    rw [takesValue]
    change ((c.options.set k o')[j]?.bind CmdOption.value).isSome = true ↔ _
    by_cases hjk : j = k
    · subst hjk
      rw [List.getElem?_set_self hk]
      exact hvalue
    · rw [List.getElem?_set_ne fun heq ↦ hjk heq.symm, hgiven j hjk]
      exact h.values j hj
  · exact h.subs
  · exact h.args

theorem value (h : Progress c₀ c given arg_cnt) {k : ℕ} {v : Text} {c' : Command}
    (hact : c.act (.value k v) = some c') : Progress c₀ c' (k :: given) arg_cnt := by
  refine h.modify hact (fun o o' _ ho' ↦ ?_) fun j hj ↦ ?_
  · obtain ⟨s, -, hs⟩ := Option.bind_eq_some_iff.mp ho'
    cases hs
    exact ⟨rfl, iff_of_true rfl (.inr List.mem_cons_self)⟩
  · rw [List.mem_cons, or_iff_right hj]

theorem append (h : Progress c₀ c given arg_cnt) {k : ℕ} (hk : c.takesValue k = true) {v : Text}
    {c' : Command} (hact : c.act (.append k v) = some c') : Progress c₀ c' given arg_cnt := by
  refine h.modify hact (fun o o' ho ho' ↦ ?_) fun j _ ↦ Iff.rfl
  rw [takesValue, ho, Option.bind_some] at hk
  have hvalue := (h.values_of_get ho).mp hk
  rw [CmdOption.add] at ho'
  split at ho'
  · obtain ⟨s, -, hs⟩ := Option.bind_eq_some_iff.mp ho'
    obtain ⟨s₁, -, hs⟩ := Option.bind_eq_some_iff.mp hs
    obtain ⟨s₂, -, hs⟩ := Option.bind_eq_some_iff.mp hs
    cases hs
    exact ⟨rfl, iff_of_true rfl hvalue⟩
  · obtain ⟨s, -, hs⟩ := Option.bind_eq_some_iff.mp ho'
    cases hs
    exact ⟨rfl, iff_of_true rfl hvalue⟩

theorem flag (h : Progress c₀ c given arg_cnt) {k : ℕ} {c' : Command}
    (hact : c.act (.flag k) = some c') : Progress c₀ c' given arg_cnt := by
  refine h.modify hact (fun o o' ho ho' ↦ ?_) fun j _ ↦ Iff.rfl
  obtain rfl := Option.some.inj ho'
  have hvalue := h.values_of_get ho
  exact ⟨rfl, hvalue⟩

theorem argument (h : Progress c₀ c given arg_cnt) {v : Text} {c' : Command}
    (hact : c.act (.argument arg_cnt v) = some c') : Progress c₀ c' given (arg_cnt + 1) := by
  obtain ⟨args, hargs, hact⟩ := Option.bind_eq_some_iff.mp hact
  obtain ⟨args', hset, hact⟩ := Option.bind_eq_some_iff.mp hact
  cases hact
  refine ⟨h.names, h.values, h.subs, ?_⟩
  have hold := h.args
  rw [hargs, Option.map_some] at hold
  obtain ⟨args₀, hargs₀, hlen⟩ := Option.map_eq_some_iff.mp hold.symm
  rw [setArg] at hset
  obtain ⟨o, -, hset⟩ := Option.bind_eq_some_iff.mp hset
  obtain ⟨s, -, hset⟩ := Option.bind_eq_some_iff.mp hset
  cases hset
  rw [hargs₀, Option.map_some, Option.map_some, List.length_set]
  refine congrArg some ?_
  split
  · omega
  · rw [List.length_append, List.length_singleton]
    omega

theorem args_eq (h : Progress c₀ c given arg_cnt) {args : List Arg} (hargs : c.args = some args) :
    ∃ args₀, c₀.args = some args₀ ∧ args.length = max args₀.length arg_cnt := by
  have hlen := h.args
  rw [hargs] at hlen
  obtain ⟨args₀, hargs₀, heq⟩ := Option.map_eq_some_iff.mp hlen.symm
  exact ⟨args₀, hargs₀, heq.symm⟩

end Progress

/-! ## Actions -/

theorem mem_did {n : ℕ} {actions : List Action} {r : List (ℕ × Action) × Command}
    {e : ℕ × Action} (h : e ∈ (did n actions r).1) : e.1 = n ∨ e ∈ r.1 := by
  rcases List.mem_append.mp h with h | h
  · obtain ⟨a, -, rfl⟩ := List.mem_map.mp h
    exact .inl rfl
  · exact .inr h

theorem lt_of_mem_parse {c : Command} {n : ℕ} {words : List Text}
    {r : List (ℕ × Action) × Command} (h : c.parse n words = some r) :
    ∀ e ∈ r.1, e.1 < words.length := by
  have hdid {x : Option Command} {y : Command → Option (List (ℕ × Action) × Command)} {m : ℕ}
      {actions : List Action} {r : List (ℕ × Action) × Command}
      (hy : ∀ c {r}, y c = some r → ∀ e ∈ r.1, e.1 < m) {l : ℕ} (hm : m ≤ l)
      (hr : x.bind (fun c ↦ (y c).map (did l actions)) = some r) : ∀ e ∈ r.1, e.1 < l + 1 := by
    obtain ⟨c, -, hr⟩ := Option.bind_eq_some_iff.mp hr
    obtain ⟨r', hr', rfl⟩ := Option.map_eq_some_iff.mp hr
    intro e he
    rcases mem_did he with heq | hmem
    · omega
    · have hlt := hy c hr' e hmem
      omega
  fun_induction parse c n words generalizing r with
  | case1 => cases h; exact fun e he ↦ (List.not_mem_nil he).elim
  | case2 =>
    rename_i ih
    obtain ⟨_, -, h⟩ := Option.bind_eq_some_iff.mp h
    exact hdid (fun c _ ↦ ih c) (Nat.le_refl _) h
  | case3 => cases h
  | case4 _ _ _ _ _ _ _ _ _ _ _ ih => exact fun e he ↦ Nat.lt_succ_of_lt (ih h e he)
  | case5 _ _ _ _ _ _ _ _ _ _ _ ih => exact hdid (fun c _ ↦ ih c) (Nat.le_succ _) h
  | case6 _ _ _ _ _ _ _ _ _ ih => exact hdid (fun c _ ↦ ih c) (Nat.le_refl _) h
  | case7 _ _ _ _ _ _ _ _ ih => exact fun e he ↦ Nat.lt_succ_of_lt (ih h e he)
  | case8 _ _ _ _ _ _ _ ih =>
    obtain ⟨s, -, h⟩ := Option.bind_eq_some_iff.mp h
    obtain ⟨⟨actions, s'⟩, hs, h⟩ := Option.bind_eq_some_iff.mp h
    cases h
    intro e he
    rcases mem_did he with heq | hmem
    · rw [heq]
      exact Nat.lt_succ_self _
    · exact Nat.lt_succ_of_lt (ih s hs e hmem)
  | case9 _ _ _ _ _ _ _ ih => exact fun e he ↦ Nat.lt_succ_of_lt (ih h e he)
  | case10 _ _ _ _ _ _ _ _ _ ih => exact hdid (fun c _ ↦ ih c) (Nat.le_refl _) h
  | case11 => cases h

theorem parse_equal_cases (c : Command) (word : Text) :
    c.parse_option_value_with_equal_sign word = [] ∨
      ∃ k v, c.parse_option_value_with_equal_sign word = [.value k v] := by
  rw [parse_option_value_with_equal_sign]
  split
  · split
    · exact .inl rfl
    · exact .inr ⟨_, _, rfl⟩
  · exact .inl rfl

theorem parse_final {c : Command} {n : ℕ} {words : List Text} {r : List (ℕ × Action) × Command}
    (h : c.parse n words = some r) : c.final (r.1.map Prod.snd) = some r.2 := by
  have hone {a : Action} {c : Command} {y : Command → Option (List (ℕ × Action) × Command)}
      {m : ℕ} {r : List (ℕ × Action) × Command}
      (hy : ∀ c {r}, y c = some r → c.final (r.1.map Prod.snd) = some r.2)
      (hr : (c.act a).bind (fun c ↦ (y c).map (did m [a])) = some r) :
      ∃ l, r.1.map Prod.snd = a :: l ∧ (c.act a).bind (fun c ↦ c.final l) = some r.2 := by
    obtain ⟨c', hact, hr⟩ := Option.bind_eq_some_iff.mp hr
    obtain ⟨r', hr', rfl⟩ := Option.map_eq_some_iff.mp hr
    exact ⟨r'.1.map Prod.snd, rfl, by rw [hact]; exact hy c' hr'⟩
  fun_induction parse c n words generalizing r with
  | case1 => cases h; rfl
  | case2 c _ word rest _ _ actions =>
    rename_i ih
    obtain ⟨_, -, h⟩ := Option.bind_eq_some_iff.mp h
    rcases parse_equal_cases c word with hnil | ⟨k, v, hvalue⟩
    · rw [show actions = [] from hnil] at h
      obtain ⟨r', hr', rfl⟩ := Option.map_eq_some_iff.mp h
      exact ih c hr'
    · rw [show actions = [.value k v] from hvalue, List.foldlM_cons, Option.bind_eq_bind,
        Option.bind_assoc] at h
      obtain ⟨l, hl, hfinal⟩ := hone (fun c _ ↦ ih c) h
      rw [hl]
      exact hfinal
  | case3 => cases h
  | case4 _ _ _ _ _ _ _ _ _ _ _ ih => exact ih h
  | case5 _ _ _ _ _ _ _ _ _ _ _ ih =>
    obtain ⟨l, hl, hfinal⟩ := hone (fun c _ ↦ ih c) h
    rw [hl]
    exact hfinal
  | case6 _ _ _ _ _ _ _ _ _ ih =>
    obtain ⟨l, hl, hfinal⟩ := hone (fun c _ ↦ ih c) h
    rw [hl]
    exact hfinal
  | case7 _ _ _ _ _ _ _ _ ih => exact ih h
  | case8 c _ word rest _ j _ ih =>
    obtain ⟨s, hs, h⟩ := Option.bind_eq_some_iff.mp h
    obtain ⟨⟨actions, s'⟩, hparse, h⟩ := Option.bind_eq_some_iff.mp h
    cases h
    have hs' : s.final (actions.map Prod.snd) = some s' := ih s hparse
    change (c.subcommands[j]?.bind fun s ↦ (s.final (actions.map Prod.snd)).bind fun s ↦
      some { c with subcommands := c.subcommands.set j s, selected_subcommand := some j }) = _
    rw [hs, Option.bind_some, hs']
    rfl
  | case9 _ _ _ _ _ _ _ ih => exact ih h
  | case10 _ _ _ _ _ _ _ _ _ ih =>
    obtain ⟨l, hl, hfinal⟩ := hone (fun c _ ↦ ih c) h
    rw [hl]
    exact hfinal
  | case11 => cases h

theorem did_iff {x : Option (List (ℕ × Action) × Command)} {n : ℕ} {a : Action}
    {l : List (ℕ × Action)} {actions : List Action}
    (hactions : actions = [] ∨ ∃ b, actions = [b])
    (hx : ∀ r, x = some r → ∀ e ∈ r.1, e.1 < n) :
    (∃ c', x.map (did n actions) = some ((n, a) :: l, c')) ↔
      actions = [a] ∧ ∃ c', x = some (l, c') := by
  constructor
  · rintro ⟨c', h⟩
    obtain ⟨⟨log, c''⟩, hr, hdid⟩ := Option.map_eq_some_iff.mp h
    rcases hactions with rfl | ⟨b, rfl⟩
    · obtain ⟨hlog, -⟩ := Prod.mk.inj hdid
      have hlog' : log = (n, a) :: l := hlog
      have hlt := hx _ hr (n, a) (hlog' ▸ List.mem_cons_self)
      exact (Nat.lt_irrefl n hlt).elim
    · obtain ⟨hlog, -⟩ := Prod.mk.inj hdid
      obtain ⟨hhead, htail⟩ := List.cons.inj hlog
      obtain ⟨-, rfl⟩ := Prod.mk.inj hhead
      exact ⟨rfl, c'', hr.trans (congrArg (fun l ↦ some (l, c'')) htail)⟩
  · rintro ⟨rfl, c', rfl⟩
    exact ⟨c', rfl⟩

theorem regular_cons (c : Command) (given : List ℕ) (n : ℕ) (word : Text) (rest : List Text) :
    c.Regular given n (word :: rest) =
      if is_arg_option word then
        if 61 ∈ word then
          word.length + 1 < 2 ^ 30 ∧
            match c.get_option (key word) with
            | none => Regular c given n rest
            | some k => (valueOf word ≠ [] ∧ 61 ∉ valueOf word) ∧ Regular c (k :: given) n rest
        else
          match c.get_option word with
          | none => Regular c given n rest
          | some k =>
            if c.takesValue k then
              match rest with
              | [] => False
              | next :: rest' =>
                if (c.get_subcommand next).isSome then Regular c given n (next :: rest')
                else Regular c given n rest'
            else k ∉ given ∧ Regular c given n rest
      else
        match c.get_subcommand word with
        | some j => ∀ s, c.subcommands[j]? = some s → Regular s [] 0 rest
        | none =>
          (∃ args, c.args = some args ∧ n < capacity (max args.length n)) ∧
            Regular c given (n + 1) rest := Regular.eq_def c given n (word :: rest)

theorem parse_cons (c : Command) (n : ℕ) (word : Text) (rest : List Text) :
    c.parse n (word :: rest) =
      if is_arg_option word then
        if does_option_contains_equal_sign word ≠ 0 then
          let actions := c.parse_option_value_with_equal_sign word
          (Str.init.assign word).bind fun _ ↦ (actions.foldlM act c).bind fun c ↦
            (parse c n rest).map (did rest.length actions)
        else
          match c.get_option word, c.does_option_need_value word with
          | some k, some true =>
            match rest with
            | [] => none
            | next :: rest' =>
              if (c.get_subcommand next).isSome then parse c n (next :: rest')
              else
                (c.act (.append k next)).bind fun c ↦ (parse c n rest').map
                  (did (rest'.length + 1) [.append k next])
          | some k, some false =>
            (c.act (.flag k)).bind fun c ↦
              (parse c n rest).map (did rest.length [.flag k])
          | _, _ => parse c n rest
      else
        match c.get_subcommand word with
        | some j => do
          let s ← c.subcommands[j]?
          let (actions, s') ← parse s 0 rest
          let c ← c.act (.select j (word :: rest))
          return did rest.length [.select j (word :: rest)]
            (actions, { c with subcommands := c.subcommands.set j s' })
        | none =>
          match c.args with
          | none => parse c n rest
          | some args =>
            if n < capacity args.length then
              (c.act (.argument n word)).bind fun c ↦
                (parse c (n + 1) rest).map (did rest.length [.argument n word])
            else none := parse.eq_def c n (word :: rest)

theorem asked_cons (c : Command) (n : ℕ) (word : Text) (rest : List Text) :
    c.asked n (word :: rest) =
      if is_arg_option word then
        if 61 ∈ word then
          match c.get_option (key word) with
          | none => asked c n rest
          | some k => (rest.length, .value k (valueOf word)) :: asked c n rest
        else
          match c.get_option word with
          | none => asked c n rest
          | some k =>
            if c.takesValue k then
              match rest with
              | [] => []
              | next :: rest' =>
                if (c.get_subcommand next).isSome then asked c n (next :: rest')
                else (rest'.length + 1, .append k next) :: asked c n rest'
            else (rest.length, .flag k) :: asked c n rest
      else
        match c.get_subcommand word with
        | some j => (rest.length, .select j (word :: rest)) ::
            c.subcommands[j]?.elim [] fun s ↦ asked s 0 rest
        | none => (rest.length, .argument n word) :: asked c (n + 1) rest :=
  asked.eq_def c n (word :: rest)

/-- One action, and then the rest. -/
theorem act_iff {c : Command} {a : Action} {m : ℕ} {l : List (ℕ × Action)} {R : Prop}
    {y : Command → Option (List (ℕ × Action) × Command)}
    (hy : ∀ c r, y c = some r → ∀ e ∈ r.1, e.1 < m)
    (ih : ∀ c', c.act a = some c' →
      ((∃ c'', y c' = some (l, c'')) ↔ R ∧ (c'.final (l.map Prod.snd)).isSome)) :
    (∃ c'', ((c.act a).bind fun c ↦ (y c).map (did m [a])) = some ((m, a) :: l, c'')) ↔
      R ∧ ((c.act a).bind fun c ↦ c.final (l.map Prod.snd)).isSome := by
  cases hact : c.act a with
  | none => exact iff_of_false nofun fun h ↦ nomatch h.2
  | some c' =>
    rw [Option.bind_some, Option.bind_some, did_iff (.inr ⟨_, rfl⟩) (hy c'), and_iff_right rfl]
    exact ih c' hact

/-- Another action than the one that was asked for. -/
theorem not_act {x : Option Command} {m : ℕ} {actions : List Action} {a : Action}
    {l : List (ℕ × Action)} {y : Command → Option (List (ℕ × Action) × Command)}
    (hactions : actions = [] ∨ ∃ b, actions = [b])
    (hy : ∀ c r, y c = some r → ∀ e ∈ r.1, e.1 < m) (hne : actions ≠ [a]) :
    ¬∃ c'', (x.bind fun c ↦ (y c).map (did m actions)) = some ((m, a) :: l, c'') := by
  rintro ⟨c'', h⟩
  obtain ⟨c', -, h⟩ := Option.bind_eq_some_iff.mp h
  exact hne ((did_iff hactions (hy c')).mp ⟨c'', h⟩).1

theorem not_none {l : List (ℕ × Action)} :
    ¬∃ c'', (none : Option (List (ℕ × Action) × Command)) = some (l, c'') := by
  rintro ⟨c'', h⟩
  cases h

/-- From a word on, what is asked for is done exactly if the words are regular and there is room. -/
def Agrees (c₀ c : Command) (given : List ℕ) (n : ℕ) (words : List Text) : Prop :=
  (∃ c', c.parse n words = some (c₀.asked n words, c')) ↔
    c₀.Regular given n words ∧ (c.final ((c₀.asked n words).map Prod.snd)).isSome

namespace Progress

variable {c₀ c : Command} {given : List ℕ} {n k : ℕ} {word : Text} {rest : List Text}

theorem agrees_equal (h : Progress c₀ c given n) (hdash : is_arg_option word = true)
    (h61 : 61 ∈ word)
    (ih : ∀ {c given}, Progress c₀ c given n → Agrees c₀ c given n rest) :
    Agrees c₀ c given n (word :: rest) := by
  rw [Agrees, parse_cons, asked_cons, regular_cons]
  simp only [if_pos hdash, if_pos ((contains_iff hdash).mpr h61), if_pos h61]
  rw [and_assoc]
  by_cases hlong : word.length + 1 < 2 ^ 30
  swap
  · rw [Option.not_isSome_iff_eq_none.mp (Str.assign_init_isSome.not.mpr hlong)]
    exact iff_of_false not_none fun h ↦ hlong h.1
  obtain ⟨str, hstr⟩ := Option.isSome_iff_exists.mp (Str.assign_init_isSome.mpr hlong)
  rw [hstr, Option.bind_some, and_iff_right hlong]
  have hsame := h.get_option (key word)
  cases hk : c₀.get_option (key word) with
  | none =>
    rw [hk] at hsame
    have hid (x : Option (List (ℕ × Action) × Command)) : x.map (did rest.length []) = x := by
      cases x <;> rfl
    rw [parse_equal_none hdash h61 hsame, List.foldlM_nil]
    exact Iff.trans (exists_congr fun c' ↦ by rw [← hid (c.parse n rest)]; rfl) (ih h)
  | some k =>
    rw [hk] at hsame
    obtain ⟨hcases, hgood⟩ := parse_equal_some hdash h61 hsame
    dsimp only
    rw [← hgood, and_assoc]
    by_cases hactions : c.parse_option_value_with_equal_sign word = [.value k (valueOf word)]
    · have hbind : (c.act (.value k (valueOf word)) >>= fun c ↦ [].foldlM act c) =
          c.act (.value k (valueOf word)) := bind_pure _
      rw [and_iff_right hactions, hactions, List.foldlM_cons, hbind]
      exact act_iff (fun _ _ hr ↦ lt_of_mem_parse hr) fun c' hact ↦ ih (h.value hact)
    · refine iff_of_false (not_act ?_ (fun _ _ hr ↦ lt_of_mem_parse hr) hactions)
        fun h ↦ hactions h.1
      obtain hnil | ⟨v, hv⟩ := hcases
      · exact .inl hnil
      · exact .inr ⟨_, hv⟩

theorem parse_option (hdash : is_arg_option word = true) (h61 : 61 ∉ word)
    (hk : c.get_option word = some k) :
    c.parse n (word :: rest) =
      if c.takesValue k then
        match rest with
        | [] => none
        | next :: rest' =>
          if (c.get_subcommand next).isSome then c.parse n (next :: rest')
          else
            (c.act (.append k next)).bind fun c ↦ (c.parse n rest').map
              (did (rest'.length + 1) [.append k next])
      else
        (c.act (.flag k)).bind fun c ↦ (c.parse n rest).map (did rest.length [.flag k]) := by
  rw [parse_cons, if_pos hdash, if_neg fun hne ↦ h61 ((contains_iff hdash).mp hne), hk,
    does_option_need_value_eq hk]
  cases c.takesValue k <;> rfl

/-- An option that takes a value by its declaration, or was `given` one with an equal sign. -/
theorem agrees_value (h : Progress c₀ c given n) (hdash : is_arg_option word = true)
    (h61 : 61 ∉ word) (hk : c.get_option word = some k) (hneed : c.takesValue k = true)
    (ih : ∀ {words}, words.length ≤ rest.length → ∀ {c given}, Progress c₀ c given n →
      Agrees c₀ c given n words) :
    Agrees c₀ c given n (word :: rest) := by
  have hk₀ := (h.get_option word).symm.trans hk
  rw [Agrees, parse_option hdash h61 hk, if_pos hneed, asked_cons, regular_cons]
  simp only [if_pos hdash, if_neg h61, hk₀, ← h.get_subcommand]
  by_cases htakes : c₀.takesValue k = true
  · rw [if_pos htakes, if_pos htakes]
    cases rest with
    | nil => exact iff_of_false not_none fun h ↦ h.1
    | cons next rest' =>
      dsimp only
      by_cases hnext : (c.get_subcommand next).isSome
      · rw [if_pos hnext, if_pos hnext, if_pos hnext]
        exact ih (Nat.le_refl _) h
      · rw [if_neg hnext, if_neg hnext, if_neg hnext]
        have hlt (c : Command) (r : List (ℕ × Action) × Command) (hr : c.parse n rest' = some r) :
            ∀ e ∈ r.1, e.1 < rest'.length + 1 :=
          fun e he ↦ Nat.lt_succ_of_lt (lt_of_mem_parse hr e he)
        exact act_iff hlt fun c' hact ↦ ih (Nat.le_succ _) (h.append hneed hact)
  -- the word stands for the flag, but the option has been given a value
  · have hgiven := ((h.values k (lt_length hk₀)).mp hneed).resolve_left htakes
    rw [if_neg htakes, if_neg htakes]
    refine iff_of_false ?_ fun hregular ↦ hregular.1.1 hgiven
    rintro ⟨c', heq⟩
    cases rest with
    | nil => cases heq
    | cons next rest' =>
      dsimp only at heq
      split at heq
      · exact Nat.lt_irrefl _ (lt_of_mem_parse heq _ List.mem_cons_self)
      · obtain ⟨c₁, -, heq⟩ := Option.bind_eq_some_iff.mp heq
        have hlt (r : List (ℕ × Action) × Command) (hr : c₁.parse n rest' = some r) :
            ∀ e ∈ r.1, e.1 < rest'.length + 1 :=
          fun e he ↦ Nat.lt_succ_of_lt (lt_of_mem_parse hr e he)
        cases ((did_iff (.inr ⟨_, rfl⟩) hlt).mp ⟨c', heq⟩).1

theorem agrees_flag (h : Progress c₀ c given n) (hdash : is_arg_option word = true)
    (h61 : 61 ∉ word) (hk : c.get_option word = some k) (hneed : ¬c.takesValue k = true)
    (ih : ∀ {c given}, Progress c₀ c given n → Agrees c₀ c given n rest) :
    Agrees c₀ c given n (word :: rest) := by
  have hk₀ := (h.get_option word).symm.trans hk
  rw [Agrees, parse_option hdash h61 hk, if_neg hneed, asked_cons, regular_cons]
  simp only [if_pos hdash, if_neg h61, hk₀]
  rw [h.values k (lt_length hk₀), not_or] at hneed
  rw [if_neg hneed.1, if_neg hneed.1, and_iff_right hneed.2]
  exact act_iff (fun _ _ hr ↦ lt_of_mem_parse hr) fun c' hact ↦ ih (h.flag hact)

theorem agrees_unknown (h : Progress c₀ c given n) (hdash : is_arg_option word = true)
    (h61 : 61 ∉ word) (hk : c.get_option word = none) (ih : Agrees c₀ c given n rest) :
    Agrees c₀ c given n (word :: rest) := by
  have hk₀ := (h.get_option word).symm.trans hk
  rw [Agrees, parse_cons, asked_cons, regular_cons]
  simp only [if_pos hdash, if_neg fun hne ↦ h61 ((contains_iff hdash).mp hne), if_neg h61, hk, hk₀]
  exact ih

theorem agrees_subcommand (h : Progress c₀ c given n) (hdash : ¬is_arg_option word = true)
    {j : ℕ} (hj : c.get_subcommand word = some j)
    (ih : ∀ s : Command, Agrees s s [] 0 rest) : Agrees c₀ c given n (word :: rest) := by
  have hj₀ := (h.get_subcommand word).symm.trans hj
  obtain ⟨hlt, -⟩ := List.findIdx?_eq_some_iff_getElem.mp hj
  have hget : c.subcommands[j]? = some c.subcommands[j] := List.getElem?_eq_getElem hlt
  rw [Agrees, parse_cons, asked_cons, regular_cons]
  simp only [if_neg hdash, hj, hj₀]
  rw [← h.subs, hget, Option.elim_some, Option.bind_eq_bind, Option.bind_some]
  have hfinal : (c.final (.select j (word :: rest) ::
      (c.subcommands[j].asked 0 rest).map Prod.snd)).isSome =
      (c.subcommands[j].final ((c.subcommands[j].asked 0 rest).map Prod.snd)).isSome := by
    change (c.subcommands[j]?.bind fun s ↦ (s.final _).bind fun s ↦
      some { c with subcommands := c.subcommands.set j s, selected_subcommand := some j }).isSome
        = _
    rw [hget, Option.bind_some]
    cases c.subcommands[j].final ((c.subcommands[j].asked 0 rest).map Prod.snd) <;> rfl
  have hone : (∀ s, some c.subcommands[j] = some s → s.Regular [] 0 rest) ↔
      c.subcommands[j].Regular [] 0 rest := by simp
  rw [List.map_cons, hfinal, hone]
  refine Iff.trans ?_ (ih c.subcommands[j])
  constructor
  · rintro ⟨c', heq⟩
    obtain ⟨⟨actions, s'⟩, hparse, hdid⟩ := Option.bind_eq_some_iff.mp heq
    have hlog := congrArg Prod.fst (Option.some.inj hdid)
    have hactions : actions = c.subcommands[j].asked 0 rest := (List.cons.inj hlog).2
    exact ⟨s', hactions ▸ hparse⟩
  · rintro ⟨s', hparse⟩
    exact ⟨_, by rw [hparse]; rfl⟩

theorem agrees_argument (h : Progress c₀ c given n) (hdash : ¬is_arg_option word = true)
    (hj : c.get_subcommand word = none)
    (ih : ∀ {c}, Progress c₀ c given (n + 1) → Agrees c₀ c given (n + 1) rest) :
    Agrees c₀ c given n (word :: rest) := by
  have hj₀ := (h.get_subcommand word).symm.trans hj
  rw [Agrees, parse_cons, asked_cons, regular_cons]
  simp only [if_neg hdash, hj, hj₀]
  cases hargs : c.args with
  | none =>
    refine iff_of_false ?_ ?_
    · rintro ⟨c', heq⟩
      exact Nat.lt_irrefl _ (lt_of_mem_parse heq _ List.mem_cons_self)
    · rintro ⟨⟨⟨args, hsome, -⟩, -⟩, -⟩
      have hlen := h.args
      rw [hargs, hsome] at hlen
      cases hlen
  | some args =>
    obtain ⟨args₀, hargs₀, hlen⟩ := h.args_eq hargs
    have hslot : (∃ args, c₀.args = some args ∧ n < capacity (max args.length n)) ↔
        n < capacity args.length := by
      rw [hargs₀, hlen]
      constructor
      · rintro ⟨_, hsome, hlt⟩
        exact Option.some.inj hsome ▸ hlt
      · exact fun hlt ↦ ⟨_, rfl, hlt⟩
    dsimp only
    rw [hslot]
    by_cases hcap : n < capacity args.length
    · rw [if_pos hcap, and_iff_right hcap]
      exact act_iff (fun _ _ hr ↦ lt_of_mem_parse hr) fun c' hact ↦ ih (h.argument hact)
    · rw [if_neg hcap]
      exact iff_of_false not_none fun hregular ↦ hcap hregular.1.1

end Progress

/-- By the length of the words, as an option can take two of them. -/
theorem parse_words_iff {c₀ c : Command} {given : List ℕ} {n : ℕ} {words : List Text}
    (h : Progress c₀ c given n) : Agrees c₀ c given n words := by
  generalize hlen : words.length = len
  induction len using Nat.strongRecOn generalizing c₀ c given n words with
  | ind len ih =>
    cases words with
    | nil => exact iff_of_true ⟨c, rfl⟩ ⟨trivial, rfl⟩
    | cons word rest =>
      have hrest : rest.length < len := hlen ▸ Nat.lt_succ_self _
      by_cases hdash : is_arg_option word = true
      · by_cases h61 : 61 ∈ word
        · exact h.agrees_equal hdash h61 fun h ↦ ih _ hrest h rfl
        · cases hk : c.get_option word with
          | none => exact h.agrees_unknown hdash h61 hk (ih _ hrest h rfl)
          | some k =>
            by_cases hneed : c.takesValue k = true
            · exact h.agrees_value hdash h61 hk hneed fun hle _ _ h ↦
                ih _ (Nat.lt_of_le_of_lt hle hrest) h rfl
            · exact h.agrees_flag hdash h61 hk hneed fun h ↦ ih _ hrest h rfl
      · cases hj : c.get_subcommand word with
        | some j => exact h.agrees_subcommand hdash hj fun s ↦ ih _ hrest (.refl s) rfl
        | none => exact h.agrees_argument hdash hj fun h ↦ ih _ hrest h rfl

/-- The words of a command line are parsed as they are meant exactly if they are regular and the
strings of the options and the arguments have room for the values. -/
theorem parse_args_iff (c : Command) (argv : List Text) :
    c.Parses argv ↔ c.Regular [] 0 argv.tail ∧
      (c.final ((c.asked 0 argv.tail).map Prod.snd)).isSome := by
  refine Iff.trans ?_ (parse_words_iff (.refl c))
  refine exists_congr fun c' ↦ ⟨fun h ↦ h.2, fun h ↦ ⟨?_, h⟩⟩
  exact parse_final h

/-- A value with an equal sign in it is three pieces with its name, and is not set. -/
theorem not_parse_args : ¬ ∀ (c : Command) (argv : List Text), argv ≠ [] → c.Parses argv := by
  intro h
  obtain ⟨c', -, hparse⟩ := h
    ⟨[112], [⟨[45, 110], [], some Str.init, false, false⟩], none, [], none⟩
    [[112], [45, 110, 61, 97, 61, 98]] (List.cons_ne_nil _ _)
  have hregular := ((parse_words_iff (.refl _)).mp ⟨c', hparse⟩).1
  rw [List.tail_cons, regular_cons, if_pos (by decide), if_pos (by decide)] at hregular
  exact absurd hregular.2.1.2 (by decide)

end Command

end Libobject.Argument
