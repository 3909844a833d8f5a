import Libobject.Core.String
import Libobject.Core.StringUtils

/-!
# Calls from the shell

A line with a call is split at commas, blanks of a line, brackets and semicolons; the first piece
names the function, each other one is an argument. The arguments are written to an array of twenty
parameters.
-/

namespace Libobject.FShell

open Scan StringUtils

/-! ## The line and its arguments -/

/-- What is passed as a parameter: a pointer to a text, a word, or a pointer to the shell. -/
inductive Value
  | text (s : Text)
  | word (w : BitVec 64)
  | shell
  deriving DecidableEq

/-- A variable: its address and the word that is there. -/
structure Variable where
  addr : BitVec 64
  content : BitVec 64

/-- What the expression `[,\t\n();]` matches. -/
def separator (c : UInt8) : Bool :=
  c = 44 || c = 9 || c = 10 || c = 40 || c = 41 || c = 59

/-- `str->split` at the separators. -/
def split (s : Text) : List Text := cut separator s

/-- Blanks are cut off on both sides, as long as one character stays. -/
def str_trim (s : Text) : Text :=
  match s.dropWhile isSpace with
  | [] => s.drop (s.length - 1)
  | body => (body.reverse.dropWhile isSpace).reverse

/-- The value of a trimmed argument. `info` is what the last search found; a search that finds
nothing leaves it as it was. -/
def eval_arg (vars : Text → Option Variable) (info : Option Variable) (arg : Text) :
    Option (Value × Option Variable) :=
  let c := arg.headD 0
  let d := (arg.drop 1).headD 0
  if c = 34 then
    if arg.getLast? = some 34 then some (.text (arg.drop 1).dropLast, info) else none
  else if c = 35 then
    ((vars arg).or info).map fun i ↦ (.word i.addr, some i)
  else if c = 42 ∧ d = 35 then
    ((vars (arg.drop 1)).or info).map fun i ↦ (.word i.content, some i)
  else if c = 48 ∧ (d = 120 ∨ d = 88) then some (.word (str_hex_to_integer arg), info)
  else if c = 48 ∧ (d = 100 ∨ d = 68) then
    some (.word (BitVec.ofInt 64 (atoi (arg.drop 2))), info)
  else some (.word (BitVec.ofInt 64 (atoi arg)), info)

/-- What the loop over the arguments makes: it throws, writes behind the array, or has the
values. -/
inductive Params
  | failed
  | wild
  | ok (par : List Value)
  deriving DecidableEq

def Params.cons (v : Value) : Params → Params
  | ok par => ok (v :: par)
  | p => p

/-- The loop, with `n` places left in the array. -/
def eval_args (vars : Text → Option Variable) : Option Variable → ℕ → List Text → Params
  | _, _, [] => .ok []
  | info, n, arg :: args =>
    match eval_arg vars info (str_trim arg) with
    | none => .failed
    | some (v, info) =>
      match n with
      | 0 => .wild
      | n + 1 => (eval_args vars info n args).cons v

/-! ## The calls -/

/-- What comes of a line: it is rejected, something is written behind a buffer, or a function is
called. -/
inductive Outcome (F : Type)
  | rejected
  | wild
  | called (f : F) (par : List Value)
  deriving DecidableEq

/-- The twenty parameters of the array. -/
def pad (par : List Value) : List Value := par ++ List.replicate (20 - par.length) (.word 0)

/-- `fsh_` functions get the shell before nineteen of the parameters. -/
def passed (func_name : Text) (par : List Value) : List Value :=
  if (ascii "fsh_").isPrefixOf func_name then .shell :: par.take 19 else par

variable {F : Type}

def run_func (func : Text → Option F) (vars : Text → Option Variable) (str : Text) : Outcome F :=
  if 128 ≤ str.length then .wild
  else
    match split str with
    | [] => .rejected
    | func_name :: args =>
      match func func_name with
      | none => .rejected
      | some f =>
        match eval_args vars none 20 args with
        | .failed => .rejected
        | .wild => .wild
        | .ok par => .called f (passed func_name (pad par))

/-- The methods of the object that a parameter is the address of, if it is one. NULL is none, nor is
a text. -/
def object (objects : BitVec 64 → Option (Text → Option F)) : Value → Option (Text → Option F)
  | .word w => if w = 0 then none else objects w
  | _ => none

/-- The method is that of the object that is the first parameter; to ask anything else for its name
is undefined. -/
def run_object_func (objects : BitVec 64 → Option (Text → Option F)) (vars : Text → Option Variable)
    (str : Text) : Outcome F :=
  match split str with
  | [] => .rejected
  | method_name :: args =>
    match eval_args vars none 20 args with
    | .failed => .rejected
    | .wild => .wild
    | .ok par =>
      match object objects ((pad par).headD (.word 0)) with
      | none => .wild
      | some methods =>
        match methods method_name with
        | none => .rejected
        | some f => .called f (pad par)

/-! ## What is meant -/

/-- A name of a function or of a variable. -/
structure Name where
  text : Text
  ne_nil : text ≠ []
  letters : ∀ c ∈ text, separator c = false ∧ isSpace c = false

/-- A number of 64 bits, with or without a sign. -/
abbrev Number := {z : ℤ // -2 ^ 63 ≤ z ∧ z < 2 ^ 64}

/-- An argument of a command. -/
inductive Arg
  | quoted (s : CText)
  | decimal (z : Number)
  | marked (z : Number)
  | hex (digits : {ds : Text // ∀ c ∈ ds, isHex c = true})
  | address (name : Name)
  | content (name : Name)

def Arg.show : Arg → Text
  | quoted s => 34 :: (s.1 ++ [34])
  | decimal z => showInt z.1
  | marked z => 48 :: 100 :: showInt z.1
  | hex ds => 48 :: 120 :: ds.1
  | address name => 35 :: name.text
  | content name => 42 :: 35 :: name.text

/-- The variable that an argument refers to. -/
def Arg.key : Arg → Option Text
  | address name | content name => some (35 :: name.text)
  | _ => none

def Arg.value (vars : Text → Option Variable) : Arg → Option Value
  | quoted s => some (.text s.1)
  | decimal z | marked z => some (.word (BitVec.ofInt 64 z.1))
  | hex ds => some (.word (BitVec.ofNat 64 (hexValue ds.1)))
  | address name => (vars (35 :: name.text)).map fun i ↦ .word i.addr
  | content name => (vars (35 :: name.text)).map fun i ↦ .word i.content

/-- A command; each argument may have spaces before it. -/
structure Command where
  name : Name
  args : List (ℕ × Arg)

/-- The arguments with commas between them, and the bracket behind the last one. -/
def showArgs : List (ℕ × Arg) → Text
  | [] => [41]
  | [(n, a)] => List.replicate n 32 ++ a.show ++ [41]
  | (n, a) :: args => List.replicate n 32 ++ a.show ++ 44 :: showArgs args

def Command.line (cmd : Command) : Text := cmd.name.text ++ 40 :: showArgs cmd.args

/-- The values of the arguments, if there are places for them and every variable is known. -/
def Command.values (cmd : Command) (vars : Text → Option Variable) (places : ℕ) :
    Option (List Value) :=
  if places < cmd.args.length then none else cmd.args.mapM fun a ↦ a.2.value vars

/-- The number of parameters that arguments may be given for. -/
def Command.places (cmd : Command) : ℕ :=
  if (ascii "fsh_").isPrefixOf cmd.name.text then 19 else 20

/-- What `run_func` should do with a command: a line that fills its buffer is rejected. -/
def Command.meant (cmd : Command) (func : Text → Option F) (vars : Text → Option Variable) :
    Outcome F :=
  if 128 ≤ cmd.line.length then .rejected
  else
    match func cmd.name.text, cmd.values vars cmd.places with
    | some f, some values => .called f (passed cmd.name.text (pad values))
    | _, _ => .rejected

/-- The method that a command means, with its parameters, if there are places for the arguments,
every variable is known and the first argument is an object that has the method. -/
def Command.method (cmd : Command) (objects : BitVec 64 → Option (Text → Option F))
    (vars : Text → Option Variable) : Option (F × List Value) := do
  let values ← cmd.values vars 20
  let methods ← object objects ((pad values).headD (.word 0))
  let f ← methods cmd.name.text
  some (f, pad values)

def Command.meantObject (cmd : Command) (objects : BitVec 64 → Option (Text → Option F))
    (vars : Text → Option Variable) : Outcome F :=
  match cmd.method objects vars with
  | some (f, par) => .called f par
  | none => .rejected

/-- An argument that the shell reads as it is meant: a text without separators and a number that
`atoi` can hold. -/
def Arg.Plain : Arg → Prop
  | quoted s => ∀ c ∈ s.1, separator c = false
  | decimal z | marked z => -2 ^ 31 ≤ z.1 ∧ z.1 < 2 ^ 31 ∨ z.1 = 2 ^ 64 - 1
  | _ => True

/-- The name of the variable that a piece of the line refers to. -/
def refers (piece : Text) : Option Text :=
  let arg := str_trim piece
  let c := arg.headD 0
  if c = 35 then some arg
  else if c = 42 ∧ (arg.drop 1).headD 0 = 35 then some (arg.drop 1)
  else none

/-- A piece that begins with a quotation mark and does not end with one. -/
def Open (piece : Text) : Prop :=
  (str_trim piece).headD 0 = 34 ∧ (str_trim piece).getLast? ≠ some 34

/-- One of the pieces is an open quotation, or refers to an unknown variable and none before it to a
known one. -/
def Fails (vars : Text → Option Variable) (pieces : List Text) : Prop :=
  ∃ before piece behind, pieces = before ++ piece :: behind ∧
    (Open piece ∨ ∃ key, refers piece = some key ∧ vars key = none ∧
      ∀ b ∈ before, ∀ k, refers b = some k → vars k = none)

/-- One of the pieces fails, or they are read and the first of them is an object without the method.
-/
def Refused (objects : BitVec 64 → Option (Text → Option F)) (vars : Text → Option Variable)
    (method_name : Text) (pieces : List Text) : Prop :=
  Fails vars (pieces.take 21) ∨ ∃ par methods, eval_args vars none 20 pieces = .ok par ∧
    object objects ((pad par).headD (.word 0)) = some methods ∧ methods method_name = none

/-! ## The pieces of a line -/

variable {vars : Text → Option Variable}

theorem Command.split_line (cmd : Command) :
    split cmd.line = cmd.name.text :: split (showArgs cmd.args) :=
  cut_append cmd.name.ne_nil (fun c hc ↦ (cmd.name.letters c hc).1) rfl _

/-- How an argument stands in the line. -/
def spaced (a : ℕ × Arg) : Text := List.replicate a.1 32 ++ a.2.show

theorem Arg.show_ne_nil (a : Arg) : a.show ≠ [] := by
  cases a with
  | decimal z =>
    rw [Arg.show, showInt]
    split
    · exact List.cons_ne_nil _ _
    · exact showNat_ne_nil _
  | _ => exact List.cons_ne_nil _ _

theorem spaced_ne_nil (a : ℕ × Arg) : spaced a ≠ [] :=
  fun h ↦ a.2.show_ne_nil (List.append_eq_nil_iff.mp h).2

theorem split_showArgs {args : List (ℕ × Arg)}
    (h : ∀ a ∈ args, ∀ c ∈ a.2.show, separator c = false) :
    split (showArgs args) = args.map spaced := by
  have hspaced : ∀ a ∈ args, ∀ c ∈ spaced a, separator c = false := by
    intro a ha c hc
    rcases List.mem_append.mp hc with hc | hc
    · rw [List.eq_of_mem_replicate hc]
      rfl
    · exact h a ha c hc
  clear h
  induction args with
  | nil => rfl
  | cons a args ih =>
    rw [List.forall_mem_cons] at hspaced
    cases args with
    | nil => exact cut_append (spaced_ne_nil a) hspaced.1 rfl []
    | cons b args =>
      exact (cut_append (spaced_ne_nil a) hspaced.1 rfl _).trans
        (congrArg _ (ih hspaced.2))

/-! ## The value of a piece -/

theorem separator_of_isHex {c : UInt8} (h : isHex c = true) :
    separator c = false ∧ isSpace c = false ∧ c ≠ 34 := by
  have hne : ∀ d : UInt8, isHex d = false → c ≠ d := fun d hd heq ↦ by
    rw [heq, hd] at h
    cases h
  refine ⟨?_, ?_, hne 34 rfl⟩
  · simp only [separator, Bool.or_eq_false_iff, decide_eq_false_iff_not]
    exact ⟨⟨⟨⟨⟨hne 44 rfl, hne 9 rfl⟩, hne 10 rfl⟩, hne 40 rfl⟩, hne 41 rfl⟩, hne 59 rfl⟩
  · rw [isHex, Bool.or_eq_true, Bool.or_eq_true] at h
    simp only [isSpace, isDigit, Bool.and_eq_true, decide_eq_true_eq, Bool.or_eq_false_iff,
      Bool.and_eq_false_iff, decide_eq_false_iff_not, UInt8.le_iff_toNat_le] at h ⊢
    refine ⟨hne 32 rfl, .inr ?_⟩
    have h9 : (13 : UInt8).toNat = 13 := rfl
    have h48 : (48 : UInt8).toNat = 48 := rfl
    have h97 : (97 : UInt8).toNat = 97 := rfl
    have h65 : (65 : UInt8).toNat = 65 := rfl
    omega

theorem letter_of_mem_showInt {z : ℤ} {c : UInt8} (h : c ∈ showInt z) :
    separator c = false ∧ isSpace c = false ∧ c ≠ 34 := by
  rcases mem_showInt h with h | rfl
  · exact separator_of_isHex (isHex_of_isDigit h)
  · exact ⟨rfl, rfl, by decide⟩

theorem Arg.letters (a : Arg) (hquoted : ∀ s, a ≠ .quoted s) {c : UInt8} (h : c ∈ a.show) :
    separator c = false ∧ isSpace c = false := by
  cases a with
  | quoted s => exact absurd rfl (hquoted s)
  | decimal z => exact ⟨(letter_of_mem_showInt h).1, (letter_of_mem_showInt h).2.1⟩
  | marked z =>
    rcases List.mem_cons.mp h with rfl | h
    · exact ⟨rfl, rfl⟩
    rcases List.mem_cons.mp h with rfl | h
    · exact ⟨rfl, rfl⟩
    · exact ⟨(letter_of_mem_showInt h).1, (letter_of_mem_showInt h).2.1⟩
  | hex ds =>
    rcases List.mem_cons.mp h with rfl | h
    · exact ⟨rfl, rfl⟩
    rcases List.mem_cons.mp h with rfl | h
    · exact ⟨rfl, rfl⟩
    · exact ⟨(separator_of_isHex (ds.2 c h)).1, (separator_of_isHex (ds.2 c h)).2.1⟩
  | address name =>
    rcases List.mem_cons.mp h with rfl | h
    · exact ⟨rfl, rfl⟩
    · exact name.letters c h
  | content name =>
    rcases List.mem_cons.mp h with rfl | h
    · exact ⟨rfl, rfl⟩
    rcases List.mem_cons.mp h with rfl | h
    · exact ⟨rfl, rfl⟩
    · exact name.letters c h

theorem separator_show {a : Arg} (h : a.Plain) {c : UInt8} (hc : c ∈ a.show) :
    separator c = false := by
  cases a with
  | quoted s =>
    rcases List.mem_cons.mp hc with rfl | hc
    · rfl
    rcases List.mem_append.mp hc with hc | hc
    · exact h c hc
    · exact List.mem_singleton.mp hc ▸ rfl
  | _ => exact (Arg.letters _ (fun _ h ↦ by cases h) hc).1

theorem str_trim_spaces {s : Text} (n : ℕ) (hne : s ≠ []) (hhead : isSpace (s.head hne) = false)
    (hlast : isSpace (s.getLast hne) = false) : str_trim (List.replicate n 32 ++ s) = s := by
  have hdrop : (List.replicate n 32 ++ s).dropWhile isSpace = s := by
    induction n with
    | zero =>
      obtain ⟨c, s, rfl⟩ := List.exists_cons_of_ne_nil hne
      exact List.dropWhile_cons_of_neg (Bool.eq_false_iff.mp hhead)
    | succ n ih => exact ih
  have hrev : s.reverse.dropWhile isSpace = s.reverse := by
    obtain ⟨t, c, rfl⟩ := (List.eq_nil_or_concat' s).resolve_left hne
    rw [List.getLast_append_singleton] at hlast
    rw [List.reverse_append, List.reverse_singleton, List.singleton_append]
    exact List.dropWhile_cons_of_neg (Bool.eq_false_iff.mp hlast)
  rw [str_trim, hdrop]
  cases s with
  | nil => exact absurd rfl hne
  | cons c s =>
    dsimp only
    rw [hrev, List.reverse_reverse]

theorem str_trim_spaced (a : ℕ × Arg) : str_trim (spaced a) = a.2.show := by
  have hends : isSpace (a.2.show.head a.2.show_ne_nil) = false ∧
      isSpace (a.2.show.getLast a.2.show_ne_nil) = false := by
    rcases a with ⟨n, a⟩
    cases a with
    | quoted s =>
      refine ⟨rfl, ?_⟩
      have hne : s.1 ++ [34] ≠ [] := List.append_ne_nil_of_right_ne_nil _ (List.cons_ne_nil _ _)
      simp only [Arg.show, List.getLast_cons hne, List.getLast_append_singleton]
      rfl
    | _ =>
      exact ⟨(Arg.letters _ (fun _ h ↦ by cases h) (List.head_mem _)).2,
        (Arg.letters _ (fun _ h ↦ by cases h) (List.getLast_mem _)).2⟩
  exact str_trim_spaces a.1 a.2.show_ne_nil hends.1 hends.2

/-- What the shell makes of an argument that it needs no variable for. -/
def Arg.read : Arg → Value
  | quoted s => .text s.1
  | decimal z | marked z => .word (BitVec.ofInt 64 (atoi (showInt z.1)))
  | hex ds => .word (str_hex_to_integer (48 :: 120 :: ds.1))
  | address _ | content _ => .word 0

theorem headD_eq_or_mem (s : Text) : s.headD 0 = 0 ∨ s.headD 0 ∈ s := by
  cases s with
  | nil => exact .inl rfl
  | cons c s => exact .inr List.mem_cons_self

theorem head_showInt (z : ℤ) :
    (showInt z).headD 0 ≠ 34 ∧ (showInt z).headD 0 ≠ 35 ∧ (showInt z).headD 0 ≠ 42 ∧
      ∀ c : UInt8, isDigit c = false → c ≠ 0 → c ≠ 45 → ((showInt z).drop 1).headD 0 ≠ c := by
  have hmem : ∀ c : UInt8, isDigit c = false → c ≠ 0 → c ≠ 45 → (showInt z).headD 0 ≠ c := by
    intro c hc hzero hminus heq
    rcases headD_eq_or_mem (showInt z) with h | h
    · exact hzero (heq ▸ h)
    · rcases mem_showInt (heq ▸ h) with h | h
      · rw [hc] at h
        cases h
      · exact hminus h
  refine ⟨hmem 34 rfl (by decide) (by decide), hmem 35 rfl (by decide) (by decide),
    hmem 42 rfl (by decide) (by decide), fun c hc hzero hminus heq ↦ ?_⟩
  rcases headD_eq_or_mem ((showInt z).drop 1) with h | h
  · exact hzero (heq ▸ h)
  · rcases mem_showInt (List.mem_of_mem_drop (heq ▸ h)) with h | h
    · rw [hc] at h
      cases h
    · exact hminus h

theorem eval_arg_decimal (vars : Text → Option Variable) (info : Option Variable) (z : ℤ) :
    eval_arg vars info (showInt z) = some (.word (BitVec.ofInt 64 (atoi (showInt z))), info) := by
  obtain ⟨hquote, hmark, hstar, hsecond⟩ := head_showInt z
  rw [eval_arg, if_neg hquote, if_neg hmark, if_neg fun h ↦ hstar h.1, if_neg, if_neg]
  · rintro ⟨-, h | h⟩
    · exact hsecond 100 rfl (by decide) (by decide) h
    · exact hsecond 68 rfl (by decide) (by decide) h
  · rintro ⟨-, h | h⟩
    · exact hsecond 120 rfl (by decide) (by decide) h
    · exact hsecond 88 rfl (by decide) (by decide) h

theorem eval_show (vars : Text → Option Variable) (info : Option Variable) (a : Arg)
    (hkey : a.key = none) : eval_arg vars info a.show = some (a.read, info) := by
  cases a with
  | quoted s =>
    have hlast : (34 :: (s.1 ++ [34])).getLast? = some 34 := by
      rw [← List.cons_append, List.getLast?_append_of_ne_nil _ (List.cons_ne_nil _ _)]
      rfl
    have hbody : ((34 :: (s.1 ++ [34])).drop 1).dropLast = s.1 := List.dropLast_concat
    rw [Arg.show, eval_arg, if_pos (by rfl), if_pos hlast, hbody]
    rfl
  | decimal z => exact eval_arg_decimal vars info z.1
  | marked z => rfl
  | hex ds => rfl
  | address name => cases hkey
  | content name => cases hkey

theorem eval_variable (info : Option Variable) {a : Arg} {key : Text} {i : Variable}
    (hkey : a.key = some key) (hi : vars key = some i) :
    ∃ v, a.value vars = some v ∧ eval_arg vars info a.show = some (v, some i) := by
  cases a with
  | address name =>
    cases hkey
    refine ⟨.word i.addr, by rw [Arg.value, hi]; rfl, ?_⟩
    change ((vars (35 :: name.text)).or info).map _ = _
    rw [hi]
    rfl
  | content name =>
    cases hkey
    refine ⟨.word i.content, by rw [Arg.value, hi]; rfl, ?_⟩
    change ((vars (35 :: name.text)).or info).map _ = _
    rw [hi]
    rfl
  | _ => cases hkey

theorem ofInt_atoi_iff (z : Number) :
    BitVec.ofInt 64 (atoi (showInt z.1)) = BitVec.ofInt 64 z.1 ↔
      -2 ^ 31 ≤ z.1 ∧ z.1 < 2 ^ 31 ∨ z.1 = 2 ^ 64 - 1 := by
  obtain ⟨z, hlo, hhi⟩ := z
  rw [atoi_showInt hlo, ← BitVec.toInt_inj, BitVec.toInt_ofInt, BitVec.toInt_ofInt,
    BitVec.toInt_ofInt]
  simp only [Int.bmod_def]
  omega

/-! ## The loop over the pieces -/

/-- The value of an argument as the shell finds it. -/
def Arg.seen (vars : Text → Option Variable) (a : Arg) : Value :=
  if a.key = none then a.read else (a.value vars).getD (.word 0)

theorem eval_spaced (info : Option Variable) {a : ℕ × Arg} (h : (a.2.value vars).isSome) :
    ∃ info', eval_arg vars info (str_trim (spaced a)) = some (a.2.seen vars, info') := by
  rw [str_trim_spaced]
  cases hkey : a.2.key with
  | none => exact ⟨info, by rw [eval_show vars info a.2 hkey, Arg.seen, if_pos hkey]⟩
  | some key =>
    have hvar : ∃ i, vars key = some i := by
      rcases a with ⟨n, a⟩
      cases a with
      | address name | content name =>
        cases hkey
        rw [Arg.value, Option.isSome_map] at h
        exact Option.isSome_iff_exists.mp h
      | _ => cases hkey
    obtain ⟨i, hi⟩ := hvar
    obtain ⟨v, hv, heval⟩ := eval_variable info hkey hi
    refine ⟨some i, heval.trans ?_⟩
    rw [Arg.seen, if_neg (by rw [hkey]; exact Option.some_ne_none _), hv]
    rfl

theorem eval_args_spaced {args : List (ℕ × Arg)} (h : ∀ a ∈ args, (a.2.value vars).isSome)
    (info : Option Variable) {n : ℕ} (hn : args.length ≤ n) :
    eval_args vars info n (args.map spaced) = .ok (args.map fun a ↦ a.2.seen vars) := by
  induction args generalizing info n with
  | nil => cases n <;> rfl
  | cons a args ih =>
    rw [List.forall_mem_cons] at h
    obtain ⟨n, rfl⟩ := Nat.exists_eq_add_one_of_ne_zero (Nat.ne_zero_of_lt hn)
    obtain ⟨info', heval⟩ := eval_spaced info h.1
    rw [List.map_cons, eval_args, heval]
    dsimp only
    rw [ih h.2 info' (Nat.le_of_succ_le_succ hn)]
    rfl

theorem mem_str_trim {s : Text} {c : UInt8} (h : c ∈ str_trim s) : c ∈ s := by
  rw [str_trim] at h
  split at h
  · exact List.mem_of_mem_drop h
  · have hbody := (List.dropWhile_sublist _).subset (List.mem_reverse.mp h)
    exact (List.dropWhile_sublist _).subset (List.mem_reverse.mp hbody)

theorem eval_arg_text {info info' : Option Variable} {arg s : Text}
    (h : eval_arg vars info arg = some (.text s, info')) : ∀ c ∈ s, c ∈ arg := by
  intro c hc
  rw [eval_arg] at h
  split_ifs at h
  · cases h
    exact List.mem_of_mem_drop (List.mem_of_mem_dropLast hc)
  · obtain ⟨i, -, hi⟩ := Option.map_eq_some_iff.mp h
    cases hi
  · obtain ⟨i, -, hi⟩ := Option.map_eq_some_iff.mp h
    cases hi
  all_goals cases h

theorem eval_args_text {pieces : List Text} (hpieces : ∀ p ∈ pieces, ∀ c ∈ p, separator c = false)
    {info : Option Variable} {n : ℕ} {par : List Value}
    (h : eval_args vars info n pieces = .ok par) :
    par.length ≤ n ∧ ∀ s, .text s ∈ par → ∀ c ∈ s, separator c = false := by
  induction pieces generalizing info n par with
  | nil =>
    rw [eval_args] at h
    cases h
    exact ⟨Nat.zero_le n, fun _ hs ↦ absurd hs List.not_mem_nil⟩
  | cons p pieces ih =>
    rw [List.forall_mem_cons] at hpieces
    rw [eval_args] at h
    split at h
    · cases h
    next v info' heval =>
    cases n with
    | zero => cases h
    | succ n =>
      dsimp only at h
      cases hrest : eval_args vars info' n pieces with
      | ok rest =>
        rw [hrest] at h
        cases h
        obtain ⟨hlen, htext⟩ := ih hpieces.2 hrest
        refine ⟨Nat.succ_le_succ hlen, fun s hs c hc ↦ ?_⟩
        rcases List.mem_cons.mp hs with rfl | hs
        · exact hpieces.1 c (mem_str_trim (eval_arg_text heval c hc))
        · exact htext s hs c hc
      | failed =>
        rw [hrest] at h
        cases h
      | wild =>
        rw [hrest] at h
        cases h

theorem mapM_eq_some {α β : Type} {f : α → Option β} {as : List α} {bs : List β} :
    as.mapM f = some bs ↔ as.map f = bs.map some := by
  induction as generalizing bs with
  | nil => cases bs <;> simp [pure]
  | cons a as ih =>
    rw [List.mapM_cons, List.map_cons]
    constructor
    · intro h
      obtain ⟨b, hb, h⟩ := Option.bind_eq_some_iff.mp h
      obtain ⟨bs', hbs, h⟩ := Option.bind_eq_some_iff.mp h
      cases h
      rw [hb, ih.mp hbs, List.map_cons]
    · intro h
      cases bs with
      | nil => cases h
      | cons b bs =>
        rw [List.map_cons, List.cons.injEq] at h
        rw [h.1, ih.mpr h.2]
        rfl

theorem seen_eq_iff {a : Arg} {v : Value} (hv : a.value vars = some v)
    (hquoted : ∀ s, a = .quoted s → ∀ c ∈ s.1, separator c = false) :
    a.seen vars = v ↔ a.Plain := by
  cases a with
  | quoted s =>
    cases hv
    exact iff_of_true rfl (hquoted s rfl)
  | decimal z =>
    cases hv
    refine Iff.trans ?_ (ofInt_atoi_iff z)
    exact Value.word.injEq _ _ ▸ Iff.rfl
  | marked z =>
    cases hv
    refine Iff.trans ?_ (ofInt_atoi_iff z)
    exact Value.word.injEq _ _ ▸ Iff.rfl
  | hex ds =>
    cases hv
    exact iff_of_true (congrArg Value.word (str_hex_to_integer_eq ds.1 ds.2)) trivial
  | address name | content name =>
    refine iff_of_true ?_ trivial
    rw [Arg.seen, hv]
    rfl

theorem length_pad {par : List Value} (h : par.length ≤ 20) : (pad par).length = 20 := by
  rw [pad, List.length_append, List.length_replicate]
  omega

theorem pad_take_inj {par vs : List Value} {k : ℕ} (hlen : par.length = vs.length)
    (hk : vs.length ≤ k) (h : (pad par).take k = (pad vs).take k) : par = vs := by
  have htake := congrArg (List.take vs.length) h
  rwa [List.take_take, List.take_take, min_eq_left hk, pad, pad, List.take_left' hlen,
    List.take_left] at htake

theorem eval_args_iff {args : List (ℕ × Arg)} {vs : List Value} {k : ℕ}
    (hvs : args.mapM (fun a ↦ a.2.value vars) = some vs) (hk : args.length ≤ k) (hle : k ≤ 20) :
    (∃ par, eval_args vars none 20 (split (showArgs args)) = .ok par ∧
      (pad par).take k = (pad vs).take k) ↔ ∀ a ∈ args, a.2.Plain := by
  have hmap := mapM_eq_some.mp hvs
  have hlen : args.length = vs.length := by simpa using congrArg List.length hmap
  have hvalue : ∀ a ∈ args, ∃ v ∈ vs, a.2.value vars = some v := by
    intro a ha
    obtain ⟨v, hv, heq⟩ := List.mem_map.mp (hmap ▸ List.mem_map_of_mem ha)
    exact ⟨v, hv, heq.symm⟩
  have hsome : ∀ a ∈ args, (a.2.value vars).isSome := by
    intro a ha
    obtain ⟨v, -, hv⟩ := hvalue a ha
    rw [hv]
    rfl
  have hseen (hplain : ∀ a ∈ args, ∀ c ∈ a.2.show, separator c = false) :
      eval_args vars none 20 (split (showArgs args)) = .ok (args.map fun a ↦ a.2.seen vars) := by
    rw [split_showArgs hplain, eval_args_spaced hsome none (hk.trans hle)]
  have hiff (hplain : ∀ a ∈ args, ∀ c ∈ a.2.show, separator c = false) :
      args.map (fun a ↦ a.2.seen vars) = vs ↔ ∀ a ∈ args, a.2.Plain := by
    rw [← (List.map_injective_iff.mpr (Option.some_injective Value)).eq_iff, ← hmap, List.map_map,
      List.map_inj_left]
    refine forall₂_congr fun a ha ↦ ?_
    obtain ⟨v, -, hv⟩ := hvalue a ha
    rw [hv]
    refine Option.some_inj.trans (seen_eq_iff hv fun s hs c hc ↦ hplain a ha c ?_)
    rw [hs]
    exact List.mem_cons_of_mem _ (List.mem_append_left _ hc)
  constructor
  · rintro ⟨par, hpar, htake⟩
    have hplain : ∀ a ∈ args, ∀ c ∈ a.2.show, separator c = false := by
      intro a ha c hc
      by_cases hquoted : ∃ s, a.2 = .quoted s
      swap
      · exact (Arg.letters _ (fun s hs ↦ hquoted ⟨s, hs⟩) hc).1
      obtain ⟨s, hs⟩ := hquoted
      obtain ⟨v, hv, hvalue⟩ := hvalue a ha
      rw [hs] at hvalue hc
      cases hvalue
      have hmem : .text s.1 ∈ (pad vs).take k := by
        rw [pad, List.take_append, List.take_of_length_le (hlen ▸ hk)]
        exact List.mem_append_left _ hv
      have hpieces : ∀ p ∈ split (showArgs args), ∀ c ∈ p, separator c = false :=
        fun p hp ↦ mem_cutFrom (fun _ h ↦ absurd h List.not_mem_nil) hp
      have htext : .text s.1 ∈ par := by
        rcases List.mem_append.mp (List.mem_of_mem_take (htake ▸ hmem)) with h | h
        · exact h
        · cases List.eq_of_mem_replicate h
      rcases List.mem_cons.mp hc with rfl | hc
      · rfl
      rcases List.mem_append.mp hc with hc | hc
      · exact (eval_args_text hpieces hpar).2 s.1 htext c hc
      · exact List.mem_singleton.mp hc ▸ rfl
    cases (hseen hplain).symm.trans hpar
    exact (hiff hplain).mp (pad_take_inj (by rw [List.length_map, hlen]) (hlen ▸ hk) htake)
  · intro hplain
    have hshow : ∀ a ∈ args, ∀ c ∈ a.2.show, separator c = false :=
      fun a ha c hc ↦ separator_show (hplain a ha) hc
    exact ⟨_, hseen hshow, by rw [(hiff hshow).mpr hplain]⟩

theorem eval_arg_cases (vars : Text → Option Variable) (info : Option Variable) (p : Text) :
    (refers p = none ∧ Open p ∧ eval_arg vars info (str_trim p) = none) ∨
    (refers p = none ∧ ¬ Open p ∧ ∃ v, eval_arg vars info (str_trim p) = some (v, info)) ∨
    ∃ key, refers p = some key ∧ ¬ Open p ∧ ∃ f : Variable → Value,
      eval_arg vars info (str_trim p) = ((vars key).or info).map fun i ↦ (f i, some i) := by
  rw [eval_arg, refers, Open]
  generalize str_trim p = arg
  by_cases hquote : arg.headD 0 = 34
  · have hrefers : (if arg.headD 0 = 35 then some arg
        else if arg.headD 0 = 42 ∧ (arg.drop 1).headD 0 = 35 then some (arg.drop 1)
        else none) = none := by
      rw [hquote, if_neg (by decide), if_neg fun h ↦ absurd h.1 (by decide)]
    rw [if_pos hquote, hrefers]
    by_cases hlast : arg.getLast? = some 34
    · rw [if_pos hlast]
      exact .inr (.inl ⟨rfl, fun h ↦ h.2 hlast, _, rfl⟩)
    · rw [if_neg hlast]
      exact .inl ⟨rfl, ⟨hquote, hlast⟩, rfl⟩
  have hopen : ¬ (arg.headD 0 = 34 ∧ arg.getLast? ≠ some 34) := fun h ↦ hquote h.1
  rw [if_neg hquote]
  by_cases hmark : arg.headD 0 = 35
  · rw [if_pos hmark, if_pos hmark]
    exact .inr (.inr ⟨arg, rfl, hopen, _, rfl⟩)
  rw [if_neg hmark, if_neg hmark]
  by_cases hstar : arg.headD 0 = 42 ∧ (arg.drop 1).headD 0 = 35
  · rw [if_pos hstar, if_pos hstar]
    exact .inr (.inr ⟨arg.drop 1, rfl, hopen, _, rfl⟩)
  rw [if_neg hstar, if_neg hstar]
  refine .inr (.inl ⟨rfl, hopen, ?_⟩)
  split
  · exact ⟨_, rfl⟩
  split
  · exact ⟨_, rfl⟩
  · exact ⟨_, rfl⟩

theorem eval_arg_none_iff (info : Option Variable) (p : Text) :
    eval_arg vars info (str_trim p) = none ↔
      Open p ∨ ∃ key, refers p = some key ∧ vars key = none ∧ info = none := by
  rcases eval_arg_cases vars info p with
    ⟨-, hopen, heval⟩ | ⟨hrefers, hopen, v, heval⟩ | ⟨key, hrefers, hopen, f, heval⟩
  · exact iff_of_true heval (.inl hopen)
  · refine iff_of_false (heval ▸ Option.some_ne_none _) ?_
    rintro (h | ⟨key, hkey, -⟩)
    · exact hopen h
    · exact absurd (hrefers.symm.trans hkey) (Option.some_ne_none _).symm
  · rw [heval, Option.map_eq_none_iff, Option.or_eq_none_iff]
    constructor
    · exact fun h ↦ .inr ⟨key, hrefers, h⟩
    · rintro (h | ⟨key', hkey, h⟩)
      · exact absurd h hopen
      · cases hrefers.symm.trans hkey
        exact h

theorem eval_arg_info {info info' : Option Variable} {p : Text} {v : Value}
    (h : eval_arg vars info (str_trim p) = some (v, info')) :
    info' = none ↔ info = none ∧ ∀ k, refers p = some k → vars k = none := by
  rcases eval_arg_cases vars info p with
    ⟨-, -, heval⟩ | ⟨hrefers, -, v', heval⟩ | ⟨key, hrefers, -, f, heval⟩
  · exact absurd (heval.symm.trans h) (Option.some_ne_none _).symm
  · cases heval.symm.trans h
    rw [hrefers]
    exact (and_iff_left fun _ hk ↦ absurd hk (Option.some_ne_none _).symm).symm
  · obtain ⟨i, hi, heq⟩ := Option.map_eq_some_iff.mp (heval.symm.trans h)
    cases heq
    refine iff_of_false (Option.some_ne_none _) fun ⟨hinfo, hvars⟩ ↦ ?_
    rw [hinfo, hvars key hrefers] at hi
    cases hi

theorem cons_eq_failed (v : Value) (p : Params) : p.cons v = .failed ↔ p = .failed := by
  cases p <;> exact ⟨fun h ↦ by cases h <;> rfl, fun h ↦ by cases h <;> rfl⟩

theorem eval_args_failed (info : Option Variable) (n : ℕ) (pieces : List Text) :
    eval_args vars info n pieces = .failed ↔
      ∃ before piece behind, pieces.take (n + 1) = before ++ piece :: behind ∧
        (Open piece ∨ ∃ key, refers piece = some key ∧ vars key = none ∧
          info = none ∧ ∀ b ∈ before, ∀ k, refers b = some k → vars k = none) := by
  induction pieces generalizing info n with
  | nil =>
    refine iff_of_false (fun h ↦ by cases n <;> cases h) ?_
    rintro ⟨before, piece, behind, heq, -⟩
    cases before <;> cases heq
  | cons p pieces ih =>
    rw [eval_args, List.take_succ_cons]
    cases heval : eval_arg vars info (str_trim p) with
    | none =>
      refine iff_of_true rfl ⟨[], p, pieces.take n, rfl, ?_⟩
      rcases (eval_arg_none_iff info p).mp heval with h | ⟨key, hkey, hvar, hinfo⟩
      · exact .inl h
      · exact .inr ⟨key, hkey, hvar, hinfo, fun _ h ↦ absurd h List.not_mem_nil⟩
    | some r =>
      obtain ⟨v, info'⟩ := r
      have hinfo := eval_arg_info heval
      have hgood : ¬ (Open p ∨ ∃ key, refers p = some key ∧ vars key = none ∧ info = none) :=
        fun h ↦ absurd ((eval_arg_none_iff info p).mpr h)
          (by rw [heval]; exact Option.some_ne_none _)
      cases n with
      | zero =>
        refine iff_of_false (fun h ↦ by cases h) ?_
        rintro ⟨before, piece, behind, heq, hfails⟩
        cases before with
        | nil =>
          cases heq
          exact hgood (hfails.imp_right fun ⟨key, hkey, hvar, hnone, _⟩ ↦
            ⟨key, hkey, hvar, hnone⟩)
        | cons b before =>
          have := congrArg List.length (List.cons.inj heq).2
          simp at this
      | succ n =>
        dsimp only
        rw [cons_eq_failed, ih, hinfo]
        constructor
        · rintro ⟨before, piece, behind, heq, hfails⟩
          refine ⟨p :: before, piece, behind, congrArg _ heq, hfails.imp_right ?_⟩
          rintro ⟨key, hkey, hvar, ⟨hnone, hp⟩, hbefore⟩
          exact ⟨key, hkey, hvar, hnone, List.forall_mem_cons.mpr ⟨hp, hbefore⟩⟩
        · rintro ⟨before, piece, behind, heq, hfails⟩
          cases before with
          | nil =>
            cases heq
            exact absurd (hfails.imp_right fun ⟨key, hkey, hvar, hnone, _⟩ ↦
              ⟨key, hkey, hvar, hnone⟩) hgood
          | cons b before =>
            cases (List.cons.inj heq).1
            refine ⟨before, piece, behind, (List.cons.inj heq).2, hfails.imp_right ?_⟩
            rintro ⟨key, hkey, hvar, hnone, hbefore⟩
            rw [List.forall_mem_cons] at hbefore
            exact ⟨key, hkey, hvar, ⟨hnone, hbefore.1⟩, hbefore.2⟩

theorem eval_args_failed_iff (pieces : List Text) :
    eval_args vars none 20 pieces = .failed ↔ Fails vars (pieces.take 21) := by
  rw [eval_args_failed, Fails]
  simp only [true_and]

theorem values_eq_some {cmd : Command} {places : ℕ} {vs : List Value}
    (h : cmd.values vars places = some vs) :
    cmd.args.length ≤ places ∧ cmd.args.mapM (fun a ↦ a.2.value vars) = some vs := by
  rw [Command.values] at h
  split at h
  · cases h
  · next hle => exact ⟨not_lt.mp hle, h⟩

theorem eval_args_length {args : List (ℕ × Arg)} {par : List Value}
    (h : eval_args vars none 20 (split (showArgs args)) = .ok par) : (pad par).length = 20 :=
  length_pad (eval_args_text (fun _ hp ↦ mem_cutFrom (fun _ h ↦ absurd h List.not_mem_nil) hp)
    h).1

theorem passed_eq_iff (cmd : Command) {par vs : List Value} (hpar : par.length = 20)
    (hvs : vs.length = 20) :
    passed cmd.name.text par = passed cmd.name.text vs ↔
      par.take cmd.places = vs.take cmd.places := by
  rw [passed, passed, Command.places]
  split
  · rw [List.cons.injEq, and_iff_right rfl]
  · rw [List.take_of_length_le hpar.le, List.take_of_length_le hvs.le]

theorem places_le (cmd : Command) : cmd.places ≤ 20 := by
  rw [Command.places]
  split <;> decide

theorem eval_values_iff {cmd : Command} {places : ℕ} {vs : List Value} (hplaces : places ≤ 20)
    (h : cmd.values vars places = some vs) :
    (∃ par, eval_args vars none 20 (split (showArgs cmd.args)) = .ok par ∧
      (pad par).take places = (pad vs).take places) ↔ ∀ a ∈ cmd.args, a.2.Plain :=
  eval_args_iff (values_eq_some h).2 (values_eq_some h).1 hplaces

theorem length_values {cmd : Command} {places : ℕ} {vs : List Value} (hplaces : places ≤ 20)
    (h : cmd.values vars places = some vs) : (pad vs).length = 20 := by
  have hlen := congrArg List.length (mapM_eq_some.mp (values_eq_some h).2)
  rw [List.length_map, List.length_map] at hlen
  exact length_pad (hlen ▸ (values_eq_some h).1.trans hplaces)

theorem run_func_iff (func : Text → Option F) (vars : Text → Option Variable) (cmd : Command) :
    run_func func vars cmd.line = cmd.meant func vars ↔
      cmd.line.length < 128 ∧ (func cmd.name.text = none ∨
        (cmd.values vars cmd.places = none → Fails vars ((split (showArgs cmd.args)).take 21)) ∧
        (cmd.values vars cmd.places ≠ none → ∀ a ∈ cmd.args, a.2.Plain)) := by
  rw [run_func, Command.meant]
  by_cases hline : 128 ≤ cmd.line.length
  · rw [if_pos hline, if_pos hline]
    exact iff_of_false (fun h ↦ by cases h) fun h ↦ absurd h.1 (not_lt.mpr hline)
  rw [if_neg hline, if_neg hline, cmd.split_line, and_iff_right (not_le.mp hline)]
  dsimp only
  cases func cmd.name.text with
  | none => exact iff_of_true rfl (.inl rfl)
  | some f =>
    rw [or_iff_right (Option.some_ne_none f), ← eval_args_failed_iff]
    dsimp only
    cases hvalues : cmd.values vars cmd.places with
    | none =>
      rw [and_iff_left fun h ↦ absurd rfl h]
      cases eval_args vars none 20 (split (showArgs cmd.args)) with
      | failed => exact iff_of_true rfl fun _ ↦ rfl
      | wild => exact iff_of_false (fun h ↦ by cases h) fun h ↦ by cases h rfl
      | ok par => exact iff_of_false (fun h ↦ by cases h) fun h ↦ by cases h rfl
    | some vs =>
      rw [and_iff_right fun h ↦ absurd h (Option.some_ne_none vs),
        ← eval_values_iff (places_le cmd) hvalues]
      cases heval : eval_args vars none 20 (split (showArgs cmd.args)) with
      | failed =>
        refine iff_of_false (fun h ↦ by cases h) fun h ↦ ?_
        obtain ⟨par, hpar, -⟩ := h (Option.some_ne_none vs)
        cases hpar
      | wild =>
        refine iff_of_false (fun h ↦ by cases h) fun h ↦ ?_
        obtain ⟨par, hpar, -⟩ := h (Option.some_ne_none vs)
        cases hpar
      | ok par =>
        have hiff := passed_eq_iff cmd (eval_args_length heval)
          (length_values (places_le cmd) hvalues)
        constructor
        · intro h _
          exact ⟨par, rfl, hiff.mp (Outcome.called.inj h).2⟩
        · intro h
          obtain ⟨par', hpar, htake⟩ := h (Option.some_ne_none vs)
          cases hpar
          exact congrArg _ (hiff.mpr htake)

theorem Command.method_eq_some {cmd : Command} {objects : BitVec 64 → Option (Text → Option F)}
    {f : F} {par : List Value} (h : cmd.method objects vars = some (f, par)) :
    ∃ values methods, cmd.values vars 20 = some values ∧ par = pad values ∧
      object objects ((pad values).headD (.word 0)) = some methods ∧
      methods cmd.name.text = some f := by
  obtain ⟨values, hvalues, h⟩ := Option.bind_eq_some_iff.mp h
  obtain ⟨methods, hmethods, h⟩ := Option.bind_eq_some_iff.mp h
  obtain ⟨f', hf, h⟩ := Option.bind_eq_some_iff.mp h
  cases h
  exact ⟨values, methods, hvalues, rfl, hmethods, hf⟩

theorem run_object_func_iff (objects : BitVec 64 → Option (Text → Option F))
    (vars : Text → Option Variable) (cmd : Command) :
    run_object_func objects vars cmd.line = cmd.meantObject objects vars ↔
      (cmd.method objects vars = none →
        Refused objects vars cmd.name.text (split (showArgs cmd.args))) ∧
      (cmd.method objects vars ≠ none → ∀ a ∈ cmd.args, a.2.Plain) := by
  rw [run_object_func, Command.meantObject, cmd.split_line, Refused, ← eval_args_failed_iff]
  dsimp only
  cases hmethod : cmd.method objects vars with
  | none =>
    rw [and_iff_left fun h ↦ absurd rfl h, forall_prop_of_true rfl]
    cases eval_args vars none 20 (split (showArgs cmd.args)) with
    | failed => exact iff_of_true rfl (.inl rfl)
    | wild => simp
    | ok par =>
      simp only [Params.ok.injEq, reduceCtorEq, false_or, exists_and_left, exists_eq_left']
      cases object objects ((pad par).headD (.word 0)) with
      | none => simp
      | some methods =>
        dsimp only
        cases hf : methods cmd.name.text <;> simp [hf]
  | some call =>
    obtain ⟨f, par⟩ := call
    obtain ⟨vs, methods, hvalues, rfl, hobject, hf⟩ := cmd.method_eq_some hmethod
    have htake {values : List Value} (h : (pad values).length = 20) :
        (pad values).take 20 = pad values := List.take_of_length_le h.le
    rw [and_iff_right fun h ↦ absurd h (Option.some_ne_none _),
      ← eval_values_iff le_rfl hvalues, htake (length_values le_rfl hvalues)]
    constructor
    · intro h _
      cases heval : eval_args vars none 20 (split (showArgs cmd.args)) with
      | failed =>
        rw [heval] at h
        cases h
      | wild =>
        rw [heval] at h
        cases h
      | ok par =>
        rw [heval] at h
        dsimp only at h
        refine ⟨par, rfl, (htake (eval_args_length heval)).trans ?_⟩
        split at h
        · cases h
        split at h
        · cases h
        · exact (Outcome.called.inj h).2
    · intro h
      obtain ⟨par, hpar, hpad⟩ := h (Option.some_ne_none _)
      rw [htake (eval_args_length hpar)] at hpad
      rw [hpar]
      dsimp only
      rw [hpad, hobject]
      dsimp only
      rw [hf]

/-- Both calls do what is meant exactly under these conditions: `run_func` for a line below 128
characters, whose function is known; then a command with too many arguments or with an unknown
variable is rejected by one of the pieces, and in any other one each argument is plain.
`run_object_func` for a command that means a method if each argument is plain, and for another one
if it is refused. -/
theorem run_iff (func : Text → Option F) (objects : BitVec 64 → Option (Text → Option F))
    (vars : Text → Option Variable) (cmd : Command) :
    (run_func func vars cmd.line = cmd.meant func vars ↔
      cmd.line.length < 128 ∧ (func cmd.name.text = none ∨
        (cmd.values vars cmd.places = none → Fails vars ((split (showArgs cmd.args)).take 21)) ∧
        (cmd.values vars cmd.places ≠ none → ∀ a ∈ cmd.args, a.2.Plain))) ∧
    (run_object_func objects vars cmd.line = cmd.meantObject objects vars ↔
      (cmd.method objects vars = none →
        Refused objects vars cmd.name.text (split (showArgs cmd.args))) ∧
      (cmd.method objects vars ≠ none → ∀ a ∈ cmd.args, a.2.Plain)) :=
  ⟨run_func_iff func vars cmd, run_object_func_iff objects vars cmd⟩

/-- `f("a,b")` -/
def commaCommand : Command :=
  ⟨⟨[102], by decide, List.forall_iff_forall_mem.mp (by decide)⟩,
    [(0, .quoted ⟨[97, 44, 98], by decide⟩)]⟩

/-- `f(#x, #y)` -/
def unknownCommand : Command :=
  ⟨⟨[102], by decide, List.forall_iff_forall_mem.mp (by decide)⟩,
    [(0, .address ⟨[120], by decide, List.forall_iff_forall_mem.mp (by decide)⟩),
      (1, .address ⟨[121], by decide, List.forall_iff_forall_mem.mp (by decide)⟩)]⟩

/-- Only `#x` is known. -/
def oneVariable (key : Text) : Option Variable := if key = [35, 120] then some ⟨4096, 0⟩ else none

/-- A quoted comma lets the call be rejected, and an unknown variable behind a known one is taken
for this. -/
theorem not_run :
    run_func (fun _ ↦ some ()) oneVariable commaCommand.line ≠
      commaCommand.meant (fun _ ↦ some ()) oneVariable ∧
    run_func (fun _ ↦ some ()) oneVariable unknownCommand.line ≠
      unknownCommand.meant (fun _ ↦ some ()) oneVariable := by
  constructor
  · decide
  · decide

end Libobject.FShell
