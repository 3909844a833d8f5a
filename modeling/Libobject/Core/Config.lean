import Libobject.Core.CtrAlloc
import Libobject.Core.String
import Libobject.Core.StringUtils
import Libobject.Lib.NameTree
import Libobject.Lib.Run
import Mathlib.Logic.Function.Basic

/-!
# Configuring by paths

A configurator keeps a JSON text in a buffer. A call parses it, walks along a path, adds a number or
a string at its end, and prints it again.
-/

namespace Libobject.Configurator

open Scan StringUtils

inductive Leaf
  | num (n : BitVec 32)
  | str (s : Text)
  deriving DecidableEq

abbrev Json := NameTree Text Leaf

/-- `cjson_strcasecmp` gives 0 for two names exactly if these are equal. -/
def fold (name : Text) : Text := name.map Str.toLower

/-- `cjson_print` and `cjson_parse` for the objects that are configured. -/
structure Cjson where
  print : Json → Text
  parse : Text → Option Json
  ne_nil : ∀ t, print t ≠ []
  inverse : ∀ t, parse (print t) = some t

structure Call where
  path : CText
  name : CText
  value : Leaf

def DEFAULT_CONFIG_BUF_LEN : ℕ := 1024

/-- The bytes of a slab of the default allocator, which has twelve classes from 8 bytes on. -/
def usable (size : ℕ) : ℕ :=
  match CtrAlloc.slabIndexFrom 8 size 12 0 with
  | some (some i) => CtrAlloc.unit 8 i
  | _ => size

/-- The length is taken as an `int`. -/
def compute_slash_count (path : Text) : ℕ :=
  (path.take (BitVec.ofNat 32 path.length).toInt.toNat).count 47

/-- `str_split`. -/
def components (path : Text) : List Text := cut (fun c ↦ c = 47) path

/-- The copy of the path and the array of its components are large enough. -/
def Roomy (path : Text) : Prop :=
  path.length + 1 ≤ usable (path.length % 2 ^ 32) ∧
    8 * (components path).length ≤ usable (8 * compute_slash_count path % 2 ^ 32)

instance (path : Text) : Decidable (Roomy path) := inferInstanceAs (Decidable (_ ∧ _))

variable (cj : Cjson)

def current (buf : Text) : Option Json := if buf = [] then some (.object []) else cj.parse buf

/-- `cfg_config_num` and `cfg_config_str`, with what is in the buffer afterwards. `none` where
something is written behind the copy, the array or the buffer, where `NULL` is added to, and where
no component has set the item. -/
def cfg_config (buf : Text) (call : Call) : Option (ℤ × Text) :=
  if ¬ Roomy call.path.1 then none
  else
    match current cj buf, components call.path.1 with
    | none, _ => none
    | some _, [] => none
    | some root, c :: out =>
      let p := cj.print (root.put fold (c :: out) call.name.1 call.value)
      if DEFAULT_CONFIG_BUF_LEN < p.length then some (-1, buf)
      else if p.length = DEFAULT_CONFIG_BUF_LEN then none
      else some (0, p)

/-- The buffer, and what was configured so far. -/
structure Config where
  buf : Text
  configured : List Text → Option Leaf

def Config.init : Config := ⟨[], fun _ ↦ none⟩

/-- The path and the name, without regard to case. -/
def Call.key (call : Call) : List Text := (components call.path.1 ++ [call.name.1]).map fold

def Config.after (c : Config) (call : Call) (ret : ℤ) (buf : Text) : Config :=
  ⟨buf, if ret = 0 then Function.update c.configured call.key (some call.value)
    else c.configured⟩

def step (s : Option Config) (call : Call) : Option Config :=
  s.bind fun c ↦ (cfg_config cj c.buf call).map fun r ↦ c.after call r.1 r.2

/-- The buffer holds what was configured and nothing else. -/
def Config.Holds (c : Config) : Prop :=
  ∃ t, cj.parse c.buf = some t ∧ NameTree.Shows fold c.configured t

/-- A successful call leaves a buffer that holds what was configured, any other one leaves the
buffer as it was. -/
def Good (s : Option Config) (call : Call) (s' : Option Config) : Prop :=
  ∃ c ret buf, s = some c ∧ cfg_config cj c.buf call = some (ret, buf) ∧
    s' = some (c.after call ret buf) ∧
    (ret ≠ 0 ∧ buf = c.buf ∨ ret = 0 ∧ (c.after call ret buf).Holds cj)

/-- The text with the value of the call added. -/
def Config.text (c : Config) (call : Call) : Text :=
  cj.print (((current cj c.buf).getD (.object [])).put fold (components call.path.1) call.name.1
    call.value)

/-- There is room for the copy and the components, of which there is one at least, and either the
text is too long or there is room behind it and the place is not at, above or below one that is
configured. -/
def Config.Served (c : Config) (call : Call) : Prop :=
  Roomy call.path.1 ∧ components call.path.1 ≠ [] ∧
    (DEFAULT_CONFIG_BUF_LEN < (c.text cj call).length ∨
      (c.text cj call).length < DEFAULT_CONFIG_BUF_LEN ∧ NameTree.Apart c.configured call.key)

def ServedStep (s : Option Config) (call : Call) (_ : Option Config) : Prop :=
  ∃ c, s = some c ∧ c.Served cj call

/-! ## A call -/

variable {cj}

/-- What the buffer holds is neat. -/
def Config.Valid (cj : Cjson) (c : Config) : Prop :=
  ∃ t, current cj c.buf = some t ∧ NameTree.Neat fold t ∧ NameTree.Shows fold c.configured t

theorem Config.init_valid : Config.init.Valid cj :=
  ⟨.object [], rfl, ⟨List.Pairwise.nil, trivial⟩, NameTree.shows_empty⟩

theorem cfg_config_eq {c : Config} {t : Json} (ht : current cj c.buf = some t) (call : Call) :
    cfg_config cj c.buf call =
      if ¬ Roomy call.path.1 ∨ components call.path.1 = [] then none
      else if DEFAULT_CONFIG_BUF_LEN < (c.text cj call).length then some (-1, c.buf)
      else if (c.text cj call).length = DEFAULT_CONFIG_BUF_LEN then none
      else some (0, c.text cj call) := by
  rw [cfg_config, ht, Config.text, ht]
  by_cases hroomy : Roomy call.path.1
  swap
  · rw [if_pos hroomy, if_pos (.inl hroomy)]
  rw [if_neg (not_not.mpr hroomy)]
  cases components call.path.1 with
  | nil => rw [if_pos (.inr rfl)]
  | cons k out =>
    rw [if_neg (not_or.mpr ⟨not_not.mpr hroomy, List.cons_ne_nil _ _⟩)]
    rfl

theorem current_print (t : Json) : current cj (cj.print t) = some t := by
  rw [current, if_neg (cj.ne_nil t), cj.inverse]

theorem Config.text_eq {c : Config} {t : Json} (ht : current cj c.buf = some t) (call : Call) :
    c.text cj call =
      cj.print (t.put fold (components call.path.1) call.name.1 call.value) := by
  rw [Config.text, ht]
  rfl

theorem Config.Valid.good_iff {c : Config} (h : c.Valid cj) (call : Call) :
    Good cj (some c) call (step cj (some c) call) ↔ c.Served cj call := by
  obtain ⟨t, ht, hneat, hshows⟩ := h
  have hconfig := cfg_config_eq ht call
  by_cases hbad : ¬ Roomy call.path.1 ∨ components call.path.1 = []
  · rw [if_pos hbad] at hconfig
    refine iff_of_false ?_ fun hserved ↦ ?_
    · rintro ⟨c', ret, buf, hc, hret, -⟩
      cases hc
      cases hconfig.symm.trans hret
    · exact hbad.elim (fun hroomy ↦ hroomy hserved.1) hserved.2.1
  rw [if_neg hbad] at hconfig
  obtain ⟨hroomy, hne⟩ := not_or.mp hbad
  rw [Config.Served, and_iff_right (not_not.mp hroomy), and_iff_right hne]
  have hstep (ret : ℤ) (buf : Text) (hret : cfg_config cj c.buf call = some (ret, buf)) :
      Good cj (some c) call (step cj (some c) call) ↔
        ret ≠ 0 ∧ buf = c.buf ∨ ret = 0 ∧ (c.after call ret buf).Holds cj := by
    constructor
    · rintro ⟨c', ret', buf', hc, hret', -, hgood⟩
      cases hc
      cases hret.symm.trans hret'
      exact hgood
    · intro hgood
      refine ⟨c, ret, buf, rfl, hret, ?_, hgood⟩
      rw [step, Option.bind_some, hret]
      rfl
  rcases lt_trichotomy (c.text cj call).length DEFAULT_CONFIG_BUF_LEN with hlt | heq | hgt
  · rw [if_neg (not_lt.mpr hlt.le), if_neg hlt.ne] at hconfig
    rw [hstep _ _ hconfig, or_iff_right fun h ↦ h.1 rfl, and_iff_right rfl,
      or_iff_right (not_lt.mpr hlt.le), and_iff_right hlt, Call.key,
      ← hshows.put_iff hneat call.value]
    constructor
    · rintro ⟨t', hparse, hholds⟩
      rw [Config.after, if_pos rfl] at hholds
      rw [Config.after, Config.text_eq ht, cj.inverse] at hparse
      cases hparse
      exact hholds
    · intro hholds
      refine ⟨_, ?_, hholds⟩
      rw [Config.after, Config.text_eq ht, cj.inverse]
  · rw [if_neg (not_lt.mpr heq.le), if_pos heq] at hconfig
    refine iff_of_false ?_ ?_
    · rintro ⟨c', ret, buf, hc, hret, -⟩
      cases hc
      cases hconfig.symm.trans hret
    · rintro (h | h)
      · exact absurd heq h.ne'
      · exact absurd heq h.1.ne
  · rw [if_pos hgt] at hconfig
    rw [hstep _ _ hconfig]
    exact iff_of_true (.inl ⟨by decide, rfl⟩) (.inl hgt)

theorem Config.Valid.after {c : Config} (h : c.Valid cj) {call : Call}
    (hserved : c.Served cj call) :
    ∃ c', step cj (some c) call = some c' ∧ c'.Valid cj := by
  obtain ⟨t, ht, hneat, hshows⟩ := h
  obtain ⟨hroomy, hne, hcases⟩ := hserved
  have hconfig := cfg_config_eq ht call
  rw [if_neg (not_or.mpr ⟨not_not.mpr hroomy, hne⟩)] at hconfig
  rcases hcases with hgt | ⟨hlt, hapart⟩
  · rw [if_pos hgt] at hconfig
    refine ⟨c.after call (-1) c.buf, ?_, t, ht, hneat, ?_⟩
    · rw [step, Option.bind_some, hconfig]
      rfl
    · rw [Config.after, if_neg (by decide)]
      exact hshows
  · rw [if_neg (not_lt.mpr hlt.le), if_neg hlt.ne, Config.text_eq ht] at hconfig
    refine ⟨c.after call 0 (cj.print (t.put fold (components call.path.1) call.name.1 call.value)),
      ?_, t.put fold (components call.path.1) call.name.1 call.value, current_print _, ?_, ?_⟩
    · rw [step, Option.bind_some, hconfig]
      rfl
    · exact hneat.put (hshows.open hneat hapart) (hshows.get_eq_none hneat hapart) _
    · rw [Config.after, if_pos rfl]
      exact hshows.put hneat hapart call.value

/-- A name or a string between quotation marks, with every character escaped. -/
def quote : Text → Text
  | [] => [34]
  | c :: s => 92 :: c :: quote s

mutual

def print : Json → Text
  | .value (.num n) => 110 :: (showNat n.toNat ++ [59])
  | .value (.str s) => 34 :: quote s
  | .object ms => 123 :: printAll ms

def printAll : List (Text × Json) → Text
  | [] => [125]
  | (n, t) :: ms => 44 :: (quote n ++ (print t ++ printAll ms))

end

theorem quote_append_inj {s s' r r' : Text} (h : quote s ++ r = quote s' ++ r') :
    s = s' ∧ r = r' := by
  induction s generalizing s' with
  | nil =>
    cases s' with
    | nil => exact ⟨rfl, (List.cons.inj h).2⟩
    | cons c s' => exact absurd (List.cons.inj h).1 (by decide)
  | cons c s ih =>
    cases s' with
    | nil => exact absurd (List.cons.inj h).1 (by decide)
    | cons c' s' =>
      obtain ⟨hc, htail⟩ := List.cons.inj (List.cons.inj h).2
      obtain ⟨hs, hr⟩ := ih htail
      exact ⟨by rw [hc, hs], hr⟩

theorem number_append_inj {m n : ℕ} {r r' : Text}
    (h : showNat m ++ 59 :: r = showNat n ++ 59 :: r') : m = n ∧ r = r' := by
  have htake (k : ℕ) (r : Text) : (showNat k ++ 59 :: r).takeWhile isDigit = showNat k :=
    (takeWhile_digits (isDigit_showNat k) (stops_cons (by decide) r)).1
  have hnat : showNat m = showNat n := by rw [← htake m r, h, htake]
  rw [hnat] at h
  exact ⟨showNat_inj hnat, (List.cons.inj (List.append_cancel_left h)).2⟩

mutual

theorem print_append_inj : ∀ {t t' : Json} {r r' : Text},
    print t ++ r = print t' ++ r' → t = t' ∧ r = r'
  | .value (.num n), .value (.num n'), r, r', h => by
    rw [print, print, List.cons_append, List.cons_append, List.append_assoc,
      List.append_assoc] at h
    obtain ⟨hn, hr⟩ := number_append_inj (List.cons.inj h).2
    exact ⟨by rw [BitVec.eq_of_toNat_eq hn], hr⟩
  | .value (.num n), .value (.str s), r, r', h => absurd (List.cons.inj h).1 (by decide)
  | .value (.num n), .object ms, r, r', h => absurd (List.cons.inj h).1 (by decide)
  | .value (.str s), .value (.num n), r, r', h => absurd (List.cons.inj h).1 (by decide)
  | .value (.str s), .value (.str s'), r, r', h => by
    obtain ⟨hs, hr⟩ := quote_append_inj (List.cons.inj h).2
    exact ⟨by rw [hs], hr⟩
  | .value (.str s), .object ms, r, r', h => absurd (List.cons.inj h).1 (by decide)
  | .object ms, .value (.num n), r, r', h => absurd (List.cons.inj h).1 (by decide)
  | .object ms, .value (.str s), r, r', h => absurd (List.cons.inj h).1 (by decide)
  | .object ms, .object ms', r, r', h => by
    obtain ⟨hms, hr⟩ := printAll_append_inj (List.cons.inj h).2
    exact ⟨by rw [hms], hr⟩

theorem printAll_append_inj : ∀ {ms ms' : List (Text × Json)} {r r' : Text},
    printAll ms ++ r = printAll ms' ++ r' → ms = ms' ∧ r = r'
  | [], [], r, r', h => ⟨rfl, (List.cons.inj h).2⟩
  | [], m :: ms, r, r', h => absurd (List.cons.inj h).1 (by decide)
  | m :: ms, [], r, r', h => absurd (List.cons.inj h).1 (by decide)
  | (n, t) :: ms, (n', t') :: ms', r, r', h => by
    rw [printAll, printAll, List.cons_append, List.cons_append, List.append_assoc,
      List.append_assoc, List.append_assoc, List.append_assoc] at h
    obtain ⟨hn, htail⟩ := quote_append_inj (List.cons.inj h).2
    obtain ⟨ht, htail⟩ := print_append_inj htail
    obtain ⟨hms, hr⟩ := printAll_append_inj htail
    exact ⟨by rw [hn, ht, hms], hr⟩

end

theorem print_injective : Function.Injective print := by
  intro t t' h
  have happend : print t ++ [] = print t' ++ [] := by rw [h]
  exact (print_append_inj happend).1

noncomputable def plainCjson : Cjson where
  print := print
  parse := Function.partialInv print
  ne_nil t := by
    match t with
    | .value (.num n) => exact List.cons_ne_nil _ _
    | .value (.str s) => exact List.cons_ne_nil _ _
    | .object ms => exact List.cons_ne_nil _ _
  inverse := Function.partialInv_left print_injective

/-- `/a` and `x` -/
def plainCall (value : BitVec 32) : Call :=
  ⟨⟨[47, 97], by decide⟩, ⟨[120], by decide⟩, .num value⟩

/-- `/Subject` and `x` -/
def subjectCall : Call :=
  ⟨⟨[47, 83, 117, 98, 106, 101, 99, 116], by decide⟩, ⟨[120], by decide⟩, .num 1⟩

end Libobject.Configurator
