import Libobject.Core.VectorJson
import Libobject.Lib.Decimal
import Libobject.Lib.Json

/-!
# Parsing JSON

The end of a string is looked for first, and the block for it has a byte for each character and
each backslash with the character behind it. A string need not be closed, and what stands behind a
value is left to the caller. An exponent that is too large for an `int` is taken to wrap, and the
stack to have room for the values inside of each other.
-/

namespace Libobject.Cjson

open Scan VectorJson

/-- The doubles. `push` is `n * 10.0 + digit`, and `scaled` is `sign * n * pow(10.0, e)`. -/
structure Double (D : Type) where
  ofInt : ℤ → D
  push : D → ℕ → D
  scaled : Bool → D → ℤ → D

/-- What is returned: a value and the text behind it, or null and where the error pointer is. -/
inductive Parsed (α : Type)
  | done (value : α) (rest : Text)
  | failed (ep : Option Text)

def Parsed.map {α β : Type} (f : α → β) : Parsed α → Parsed β
  | .done value rest => .done (f value) rest
  | .failed ep => .failed ep

def skip (s : Text) : Text := s.dropWhile fun c ↦ c ≤ 32

/-! ## Numbers -/

/-- `subscale * signsubscale`, an `int`. -/
def exponent : Text → ℤ × Text
  | [] => (0, [])
  | c :: s =>
    if c = 101 ∨ c = 69 then
      let (neg, s) := scanSign s
      let subscale := BitVec.ofNat 32 (decimal (s.takeWhile isDigit))
      ((if neg then -subscale else subscale).toInt, s.dropWhile isDigit)
    else (0, c :: s)

/-- The digits behind a point. -/
def fraction : Text → Text × Text
  | 46 :: c :: s =>
    if isDigit c then ((c :: s).takeWhile isDigit, (c :: s).dropWhile isDigit)
    else ([], 46 :: c :: s)
  | s => ([], s)

/-- Behind the sign. -/
def parse_unsigned {D : Type} (dbl : Double D) (neg : Bool) (num : Text) : D × Text :=
  let num := if num.head? = some 48 then num.tail else num
  let whole := if num.head? = some 48 then [] else num.takeWhile isDigit
  let (frac, num) := fraction (num.drop whole.length)
  let (e, num) := exponent num
  let n := (whole ++ frac).foldl (fun n c ↦ dbl.push n (c.toNat - 48)) (dbl.ofInt 0)
  (dbl.scaled neg n (e - frac.length), num)

def parse_number {D : Type} (dbl : Double D) (num : Text) : D × Text :=
  if num.head? = some 45 then parse_unsigned dbl true num.tail else parse_unsigned dbl false num

/-! ## Strings -/

/-- Zero where one of the four characters is no digit. -/
def parse_hex4 (str : Text) : ℕ :=
  if 4 ≤ str.length then (Json.hex (str.take 4)).getD 0 else 0

def low (uc : ℕ) : UInt8 := .ofNat ((uc ||| 0x80) &&& 0xBF)

def utf8 (uc : ℕ) : Text :=
  if uc < 0x80 then [.ofNat uc]
  else if uc < 0x800 then [.ofNat (uc >>> 6 ||| 0xC0), low uc]
  else if uc < 0x10000 then [.ofNat (uc >>> 12 ||| 0xE0), low (uc >>> 6), low uc]
  else [.ofNat (uc >>> 18 ||| 0xF0), low (uc >>> 12), low (uc >>> 6), low uc]

/-- Behind `\u`, where the string ends `n` bytes from the `u` on: the bytes that are written, and
how many characters they were read from. -/
def unicode (n : ℕ) (s : Text) : Option (Text × ℕ) :=
  let uc := parse_hex4 s
  if n ≤ 4 then none
  else if 0xDC00 ≤ uc ∧ uc ≤ 0xDFFF ∨ uc = 0 then none
  else if 0xD800 ≤ uc ∧ uc ≤ 0xDBFF then
    let uc2 := parse_hex4 (s.drop 6)
    if n < 10 then none
    else if (s.drop 4).take 2 ≠ [92, 117] then none
    else if uc2 < 0xDC00 ∨ 0xDFFF < uc2 then none
    else some (utf8 (0x10000 + ((uc &&& 0x3FF) <<< 10 ||| uc2 &&& 0x3FF)), 10)
  else some (utf8 uc, 4)

def unescaped (c : UInt8) : UInt8 :=
  if c = 98 then 8 else if c = 102 then 12 else if c = 110 then 10 else if c = 114 then 13
  else if c = 116 then 9 else c

/-- How far the end is, and the length that is counted; `none` where a backslash is the last
character of the text. -/
def string_end : Text → Option (ℕ × ℕ)
  | [] => some (0, 0)
  | [c] => if c = 92 then none else if c = 34 then some (0, 0) else some (1, 1)
  | c :: d :: s =>
    if c = 34 then some (0, 0)
    else if c = 92 then (string_end s).map fun r ↦ (r.1 + 2, r.2 + 1)
    else (string_end (d :: s)).map fun r ↦ (r.1 + 1, r.2 + 1)

/-- The bytes are written to a block of `room` bytes. -/
def write (room : ℕ) (out bytes : Text) : Option Text :=
  if out.length + bytes.length ≤ room then some (out ++ bytes) else none

/-- The loop over the string, whose end is `n` bytes ahead. `none` is an access outside of the block
or of the text, `some none` an invalid sequence. -/
def unescape (room : ℕ) : ℕ → ℕ → Text → Text → Option (Option (Text × Text))
  | 0, _, _, _ => none
  | k + 1, n, s, out =>
    if n = 0 then some (some (out, s))
    else match s with
      | [] => none
      | c :: s =>
        if c = 92 then
          match s with
          | [] => none
          | c :: s =>
            if c = 117 then
              match unicode (n - 1) s with
              | none => some none
              | some (bytes, m) =>
                (write room out bytes).bind (unescape room k (n - 2 - m) (s.drop m))
            else (write room out [unescaped c]).bind (unescape room k (n - 2) s)
        else (write room out [c]).bind (unescape room k (n - 1) s)

/-- The length is an `int`. -/
def parse_string (str : Text) : Option (Parsed CText) :=
  match str with
  | [] => some (.failed (some []))
  | c :: s =>
    if c ≠ 34 then some (.failed (some str))
    else match string_end s with
      | none => some (.failed none)
      | some (n, len) =>
        if 0x7fffffff ≤ len then none
        else do
          match ← unescape (len + 1) (n + 1) n s [] with
          | none => return .failed (some str)
          | some (out, s) =>
            let _ ← write (len + 1) out [0]
            return .done ⟨cString out, notMem_cString out⟩
              (if s.head? = some 34 then s.tail else s)

/-! ## Values -/

section Lists

variable {α : Type} (close : UInt8) (elem : Text → Option (Parsed α))

/-- The children up to the bracket that closes them. -/
def parse_list : ℕ → Text → Option (Parsed (List α))
  | 0, _ => none
  | n + 1, s => do
    match ← elem (skip s) with
    | .failed ep => return .failed ep
    | .done value rest =>
      match skip rest with
      | [] => return .failed (some [])
      | c :: s =>
        if c = 44 then return (← parse_list n s).map (value :: ·)
        else if c = close then return .done [value] s
        else return .failed (some (c :: s))

/-- Behind the bracket that opens. -/
def parse_enclosed (s : Text) : Option (Parsed (List α)) :=
  if (skip s).head? = some close then some (.done [] (skip s).tail)
  else parse_list close elem (s.length + 1) (skip s)

def parse_member (s : Text) : Option (Parsed (CText × α)) := do
  match ← parse_string s with
  | .failed ep => return .failed ep
  | .done key rest =>
    match skip rest with
    | [] => return .failed (some [])
    | c :: s =>
      if c = 58 then return (← elem (skip s)).map (key, ·)
      else return .failed (some (c :: s))

end Lists

section Code

variable {D : Type} (dbl : Double D)

/-- At most `n` values inside of each other. -/
def parse_value : ℕ → Text → Option (Parsed (Json D))
  | 0, _ => none
  | n + 1, value =>
    if (ascii "null").isPrefixOf value then some (.done .null (value.drop 4))
    else if (ascii "false").isPrefixOf value then some (.done (.bool false) (value.drop 5))
    else if (ascii "true").isPrefixOf value then some (.done (.bool true) (value.drop 4))
    else match value with
      | [] => some (.failed (some []))
      | c :: s =>
        if c = 34 then (parse_string (c :: s)).map (Parsed.map .string)
        else if c = 45 ∨ isDigit c then
          let (d, rest) := parse_number dbl (c :: s)
          some (.done (.number d) rest)
        else if c = 91 then (parse_enclosed 93 (parse_value n) s).map (Parsed.map .array)
        else if c = 123 then
          (parse_enclosed 125 (parse_member (parse_value n)) s).map (Parsed.map .object)
        else some (.failed (some (c :: s)))

def cjson_parse_with_opts (require_null_terminated : Bool) (value : Text) :
    Option (Parsed (Json D)) := do
  match ← parse_value dbl (value.length + 1) (skip value) with
  | .failed ep => return .failed ep
  | .done c rest =>
    if require_null_terminated then
      if skip rest = [] then return .done c [] else return .failed (some (skip rest))
    else return .done c rest

end Code

/-! ## Every text is parsed to an end -/

/-- Both pointers lead into the text. -/
def Parsed.Within {α : Type} (s : Text) : Parsed α → Prop
  | .done _ rest => rest <:+ s
  | .failed ep => ∀ e ∈ ep, e <:+ s

/-- Neither the text nor a block is left, and there is an end. -/
def Ends {α : Type} (f : Text → Option (Parsed α)) (s : Text) : Prop :=
  ∃ r, f s = some r ∧ r.Within s

theorem Parsed.Within.mono {α : Type} {s t : Text} {r : Parsed α} (h : r.Within s)
    (hs : s <:+ t) : r.Within t := by
  cases r with
  | done value rest => exact List.IsSuffix.trans h hs
  | failed ep => exact fun e he ↦ (h e he).trans hs

theorem Parsed.Within.map {α β : Type} {s : Text} {r : Parsed α} (h : r.Within s) (f : α → β) :
    (r.map f).Within s := by
  cases r with
  | done value rest => exact h
  | failed ep => exact h

theorem Ends.map {α β : Type} {g : Text → Option (Parsed α)} {s : Text} (h : Ends g s)
    (f : α → β) : Ends (fun s ↦ (g s).map (Parsed.map f)) s := by
  obtain ⟨r, hr, hin⟩ := h
  exact ⟨r.map f, by dsimp only; rw [hr, Option.map_some], hin.map f⟩

theorem Parsed.Within.failed {α : Type} {s t : Text} (h : t <:+ s) :
    (.failed (some t) : Parsed α).Within s :=
  fun e he ↦ by cases he; exact h

theorem skip_suffix (s : Text) : skip s <:+ s := List.dropWhile_suffix _

theorem string_end_cons {c : UInt8} (h34 : c ≠ 34) (h92 : c ≠ 92) (s : Text) :
    string_end (c :: s) = (string_end s).map fun r ↦ (r.1 + 1, r.2 + 1) := by
  cases s <;> simp [string_end, h34, h92]

theorem string_end_le {s : Text} {n len : ℕ} (h : string_end s = some (n, len)) :
    len ≤ n ∧ n ≤ s.length := by
  fun_induction string_end s generalizing n len with
  | case1 | case3 | case4 | case5 => cases h; simp
  | case2 => cases h
  | case6 _ s _ ih =>
    obtain ⟨⟨m, l⟩, hm, ⟨⟩⟩ := Option.map_eq_some_iff.mp h
    have := ih hm
    simp only [List.length_cons]
    omega
  | case7 c d s _ _ ih =>
    obtain ⟨⟨m, l⟩, hm, ⟨⟩⟩ := Option.map_eq_some_iff.mp h
    have := ih hm
    simp only [List.length_cons] at this ⊢
    omega

theorem hexDigit_plain {c : UInt8} (h : (Json.hexDigit c).isSome) : c ≠ 34 ∧ c ≠ 92 := by
  constructor
  · rintro rfl
    exact absurd h (by decide)
  · rintro rfl
    exact absurd h (by decide)

/-- A number is read from four characters that stand for themselves. -/
theorem string_end_hex {s : Text} (h : parse_hex4 s ≠ 0) :
    string_end s = (string_end (s.drop 4)).map fun r ↦ (r.1 + 4, r.2 + 4) := by
  rw [parse_hex4] at h
  split_ifs at h with hlen
  swap
  · exact absurd rfl h
  match s, hlen with
  | a :: b :: c :: d :: s, _ =>
    cases ha : Json.hexDigit a <;> cases hb : Json.hexDigit b <;> cases hc : Json.hexDigit c <;>
      cases hd : Json.hexDigit d <;> simp [Json.hex, ha, hb, hc, hd] at h
    obtain ⟨ha34, ha92⟩ := hexDigit_plain (Option.isSome_of_eq_some ha)
    obtain ⟨hb34, hb92⟩ := hexDigit_plain (Option.isSome_of_eq_some hb)
    obtain ⟨hc34, hc92⟩ := hexDigit_plain (Option.isSome_of_eq_some hc)
    obtain ⟨hd34, hd92⟩ := hexDigit_plain (Option.isSome_of_eq_some hd)
    rw [string_end_cons ha34 ha92, string_end_cons hb34 hb92, string_end_cons hc34 hc92,
      string_end_cons hd34 hd92]
    simp [Option.map_map, Function.comp_def]

theorem length_utf8_le (uc : ℕ) : (utf8 uc).length ≤ 4 := by
  rw [utf8]
  split_ifs <;> simp

/-- What is written is no longer than what is counted. -/
theorem string_end_unicode {n m : ℕ} {s bytes : Text} (h : unicode n s = some (bytes, m)) :
    bytes.length ≤ 4 ∧ ∃ d, 4 ≤ d ∧
      string_end s = (string_end (s.drop m)).map fun r ↦ (r.1 + m, r.2 + d) := by
  rw [unicode] at h
  dsimp only at h
  split_ifs at h with _ huc hsur _ hpair hlow
  · cases h
    obtain ⟨t, ht⟩ : ∃ t, s.drop 4 = 92 :: 117 :: t := by
      rw [not_not] at hpair
      exact ⟨_, (List.take_append_drop 2 _).symm.trans (by rw [hpair]; rfl)⟩
    have hdrop : s.drop 6 = t := by
      rw [show (6 : ℕ) = 4 + 2 from rfl, ← List.drop_drop, ht]
      rfl
    rw [hdrop] at hlow
    refine ⟨length_utf8_le _, 9, by omega, ?_⟩
    rw [string_end_hex (s := s) (by omega), ht, string_end, if_neg (by decide), if_pos rfl,
      string_end_hex (s := t) (by omega), ← hdrop, List.drop_drop]
    simp [Option.map_map, Function.comp_def, Nat.add_assoc]
  · cases h
    exact ⟨length_utf8_le _, 4, le_rfl, string_end_hex (by omega)⟩

/-- The block has room for the bytes that are still to come and for the zero. -/
theorem unescape_ends (room : ℕ) {k n len : ℕ} {s out : Text} (hend : string_end s = some (n, len))
    (hroom : out.length + len < room) (hk : n < k) :
    ∃ r, unescape room k n s out = some r ∧
      ∀ out' s', r = some (out', s') → out'.length < room ∧ s' <:+ s := by
  induction k generalizing n len s out with
  | zero => omega
  | succ k ih =>
    have hstep {bytes t : Text} {m l : ℕ} (ht : string_end t = some (m, l)) (hts : t <:+ s)
        (hlen : out.length + bytes.length + l < room) (hm : m < k) :
        ∃ r, (write room out bytes).bind (unescape room k m t) = some r ∧
          ∀ out' s', r = some (out', s') → out'.length < room ∧ s' <:+ s := by
      rw [write, if_pos (by omega), Option.bind_some]
      obtain ⟨r, hr, hin⟩ := ih ht (by rwa [List.length_append]) hm
      exact ⟨r, hr, fun out' s' h ↦ ⟨(hin out' s' h).1, (hin out' s' h).2.trans hts⟩⟩
    rw [unescape.eq_def]
    dsimp only
    by_cases hn : n = 0
    · rw [if_pos hn]
      refine ⟨_, rfl, ?_⟩
      rintro _ _ ⟨⟩
      exact ⟨by omega, List.suffix_rfl⟩
    rw [if_neg hn]
    match s, hend with
    | [], hend => cases hend; exact absurd rfl hn
    | c :: s, hend =>
      dsimp only
      by_cases h92 : c = 92
      · subst h92
        match s, hend with
        | [], hend => cases hend
        | d :: s, hend =>
          rw [string_end, if_neg (by decide), if_pos rfl] at hend
          dsimp only
          rw [if_pos rfl]
          split
          · cases hunicode : unicode (n - 1) s with
            | none => exact ⟨none, rfl, nofun⟩
            | some r =>
              obtain ⟨hbytes, d, hd, hbehind⟩ := string_end_unicode hunicode
              rw [hbehind, Option.map_map] at hend
              obtain ⟨⟨m, l⟩, ht, heq⟩ := Option.map_eq_some_iff.mp hend
              obtain ⟨rfl, rfl⟩ := Prod.mk.inj heq
              dsimp only at hn hroom hk ⊢
              rw [show m + r.2 + 2 - 2 - r.2 = m by omega]
              exact hstep ht ((List.drop_suffix _ s).trans
                ((List.suffix_cons _ s).trans (List.suffix_cons _ _))) (by omega) (by omega)
          · obtain ⟨⟨m, l⟩, ht, heq⟩ := Option.map_eq_some_iff.mp hend
            obtain ⟨rfl, rfl⟩ := Prod.mk.inj heq
            refine hstep ht ((List.suffix_cons _ s).trans (List.suffix_cons _ _)) ?_ (by omega)
            rw [List.length_singleton]
            omega
      · by_cases h34 : c = 34
        · subst h34
          cases s <;> cases hend <;> exact absurd rfl hn
        rw [string_end_cons h34 h92] at hend
        obtain ⟨⟨m, l⟩, ht, heq⟩ := Option.map_eq_some_iff.mp hend
        obtain ⟨rfl, rfl⟩ := Prod.mk.inj heq
        rw [if_neg h92]
        refine hstep ht (List.suffix_cons _ s) ?_ (by omega)
        rw [List.length_singleton]
        omega

theorem parse_string_ends {str : Text} (h : str.length ≤ 0x7fffffff) : Ends parse_string str := by
  rw [Ends]
  cases str with
  | nil => exact ⟨_, rfl, .failed List.suffix_rfl⟩
  | cons c s =>
    rw [parse_string]
    by_cases hc : c = 34
    · rw [if_neg (not_not_intro hc)]
      cases hend : string_end s with
      | none =>
        refine ⟨_, rfl, ?_⟩
        rintro e ⟨⟩
      | some r =>
        obtain ⟨n, len⟩ := r
        obtain ⟨hle, hin⟩ := string_end_le hend
        rw [List.length_cons] at h
        obtain ⟨r, hr, hdone⟩ :=
          @unescape_ends (len + 1) _ n len s [] hend (by rw [List.length_nil]; omega)
            (Nat.lt_succ_self n)
        dsimp only
        rw [if_neg (by omega), hr]
        cases r with
        | none => exact ⟨_, rfl, .failed List.suffix_rfl⟩
        | some p =>
          obtain ⟨out, rest⟩ := p
          obtain ⟨hlen, hrest⟩ := hdone out rest rfl
          simp only [Option.bind_eq_bind, Option.bind_some, write]
          rw [if_pos (show out.length + [(0 : UInt8)].length ≤ len + 1 from hlen), Option.bind_some]
          refine ⟨_, rfl, ?_⟩
          have hcons : rest <:+ c :: s := hrest.trans (List.suffix_cons _ _)
          change (if rest.head? = some 34 then rest.tail else rest) <:+ c :: s
          split
          · exact (List.tail_suffix rest).trans hcons
          · exact hcons
    · rw [if_pos hc]
      exact ⟨_, rfl, .failed List.suffix_rfl⟩

theorem scanSign_suffix (s : Text) : (scanSign s).2 <:+ s := by
  rw [scanSign.eq_def]
  split
  · exact List.suffix_cons _ _
  · exact List.suffix_cons _ _
  · exact List.suffix_rfl

theorem parse_number_suffix {D : Type} (dbl : Double D) (num : Text) :
    (parse_number dbl num).2 <:+ num := by
  have hexponent (s : Text) : (exponent s).2 <:+ s := by
    rw [exponent.eq_def]
    split
    · exact List.suffix_rfl
    · split
      · exact (List.dropWhile_suffix _).trans ((scanSign_suffix _).trans (List.suffix_cons _ _))
      · exact List.suffix_rfl
  have hfraction (s : Text) : (fraction s).2 <:+ s := by
    rw [fraction.eq_def]
    split
    · split
      · exact (List.dropWhile_suffix _).trans (List.suffix_cons _ _)
      · exact List.suffix_rfl
    · exact List.suffix_rfl
  have htail (p : Prop) [Decidable p] (s : Text) : (if p then s.tail else s) <:+ s := by
    split
    · exact List.tail_suffix s
    · exact List.suffix_rfl
  have hunsigned (neg : Bool) (s : Text) : (parse_unsigned dbl neg s).2 <:+ s :=
    (hexponent _).trans ((hfraction _).trans ((List.drop_suffix _ _).trans (htail _ s)))
  rw [parse_number]
  split
  · exact (hunsigned _ _).trans (List.tail_suffix num)
  · exact hunsigned _ _

section Lists

variable {α : Type} {elem : Text → Option (Parsed α)} {s : Text}

theorem parse_list_ends (close : UInt8) {n : ℕ} (helem : ∀ t, t <:+ s → Ends elem t)
    (hn : s.length < n) : Ends (parse_list close elem n) s := by
  induction n generalizing s with
  | zero => omega
  | succ n ih =>
    obtain ⟨r, hr, hin⟩ := helem _ (skip_suffix s)
    rw [Ends, parse_list, hr]
    have hin := hin.mono (skip_suffix s)
    cases r with
    | failed ep => exact ⟨_, rfl, hin⟩
    | done value rest =>
      have hrest : skip rest <:+ s := (skip_suffix rest).trans hin
      simp only [Option.bind_eq_bind, Option.bind_some]
      generalize skip rest = t at hrest
      cases t with
      | nil => exact ⟨_, rfl, .failed List.nil_suffix⟩
      | cons c t =>
        have ht : t <:+ s := (List.suffix_cons _ t).trans hrest
        have hlen := hrest.length_le
        rw [List.length_cons] at hlen
        dsimp only
        split_ifs
        · obtain ⟨r, hr, hrin⟩ := ih (s := t) (fun u hu ↦ helem u (hu.trans ht)) (by omega)
          rw [hr]
          exact ⟨_, rfl, (hrin.mono ht).map _⟩
        · exact ⟨_, rfl, ht⟩
        · exact ⟨_, rfl, .failed hrest⟩

theorem parse_enclosed_ends (close : UInt8) (helem : ∀ t, t <:+ s → Ends elem t) :
    Ends (parse_enclosed close elem) s := by
  rw [Ends, parse_enclosed]
  split_ifs
  · exact ⟨_, rfl, (List.tail_suffix _).trans (skip_suffix s)⟩
  · obtain ⟨r, hr, hin⟩ := parse_list_ends close (n := s.length + 1)
      (fun t ht ↦ helem t (ht.trans (skip_suffix s)))
      (Nat.lt_succ_of_le (skip_suffix s).length_le)
    exact ⟨r, hr, hin.mono (skip_suffix s)⟩

theorem parse_member_ends (hlen : s.length ≤ 0x7fffffff) (helem : ∀ t, t <:+ s → Ends elem t) :
    Ends (parse_member elem) s := by
  obtain ⟨r, hr, hin⟩ := parse_string_ends hlen
  rw [Ends, parse_member, hr]
  cases r with
  | failed ep => exact ⟨_, rfl, hin⟩
  | done key rest =>
    have hrest : skip rest <:+ s := (skip_suffix rest).trans hin
    simp only [Option.bind_eq_bind, Option.bind_some]
    generalize skip rest = t at hrest
    cases t with
    | nil => exact ⟨_, rfl, .failed List.nil_suffix⟩
    | cons c t =>
      have ht : skip t <:+ s := (skip_suffix t).trans ((List.suffix_cons _ t).trans hrest)
      dsimp only
      split_ifs
      · obtain ⟨r, hr, hrin⟩ := helem _ ht
        rw [hr]
        exact ⟨_, rfl, (hrin.mono ht).map _⟩
      · exact ⟨_, rfl, .failed hrest⟩

end Lists

theorem parse_value_ends {D : Type} (dbl : Double D) {n : ℕ} {value : Text} (hn : value.length < n)
    (hlen : value.length ≤ 0x7fffffff) : Ends (parse_value dbl n) value := by
  induction n generalizing value with
  | zero => omega
  | succ n ih =>
    rw [Ends, parse_value.eq_def]
    dsimp only
    split_ifs
    · exact ⟨_, rfl, List.drop_suffix _ _⟩
    · exact ⟨_, rfl, List.drop_suffix _ _⟩
    · exact ⟨_, rfl, List.drop_suffix _ _⟩
    cases value with
    | nil => exact ⟨_, rfl, .failed List.suffix_rfl⟩
    | cons c s =>
      have hbelow (t : Text) (ht : t <:+ s) : Ends (parse_value dbl n) t := by
        have hle := ht.length_le
        rw [List.length_cons] at hn hlen
        exact ih (by omega) (by omega)
      have hs : s <:+ c :: s := List.suffix_cons _ s
      have hmember (t : Text) (ht : t <:+ s) : Ends (parse_member (parse_value dbl n)) t := by
        have hle := ht.length_le
        rw [List.length_cons] at hlen
        exact parse_member_ends (by omega) fun u hu ↦ hbelow u (hu.trans ht)
      dsimp only
      split_ifs
      · exact (parse_string_ends hlen).map _
      · exact ⟨_, rfl, parse_number_suffix dbl _⟩
      · obtain ⟨r, hr, hin⟩ := (parse_enclosed_ends 93 hbelow).map Json.array
        exact ⟨r, hr, hin.mono hs⟩
      · obtain ⟨r, hr, hin⟩ := (parse_enclosed_ends 125 hmember).map Json.object
        exact ⟨r, hr, hin.mono hs⟩
      · exact ⟨_, rfl, .failed List.suffix_rfl⟩

theorem cjson_parse_ends {D : Type} (dbl : Double D) (require_null_terminated : Bool) {value : Text}
    (h : value.length ≤ 0x7fffffff) :
    Ends (cjson_parse_with_opts dbl require_null_terminated) value := by
  have hle := (skip_suffix value).length_le
  obtain ⟨r, hr, hin⟩ : Ends (parse_value dbl (value.length + 1)) (skip value) :=
    parse_value_ends dbl (Nat.lt_succ_of_le hle) (hle.trans h)
  have hin := hin.mono (skip_suffix value)
  rw [Ends, cjson_parse_with_opts, hr]
  cases r with
  | failed ep => exact ⟨_, rfl, hin⟩
  | done c rest =>
    simp only [Option.bind_eq_bind, Option.bind_some]
    split_ifs
    · exact ⟨_, rfl, List.nil_suffix⟩
    · exact ⟨_, rfl, .failed ((skip_suffix rest).trans hin)⟩
    · exact ⟨_, rfl, hin⟩

/-- Numbers without a fraction, however large they are. -/
def integers : Double ℤ where
  ofInt := id
  push n d := 10 * n + d
  scaled neg n e := (10 * ·)^[e.toNat] (if neg then -n else n)

theorem cjson_parse_open_array : Ends (cjson_parse_with_opts integers true) (ascii "[1") :=
  cjson_parse_ends integers true (by decide)

end Libobject.Cjson
