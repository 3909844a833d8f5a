import Libobject.Lib.Buffer
import Libobject.Lib.Refine
import Mathlib.Data.Int.Notation
import Mathlib.Data.List.DropRight

/-!
# Strings

A buffer with a text in it, the length of the buffer and that of the text. Every operation that
makes the text longer asks for room first, and asks for it in its own way; the length of the text
is kept beside the text. A write outside the buffer is undefined, and so is a capacity that does
not fit a C integer.

Patterns are compiled and matched by the regular expressions of the C library, which are a
parameter.
-/

namespace Libobject

/-- A compiled pattern: where it first matches in a text, as a start and an end. -/
structure Regex where
  exec : Text → Option (ℕ × ℕ)
  exec_le : ∀ s a b, exec s = some (a, b) → a ≤ b ∧ b ≤ s.length

/-- The argument of a call. -/
abbrev CText := {s : Text // 0 ∉ s}

/-- `value_max_len` is the length of the buffer. -/
structure Str where
  value : List UInt8
  value_len : ℕ
  deriving DecidableEq

namespace Str

def value_max_len (s : Str) : ℕ := s.value.length

def init : Str := ⟨List.replicate 256 0, 0⟩

/-- The capacity that `__modulate_capacity` leaves: a string that is full is not given more. -/
def roomFor (max_len len write_len : ℕ) : ℕ :=
  if len + 1 < max_len ∧ max_len < len + write_len + 1 then 2 * (len + write_len + 1) else max_len

def modulate_capacity (s : Str) (write_len : ℕ) : Option Str :=
  let max_len := roomFor s.value_max_len s.value_len write_len
  if max_len = s.value_max_len then some s
  else if max_len < 2147483648 then
    let kept := (Scan.cString s.value).take s.value_len
    some { s with value := kept ++ List.replicate (max_len - kept.length) 0 }
  else none

def write (s : Str) (off : ℕ) (bs : List UInt8) : Option Str :=
  (Buffer.put s.value off bs).map fun value ↦ { s with value := value }

/-- The text now ends here. -/
def close (s : Str) (len : ℕ) : Option Str := ({ s with value_len := len } : Str).write len [0]

/-- `strncpy` of `n` bytes: what is missing from the text is filled up with zeros. -/
def strncpy (src : Text) (n : ℕ) : List UInt8 :=
  src.take n ++ List.replicate (n - src.length) 0

def assign (s : Str) (src : Text) : Option Str := do
  let s ← s.modulate_capacity src.length
  let s ← { s with value := List.replicate s.value_max_len 0 }.write 0 src
  s.close src.length

def append_char (s : Str) (c : UInt8) : Option Str := do
  let s ← s.modulate_capacity 1
  let s ← s.write s.value_len [c]
  s.close (s.value_len + 1)

/-- The number of bytes that `append` takes. -/
def appended (sub : Text) (len : ℤ) : ℕ := if len ≤ 0 then sub.length else len.toNat

def append (s : Str) (sub : Option Text) (len : ℤ) : Option Str :=
  match sub with
  | none => some s
  | some sub => do
    let n := appended sub len
    let s ← s.modulate_capacity (n + s.value_len)
    let s ← s.write s.value_len (strncpy sub n)
    s.close (s.value_len + n)

/-- `append` of `len` bytes from an address, behind which `mem` is. -/
def appendFrom (s : Str) (mem : List UInt8) (len : ℕ) : Option Str :=
  if len = 0 ∧ 0 ∉ mem then none else s.append (some (Scan.cString mem)) len

/-- What `append` has added to a string. -/
def added (s s' : Str) : List UInt8 := (s'.value.take s'.value_len).drop s.value_len

/-- The length of the argument is taken before the argument is compared with `NULL`. -/
def insert (s : Str) (offset : ℤ) (cstr : Option Text) : Option Str := do
  let cstr ← cstr
  let s ← s.modulate_capacity (s.value_len + cstr.length)
  -- in front of the buffer or, for the length of what is moved, behind the text
  if offset < 0 ∨ (s.value_len : ℤ) < offset then none
  else
    let offset := offset.toNat
    let value ← Buffer.move s.value (offset + cstr.length) offset (s.value_len - offset)
    let s ← { s with value := value }.write offset cstr
    s.close (s.value_len + cstr.length)

/-- The first match behind `start`, as positions in the text; an empty text has none. -/
def find (rx : Regex) (s : Str) (start : ℕ) : Option (ℕ × ℕ) :=
  if Scan.cString s.value = [] then none
  else (rx.exec (Scan.cString (s.value.drop start))).map fun m ↦ (start + m.1, start + m.2)

/-- The loop of `__replace` with `n` turns to go; `str_len` is the length at its start. Turns that
never end are undefined. -/
def replaceFrom (rx : Regex) (newstr : Text) (str_len : ℕ) (limited : Bool) :
    ℕ → ℕ → Str → Option (Str × ℕ)
  | 0, _, s => if limited then some (s, 0) else none
  | n + 1, start, s =>
    match find rx s start with
    | none => some (s, 0)
    | some (a, b) => do
      let s ← if b - a ≤ newstr.length then
          s.modulate_capacity (str_len + (newstr.length - (b - a)))
        else some s
      let tail := Scan.cString (s.value.drop b)
      let value ← Buffer.move s.value (a + newstr.length) b tail.length
      let s ← { s with value := value }.write a newstr
      let s ← s.close (s.value_len + newstr.length - (b - a))
      let (s, count) ← replaceFrom rx newstr str_len limited n (a + newstr.length) s
      return (s, count + 1)

/-- Without a limit there are at most as many matches as bytes, unless one match is at the place
where the next one starts. -/
def turns (max : ℤ) (len : ℕ) : ℕ := if 0 < max then max.toNat else len + 1

def replace (regcomp : Text → Option Regex) (s : Str) (pattern newstr : Option Text) (max : ℤ) :
    Option (Str × ℤ) :=
  match pattern, newstr with
  | some pattern, some newstr =>
    match regcomp pattern with
    | none => some (s, 0)
    | some rx =>
      (replaceFrom rx newstr s.value_len (0 < max) (turns max s.value_len) 0 s).map
        fun r ↦ (r.1, r.2)
  | _, _ => some (s, -1)

def toUpper (c : UInt8) : UInt8 := if 97 ≤ c ∧ c ≤ 122 then c - 32 else c

def toLower (c : UInt8) : UInt8 := if 65 ≤ c ∧ c ≤ 90 then c + 32 else c

/-- A conversion of the first `value_len` bytes. -/
def convert (s : Str) (f : UInt8 → UInt8) : Option Str :=
  s.write 0 ((s.value.take s.value_len).map f)

def to_upper (s : Str) : Option Str := s.convert toUpper

def to_lower (s : Str) : Option Str := s.convert toLower

def ltrim (s : Str) : Option Str :=
  let cnt := ((s.value.take s.value_len).takeWhile Scan.isSpace).length
  if cnt = 0 then some s
  else do
    let value ← Buffer.move s.value 0 cnt (s.value_len - cnt)
    { s with value := value }.close (s.value_len - cnt)

/-- Spaces become zeros from the last byte on; the length stays. -/
def rtrim (s : Str) : Option Str :=
  let cnt := ((s.value.take s.value_len).reverse.takeWhile Scan.isSpace).length
  s.write (s.value_len - cnt) (List.replicate cnt 0)

def reset (s : Str) : Str := ⟨List.replicate s.value_max_len 0, 0⟩

inductive Call
  | assign (src : CText)
  | append (sub : Option CText) (len : ℤ)
  | append_char (c : UInt8)
  | insert (offset : ℤ) (cstr : Option CText)
  | replace (pattern newstr : Option CText) (max : ℤ)
  | ltrim
  | rtrim
  | to_upper
  | to_lower
  | reset
  | get_cstr
  | get_len

inductive Answer
  | done
  | ret (r : ℤ)
  | cstr (s : Text)
  deriving DecidableEq

def call (regcomp : Text → Option Regex) (s : Str) : Call → Option (Str × Answer)
  | .assign src => (s.assign src.1).map fun s ↦ (s, .ret 1)
  | .append sub len => (s.append (sub.map Subtype.val) len).map fun s ↦ (s, .done)
  | .append_char c => (s.append_char c).map fun s ↦ (s, .done)
  | .insert offset cstr => (s.insert offset (cstr.map Subtype.val)).map fun s ↦ (s, .done)
  | .replace pattern newstr max =>
    (s.replace regcomp (pattern.map Subtype.val) (newstr.map Subtype.val) max).map
      fun r ↦ (r.1, .ret r.2)
  | .ltrim => s.ltrim.map fun s ↦ (s, .done)
  | .rtrim => s.rtrim.map fun s ↦ (s, .done)
  | .to_upper => s.to_upper.map fun s ↦ (s, .done)
  | .to_lower => s.to_lower.map fun s ↦ (s, .done)
  | .reset => some (s.reset, .ret 1)
  | .get_cstr => some (s, .cstr (Scan.cString s.value))
  | .get_len => some (s, .ret s.value_len)

/-- The first matches in `rest`, one behind the other, are replaced; `done` stands in front. An
empty text is left as it is. -/
def substitute (rx : Regex) (newstr : Text) : ℕ → Text → Text → Text × ℕ
  | 0, done, rest => (done ++ rest, 0)
  | n + 1, done, rest =>
    if done ++ rest = [] then ([], 0)
    else
      match rx.exec rest with
      | none => (done ++ rest, 0)
      | some (a, b) =>
        let r := substitute rx newstr n (done ++ rest.take a ++ newstr) (rest.drop b)
        (r.1, r.2 + 1)

def replaced (regcomp : Text → Option Regex) (t : Text) (max : ℤ) :
    Option CText → Option CText → Text × ℤ
  | some pattern, some newstr =>
    match regcomp pattern.1 with
    | none => (t, 0)
    | some rx =>
      let r := substitute rx newstr.1 (turns max t.length) [] t
      (r.1, r.2)
  | _, _ => (t, -1)

/-- The operations on texts. -/
def texts (regcomp : Text → Option Regex) : Spec Text Call Answer where
  ok t
    | .replace pattern newstr max, .ret r => r = (replaced regcomp t max pattern newstr).2
    | .assign _, .ret r | .reset, .ret r => r = 1
    | .get_cstr, .cstr s => s = t
    | .get_len, .ret r => r = t.length
    | .append _ _, .done | .append_char _, .done | .insert _ _, .done | .ltrim, .done
    | .rtrim, .done | .to_upper, .done | .to_lower, .done => True
    | _, _ => False
  next t
    | .assign src, _ => src.1
    | .append sub len, _ => t ++ sub.elim [] fun sub ↦ sub.1.take (appended sub.1 len)
    | .append_char c, _ => t ++ [c]
    | .insert offset cstr, _ =>
      t.take offset.toNat ++ cstr.elim [] Subtype.val ++ t.drop offset.toNat
    | .replace pattern newstr max, _ => (replaced regcomp t max pattern newstr).1
    | .ltrim, _ => t.dropWhile Scan.isSpace
    | .rtrim, _ => t.rdropWhile Scan.isSpace
    | .to_upper, _ => t.map toUpper
    | .to_lower, _ => t.map toLower
    | .reset, _ => []
    | .get_cstr, _ | .get_len, _ => t

/-- A text of length `len'` can be had when `write_len` is asked for: the string is not full, and
twice what it needs is a C integer, or the text fits and nothing more is made. -/
def Room (max_len len write_len len' : ℕ) : Prop :=
  len + 1 < max_len ∧ 2 * (len + write_len + 1) < 2147483648 ∨
    len' < max_len ∧ (max_len ≤ len + 1 ∨ len + write_len < max_len)

instance decidableRoom (max_len len write_len len' : ℕ) :
    Decidable (Room max_len len write_len len') :=
  inferInstanceAs (Decidable (_ ∨ _))

/-- Every replacement finds room and, where there is no limit, none of them is made where the
next one will be looked for again. -/
def Replaceable (rx : Regex) (newstr : Text) (str_len : ℕ) (limited : Bool) :
    ℕ → ℕ → Text → Text → Prop
  | 0, _, _, _ => True
  | n + 1, max_len, done, rest =>
    if done ++ rest = [] then True
    else
      match rx.exec rest with
      | none => True
      | some (a, b) =>
        let len := (done ++ rest).length
        let more := newstr.length - (b - a)
        (limited ∨ 0 < b) ∧
          if b - a ≤ newstr.length then
            Room max_len len (str_len + more) (len + more) ∧
              Replaceable rx newstr str_len limited n (roomFor max_len len (str_len + more))
                (done ++ rest.take a ++ newstr) (rest.drop b)
          else
            Replaceable rx newstr str_len limited n max_len
              (done ++ rest.take a ++ newstr) (rest.drop b)

/-- What is added finds room, `append` takes no more than there is, `append_char` no zero, and
`insert` has a text and a place in the string; a string that is trimmed does not end in a
space. -/
def Regular (regcomp : Text → Option Regex) (s : Str) : Call → Prop
  | .assign src => Room s.value_max_len s.value_len src.1.length src.1.length
  | .append none _ => True
  | .append (some sub) len =>
    let n := appended sub.1 len
    n ≤ sub.1.length ∧ Room s.value_max_len s.value_len (n + s.value_len) (s.value_len + n)
  | .append_char c => c ≠ 0 ∧ Room s.value_max_len s.value_len 1 (s.value_len + 1)
  | .insert _ none => False
  | .insert offset (some cstr) =>
    (0 ≤ offset ∧ offset ≤ s.value_len) ∧
      Room s.value_max_len s.value_len (s.value_len + cstr.1.length)
        (s.value_len + cstr.1.length)
  | .replace pattern newstr max =>
    ∀ p ∈ pattern, ∀ new ∈ newstr, ∀ rx ∈ regcomp p.1,
      Replaceable rx new.1 s.value_len (0 < max) (turns max s.value_len) s.value_max_len []
        (Scan.cString s.value)
  | .rtrim => ∀ c ∈ (s.value.take s.value_len).getLast?, Scan.isSpace c = false
  | _ => True

/-- Room for `n` more: none is needed, or the string is not full and can be given it. -/
def Fits (max_len len n : ℕ) : Prop :=
  (n = 0 ∨ len + 1 < max_len) ∧ roomFor max_len len (n + len) < 2147483648

instance decidableFits (max_len len n : ℕ) : Decidable (Fits max_len len n) :=
  inferInstanceAs (Decidable (_ ∧ _))

/-- Room for pieces that are added one after the other. -/
def Takes (max_len len : ℕ) : List ℕ → Prop
  | [] => True
  | n :: ns => Fits max_len len n ∧ Takes (roomFor max_len len (n + len)) (len + n) ns

instance decidableTakes : (max_len len : ℕ) → (ns : List ℕ) → Decidable (Takes max_len len ns)
  | _, _, [] => inferInstanceAs (Decidable True)
  | max_len, len, n :: ns =>
    have := decidableTakes (roomFor max_len len (n + len)) (len + n) ns
    inferInstanceAs (Decidable (_ ∧ _))

/-- The string holds the text, whose end is where its length says. -/
structure Holds (s : Str) (t : Text) : Prop where
  value_eq : ∃ rest, s.value = t ++ 0 :: rest
  zero_notMem : 0 ∉ t
  len_eq : s.value_len = t.length
  fits : s.value_max_len < 2147483648

/-- A string as its operations leave it. -/
abbrev Object := {s : Str // Holds s (Scan.cString s.value)}

theorem holds_init : Holds init [] :=
  ⟨⟨List.replicate 255 0, rfl⟩, List.not_mem_nil, rfl, by decide +kernel⟩

theorem fits_init {n : ℕ} (h : n < 2 ^ 30 - 1) : Fits init.value_max_len init.value_len n := by
  have hmax : init.value_max_len = 256 := List.length_replicate
  have hlen : init.value_len = 0 := rfl
  rw [hmax, hlen, Fits, roomFor]
  split_ifs <;> omega

theorem modulate_capacity_init (n : ℕ) : init.modulate_capacity n =
    if n + 1 < 2 ^ 30 then some ⟨List.replicate (roomFor 256 0 n) 0, 0⟩ else none := by
  have hmax : init.value_max_len = 256 := List.length_replicate
  have hlen : init.value_len = 0 := rfl
  rw [modulate_capacity, hmax, hlen]
  by_cases hfull : 256 < n + 1
  · have hroom : roomFor 256 0 n = 2 * (n + 1) := (if_pos (by omega)).trans (by rw [Nat.zero_add])
    rw [hroom, if_neg (by omega)]
    by_cases hbig : n + 1 < 2 ^ 30
    · rw [if_pos (by omega), if_pos hbig, List.take_zero]
      rfl
    · rw [if_neg (by omega), if_neg hbig]
  · have hroom : roomFor 256 0 n = 256 := if_neg (by omega)
    rw [hroom, if_pos rfl, if_pos (by omega)]
    rfl

theorem assign_init_isSome {src : Text} : (init.assign src).isSome ↔ src.length + 1 < 2 ^ 30 := by
  rw [Str.assign, modulate_capacity_init]
  by_cases hbig : src.length + 1 < 2 ^ 30
  · have hroom : src.length < roomFor 256 0 src.length := by
      rw [roomFor]
      split_ifs <;> omega
    generalize roomFor 256 0 src.length = m at hroom
    have hput := Buffer.put_append [] (List.replicate m 0) src
      (by rw [List.length_replicate]; omega)
    have hwrite : ({ value := List.replicate m 0, value_len := 0 } : Str).write 0 src =
        some ⟨src ++ (List.replicate m 0).drop src.length, 0⟩ := congrArg _ hput
    rw [if_pos hbig, Option.bind_eq_bind, Option.bind_some, value_max_len, List.length_replicate,
      hwrite]
    refine iff_of_true (Option.isSome_map.trans (Buffer.put_isSome.mpr ?_)) hbig
    rw [List.length_append, List.length_drop, List.length_replicate, List.length_singleton]
    omega
  · rw [if_neg hbig]
    exact iff_of_false nofun hbig

/-- What a new string is given, zeros for what is missing up to the length. -/
theorem appendFrom_init {mem : List UInt8} {n : ℕ} (hpos : 0 < n) :
    (init.appendFrom mem n).map (added init) =
      if n + 1 < 2 ^ 30 then some (strncpy (Scan.cString mem) n) else none := by
  have happended : appended (Scan.cString mem) n = n := if_neg (by omega)
  have hlen : init.value_len = 0 := rfl
  have hcopy : (strncpy (Scan.cString mem) n).length = n := by
    rw [strncpy, List.length_append, List.length_take, List.length_replicate]
    omega
  rw [appendFrom, if_neg (by omega), Str.append, happended, hlen, Nat.add_zero,
    modulate_capacity_init]
  by_cases hbig : n + 1 < 2 ^ 30
  · obtain ⟨k, hk⟩ : ∃ k, roomFor 256 0 n = n + (k + 1) := by
      refine ⟨roomFor 256 0 n - n - 1, ?_⟩
      rw [roomFor]
      split_ifs <;> omega
    have hput := Buffer.put_append [] (List.replicate (n + (k + 1)) 0)
      (strncpy (Scan.cString mem) n) (by rw [hcopy, List.length_replicate]; omega)
    rw [List.nil_append, List.nil_append, hcopy, List.drop_replicate,
      Nat.add_sub_cancel_left] at hput
    have hclose := Buffer.put_append (strncpy (Scan.cString mem) n) (List.replicate (k + 1) 0) [0]
      (by simp)
    rw [hcopy] at hclose
    have hwrite :
        (⟨List.replicate (n + (k + 1)) 0, 0⟩ : Str).write 0 (strncpy (Scan.cString mem) n) =
          some ⟨strncpy (Scan.cString mem) n ++ List.replicate (k + 1) 0, 0⟩ := congrArg _ hput
    have hend : (⟨strncpy (Scan.cString mem) n ++ List.replicate (k + 1) 0, 0⟩ : Str).close n =
        some ⟨strncpy (Scan.cString mem) n ++ [0] ++ (List.replicate (k + 1) 0).drop 1, n⟩ :=
      congrArg _ hclose
    rw [if_pos hbig, if_pos hbig, hk, Option.bind_eq_bind, Option.bind_some, hwrite,
      Option.bind_some, Nat.zero_add, hend, Option.map_some, added]
    dsimp only
    rw [hlen, List.drop_zero, List.append_assoc, List.take_left' hcopy]
  · rw [if_neg hbig, if_neg hbig]
    rfl

theorem cString_strncpy (mem : List UInt8) (n : ℕ) :
    Scan.cString (strncpy (Scan.cString mem) n) = Scan.cString (mem.take n) := by
  induction mem generalizing n with
  | nil => cases n <;> simp [strncpy, Scan.cString]
  | cons c mem ih =>
    cases n with
    | zero => simp [strncpy, Scan.cString]
    | succ n =>
      by_cases hc : c = 0
      · simp [hc, strncpy, Scan.cString]
      · have hih := ih n
        simp only [strncpy, Scan.cString] at hih ⊢
        simpa [hc] using hih

/-- A new string. -/
def fresh : Object := ⟨init, holds_init⟩

theorem holds_reset {s : Str} {t : Text} (hs : Holds s t) : Holds s.reset [] := by
  obtain ⟨rest, hrest⟩ := hs.value_eq
  refine ⟨⟨List.replicate (t.length + rest.length) 0, ?_⟩, List.not_mem_nil, rfl, ?_⟩
  · rw [reset, value_max_len, hrest, List.length_append, List.length_cons, ← Nat.add_assoc,
      List.replicate_succ]
    rfl
  · have hfits := hs.fits
    rw [value_max_len] at hfits ⊢
    rwa [reset, List.length_replicate]

theorem close_append {s : Str} {t post : Text} (hvalue : s.value = t ++ post) (hpost : post ≠ [])
    (hzero : 0 ∉ t) (hfits : s.value_max_len < 2147483648) :
    ∃ s', s.close t.length = some s' ∧ Holds s' t ∧ s'.value_max_len = s.value_max_len := by
  obtain ⟨c, rest, rfl⟩ := List.exists_cons_of_ne_nil hpost
  have hput := Buffer.put_append t (c :: rest) [0] (by simp)
  have hclose : s.close t.length = some ⟨t ++ 0 :: rest, t.length⟩ := by
    rw [close, write, hvalue, hput, Option.map_some]
    simp
  have hlen : (t ++ 0 :: rest).length = s.value_max_len := by
    rw [value_max_len, hvalue]
    simp
  exact ⟨_, hclose, ⟨⟨rest, rfl⟩, hzero, rfl, by rw [value_max_len, hlen]; exact hfits⟩, hlen⟩

theorem write_value_max_len {s s' : Str} {off : ℕ} {bs : List UInt8}
    (h : s.write off bs = some s') : s'.value_max_len = s.value_max_len := by
  obtain ⟨value, hput, rfl⟩ := Option.map_eq_some_iff.mp h
  exact Buffer.length_put hput

theorem write_value_len {s s' : Str} {off : ℕ} {bs : List UInt8}
    (h : s.write off bs = some s') : s'.value_len = s.value_len := by
  obtain ⟨value, -, rfl⟩ := Option.map_eq_some_iff.mp h
  rfl

namespace Holds

variable {s : Str} {t : Text}

theorem cString (hs : Holds s t) : Scan.cString s.value = t := by
  obtain ⟨rest, hrest⟩ := hs.value_eq
  rw [hrest, Scan.cString_append hs.zero_notMem]

theorem take_value_len (hs : Holds s t) : s.value.take s.value_len = t := by
  obtain ⟨rest, hrest⟩ := hs.value_eq
  rw [hrest, hs.len_eq, List.take_left]

theorem len_lt (hs : Holds s t) : t.length < s.value_max_len := by
  obtain ⟨rest, hrest⟩ := hs.value_eq
  rw [value_max_len, hrest, List.length_append, List.length_cons]
  omega

theorem modulate_capacity (hs : Holds s t) {write_len len' : ℕ}
    (hroom : Room s.value_max_len s.value_len write_len len')
    (hle : len' ≤ s.value_len + write_len) :
    ∃ s', s.modulate_capacity write_len = some s' ∧ Holds s' t ∧ len' < s'.value_max_len ∧
      s'.value_max_len = roomFor s.value_max_len s.value_len write_len := by
  have hfits := hs.fits
  rw [Str.modulate_capacity]
  by_cases hmore : s.value_len + 1 < s.value_max_len ∧
      s.value_max_len < s.value_len + write_len + 1
  · have hfor : roomFor s.value_max_len s.value_len write_len =
        2 * (s.value_len + write_len + 1) := by
      rw [roomFor, if_pos hmore]
    have hlt : 2 * (s.value_len + write_len + 1) < 2147483648 := by
      rcases hroom with h | h
      · exact h.2
      · omega
    have hkept : (Scan.cString s.value).take s.value_len = t := by
      rw [hs.cString, hs.len_eq, List.take_length]
    have hlen := hs.len_eq
    have hgap : ∃ n, 2 * (s.value_len + write_len + 1) - t.length = n + 1 :=
      ⟨2 * (s.value_len + write_len + 1) - t.length - 1, by omega⟩
    obtain ⟨n, hn⟩ := hgap
    have hvalue : (t ++ List.replicate (n + 1) 0 : Text).length =
        2 * (s.value_len + write_len + 1) := by
      rw [List.length_append, List.length_replicate]
      omega
    refine ⟨⟨t ++ List.replicate (n + 1) 0, s.value_len⟩, ?_, ?_, ?_, ?_⟩
    · simp only [hfor]
      rw [if_neg (by omega), if_pos hlt, hkept, hn]
    · refine ⟨⟨List.replicate n 0, by rw [List.replicate_succ]⟩, hs.zero_notMem, hs.len_eq, ?_⟩
      rw [value_max_len, hvalue]
      exact hlt
    · rw [value_max_len, hvalue]
      omega
    · rw [value_max_len, hvalue, hfor]
  · have hfor : roomFor s.value_max_len s.value_len write_len = s.value_max_len := by
      rw [roomFor, if_neg hmore]
    refine ⟨s, by simp only [hfor, if_true], hs, ?_, hfor.symm⟩
    rcases hroom with h | h
    · omega
    · exact h.1

theorem append_text (hs : Holds s t) (bs : Text) (hzero : 0 ∉ bs)
    (hlt : t.length + bs.length < s.value_max_len) :
    ∃ s₁ s', s.write s.value_len bs = some s₁ ∧ s₁.value_len = s.value_len ∧
      s₁.close (s.value_len + bs.length) = some s' ∧ Holds s' (t ++ bs) := by
  obtain ⟨rest, hrest⟩ := hs.value_eq
  have hlen : s.value_max_len = t.length + (rest.length + 1) := by
    rw [value_max_len, hrest, List.length_append, List.length_cons]
  have hput := Buffer.put_append t (0 :: rest) bs
    (by rw [List.length_cons]; omega)
  have hwrite : s.write s.value_len bs =
      some ⟨t ++ bs ++ (0 :: rest).drop bs.length, s.value_len⟩ := by
    rw [write, hs.len_eq, hrest, hput, Option.map_some]
  have hkeep : (t ++ bs ++ (0 :: rest).drop bs.length).length = s.value_max_len := by
    simp only [List.length_append, List.length_drop, List.length_cons]
    omega
  have hpost : (0 :: rest).drop bs.length ≠ [] := by
    rw [Ne, List.drop_eq_nil_iff, List.length_cons]
    omega
  have hmem : 0 ∉ t ++ bs := by
    rw [List.mem_append, not_or]
    exact ⟨hs.zero_notMem, hzero⟩
  obtain ⟨s', hclose, hs', -⟩ := close_append
    (s := ⟨t ++ bs ++ (0 :: rest).drop bs.length, s.value_len⟩) rfl hpost hmem
    (by rw [value_max_len, hkeep]; exact hs.fits)
  rw [List.length_append, ← hs.len_eq] at hclose
  exact ⟨_, s', hwrite, rfl, hclose, hs'⟩

theorem assign (hs : Holds s t) (src : CText)
    (hroom : Room s.value_max_len s.value_len src.1.length src.1.length) :
    ∃ s', s.assign src.1 = some s' ∧ Holds s' src.1 := by
  obtain ⟨s₁, hmodulate, hs₁, hlt, -⟩ := hs.modulate_capacity hroom (by omega)
  have hput := Buffer.put_append [] (List.replicate s₁.value_max_len 0) src.1
    (by rw [List.length_replicate]; omega)
  rw [List.nil_append, List.nil_append, List.drop_replicate] at hput
  have hwrite : ({ s₁ with value := List.replicate s₁.value_max_len 0 } : Str).write 0 src.1 =
      some ⟨src.1 ++ List.replicate (s₁.value_max_len - src.1.length) 0, s₁.value_len⟩ := by
    have hput' : Buffer.put (List.replicate s₁.value_max_len 0) 0 src.1 = _ := hput
    rw [write, hput', Option.map_some]
  have hkeep : (src.1 ++ List.replicate (s₁.value_max_len - src.1.length) 0 : Text).length =
      s₁.value_max_len := by
    rw [List.length_append, List.length_replicate]
    omega
  have hpost : List.replicate (s₁.value_max_len - src.1.length) (0 : UInt8) ≠ [] := by
    rw [Ne, List.replicate_eq_nil_iff]
    omega
  obtain ⟨s', hclose, hs', -⟩ := close_append
    (s := ⟨src.1 ++ List.replicate (s₁.value_max_len - src.1.length) 0, s₁.value_len⟩) rfl hpost
    src.2 (by rw [value_max_len, hkeep]; exact hs₁.fits)
  refine ⟨s', ?_, hs'⟩
  simp only [Str.assign, hmodulate, Option.bind_eq_bind, Option.bind_some, hwrite, hclose]

theorem assign_holds (hs : Holds s t) (src : CText) {s' : Str} (h : s.assign src.1 = some s') :
    Holds s' src.1 := by
  have hlt := hs.len_lt
  have hlen := hs.len_eq
  obtain ⟨s₁, hmodulate, h⟩ := Option.bind_eq_some_iff.mp h
  obtain ⟨s₂, hwrite, hclose⟩ := Option.bind_eq_some_iff.mp h
  have hfits : src.1.length + 1 ≤ s₁.value_max_len := by
    have hmax : s₂.value_max_len = s₁.value_max_len :=
      (write_value_max_len hwrite).trans List.length_replicate
    obtain ⟨value, hput, -⟩ := Option.map_eq_some_iff.mp hclose
    have hle := Buffer.put_isSome.mp (Option.isSome_of_eq_some hput)
    rw [List.length_singleton] at hle
    rw [← hmax]
    exact hle
  suffices hroom : Room s.value_max_len s.value_len src.1.length src.1.length by
    obtain ⟨s₃, hassign, hs₃⟩ := hs.assign src hroom
    rw [Str.assign, hmodulate, Option.bind_eq_bind, Option.bind_some, hwrite,
      Option.bind_some, hclose] at hassign
    rwa [← Option.some.inj hassign] at hs₃
  unfold Str.modulate_capacity at hmodulate
  unfold Room
  dsimp only at hmodulate
  split_ifs at hmodulate with hsame hsmall
  · cases hmodulate
    unfold roomFor at hsame
    split_ifs at hsame <;> omega
  · unfold roomFor at hsame hsmall
    split_ifs at hsame hsmall <;> omega

theorem append_char (hs : Holds s t) {c : UInt8} (hc : c ≠ 0)
    (hroom : Room s.value_max_len s.value_len 1 (s.value_len + 1)) :
    ∃ s', s.append_char c = some s' ∧ Holds s' (t ++ [c]) := by
  obtain ⟨s₁, hmodulate, hs₁, hlt, -⟩ := hs.modulate_capacity hroom le_rfl
  have hlen : s₁.value_len = s.value_len := hs₁.len_eq.trans hs.len_eq.symm
  obtain ⟨s₂, s', hwrite, hlen', hclose, hs'⟩ := hs₁.append_text [c]
    (by simpa using hc.symm) (by rw [← hs.len_eq]; exact hlt)
  refine ⟨s', ?_, hs'⟩
  simp only [Str.append_char, hmodulate, Option.bind_eq_bind, Option.bind_some, hwrite]
  rw [hlen', ← hclose]
  rfl

theorem append (hs : Holds s t) (sub : CText) {len : ℤ}
    (htake : appended sub.1 len ≤ sub.1.length)
    (hroom : Room s.value_max_len s.value_len (appended sub.1 len + s.value_len)
      (s.value_len + appended sub.1 len)) :
    ∃ s', s.append (some sub.1) len = some s' ∧
      Holds s' (t ++ sub.1.take (appended sub.1 len)) := by
  obtain ⟨s₁, hmodulate, hs₁, hlt, -⟩ := hs.modulate_capacity hroom (by omega)
  have hlen : s₁.value_len = s.value_len := hs₁.len_eq.trans hs.len_eq.symm
  have hcopy : strncpy sub.1 (appended sub.1 len) = sub.1.take (appended sub.1 len) := by
    rw [strncpy, Nat.sub_eq_zero_of_le htake, List.replicate_zero, List.append_nil]
  have hzero : 0 ∉ sub.1.take (appended sub.1 len) := fun h ↦ sub.2 (List.mem_of_mem_take h)
  have htaken : (sub.1.take (appended sub.1 len)).length = appended sub.1 len :=
    List.length_take_of_le htake
  obtain ⟨s₂, s', hwrite, hlen', hclose, hs'⟩ := hs₁.append_text _ hzero
    (by rw [htaken, ← hs.len_eq]; exact hlt)
  refine ⟨s', ?_, hs'⟩
  simp only [Str.append, hmodulate, Option.bind_eq_bind, Option.bind_some, hcopy, hwrite]
  rw [hlen', ← hclose, htaken]

theorem append_value_max_len (hs : Holds s t) {sub : Text} {s' : Str} {len : ℤ}
    (hroom : Room s.value_max_len s.value_len (appended sub len + s.value_len)
      (s.value_len + appended sub len))
    (h : s.append (some sub) len = some s') :
    s'.value_max_len = roomFor s.value_max_len s.value_len (appended sub len + s.value_len) := by
  obtain ⟨s₁, hmodulate, -, -, hroomFor⟩ := hs.modulate_capacity hroom (by omega)
  simp only [Str.append, hmodulate, Option.bind_eq_bind, Option.bind_some] at h
  obtain ⟨s₂, hwrite, hclose⟩ := Option.bind_eq_some_iff.mp h
  have hlen := write_value_max_len hclose
  exact hlen.trans ((write_value_max_len hwrite).trans hroomFor)

theorem room_of_fits (hs : Holds s t) {n : ℕ} (hfits : Fits s.value_max_len s.value_len n) :
    Room s.value_max_len s.value_len (n + s.value_len) (s.value_len + n) := by
  have hlt := hs.len_lt
  rw [← hs.len_eq] at hlt
  obtain ⟨hn, hroom⟩ := hfits
  unfold roomFor at hroom
  unfold Room
  split_ifs at hroom <;> omega

theorem append_fits (hs : Holds s t) {sub : Text} (hzero : 0 ∉ sub)
    (hfits : Fits s.value_max_len s.value_len sub.length) :
    ∃ s', s.append (some sub) (-1) = some s' ∧ Holds s' (t ++ sub) ∧
      s'.value_max_len = roomFor s.value_max_len s.value_len (sub.length + s.value_len) := by
  have happended : appended sub (-1) = sub.length := rfl
  have hroom := hs.room_of_fits hfits
  rw [← happended] at hroom ⊢
  obtain ⟨s', happend, hs'⟩ := hs.append ⟨sub, hzero⟩ happended.le hroom
  have hsub : sub.take (appended sub (-1)) = sub := List.take_length
  rw [hsub] at hs'
  exact ⟨s', happend, hs', hs.append_value_max_len hroom happend⟩

theorem appendFrom (hs : Holds s t) {mem : List UInt8} {n : ℕ} (hpos : 0 < n)
    (hle : n ≤ mem.length) (hzero : 0 ∉ mem.take n) (hfits : Fits s.value_max_len s.value_len n) :
    ∃ s', s.appendFrom mem n = some s' ∧ Holds s' (t ++ mem.take n) ∧
      s'.value_max_len = roomFor s.value_max_len s.value_len (n + s.value_len) := by
  have happended : appended (Scan.cString mem) n = n := if_neg (by omega)
  have hroom := hs.room_of_fits hfits
  have htaken : (mem.take n).length = n := List.length_take_of_le hle
  have hstring : Scan.cString mem = mem.take n ++ Scan.cString (mem.drop n) := by
    conv_lhs => rw [Scan.cString, ← List.take_append_drop n mem]
    rw [List.takeWhile_append_of_pos, Scan.cString]
    intro c hc
    simpa using fun hc0 : c = 0 ↦ hzero (hc0 ▸ hc)
  have hlong : n ≤ (Scan.cString mem).length := by
    rw [hstring, List.length_append]
    omega
  have hsame : (Scan.cString mem).take n = mem.take n := by rw [hstring, List.take_left' htaken]
  rw [← happended] at hroom
  obtain ⟨s', happend, hs'⟩ := hs.append ⟨Scan.cString mem, Scan.notMem_cString mem⟩
    (happended.trans_le hlong) hroom
  have hmax := hs.append_value_max_len hroom happend
  rw [happended] at hmax
  dsimp only at hs'
  rw [happended, hsame] at hs'
  exact ⟨s', (if_neg (by omega)).trans happend, hs', hmax⟩

theorem added_eq {s' : Str} {bs : List UInt8} (hs : Holds s t) (hs' : Holds s' (t ++ bs)) :
    added s s' = bs := by
  rw [added, hs'.take_value_len, hs.len_eq, List.drop_left]

theorem append_not_fits (hs : Holds s t) {sub : Text}
    (hfits : ¬Fits s.value_max_len s.value_len sub.length) : s.append (some sub) (-1) = none := by
  have hlt := hs.len_lt
  rw [← hs.len_eq] at hlt
  have happended : appended sub (-1) = sub.length := rfl
  simp only [Str.append, happended, Option.bind_eq_bind]
  by_cases hbig : roomFor s.value_max_len s.value_len (sub.length + s.value_len) < 2147483648
  · have hfull : sub.length ≠ 0 ∧ s.value_max_len = s.value_len + 1 := by
      unfold Fits at hfits
      omega
    have hsame : roomFor s.value_max_len s.value_len (sub.length + s.value_len) =
        s.value_max_len := if_neg (by omega)
    have hmodulate : s.modulate_capacity (sub.length + s.value_len) = some s := by
      rw [Str.modulate_capacity, hsame]
      exact if_pos rfl
    rw [hmodulate, Option.bind_some, Option.bind_eq_none_iff]
    intro s₁ hwrite
    have hlen := write_value_max_len hwrite
    unfold value_max_len at hlen hfull
    have hput : Buffer.put s₁.value (s.value_len + sub.length) [0] = none :=
      if_neg (by rw [hlen, hfull.2, List.length_singleton]; omega)
    have hlen₁ := write_value_len hwrite
    rw [close, write, hlen₁]
    exact congrArg _ hput
  · have hfits := hs.fits
    have hmodulate : s.modulate_capacity (sub.length + s.value_len) = none := by
      rw [Str.modulate_capacity]
      exact (if_neg (by omega)).trans (if_neg hbig)
    rw [hmodulate]
    rfl

theorem append_holds (hs : Holds s t) {sub : Text} (hzero : 0 ∉ sub) {s' : Str}
    (h : s.append (some sub) sub.length = some s') : Holds s' (t ++ sub) := by
  have happended : appended sub sub.length = appended sub (-1) := by
    simp [appended]
  have hminus : s.append (some sub) (-1) = some s' := by
    rw [← h, Str.append, Str.append, happended]
  by_cases hfits : Fits s.value_max_len s.value_len sub.length
  · obtain ⟨s₁, hs₁, hholds, -⟩ := hs.append_fits hzero hfits
    rw [hminus] at hs₁
    cases hs₁
    exact hholds
  · rw [hs.append_not_fits hfits] at hminus
    cases hminus

theorem splice (hs : Holds s t) {a x b : Text} (ht : t = a ++ x ++ b) {c : Text} (hzero : 0 ∉ c)
    (hlt : a.length + c.length + b.length < s.value_max_len) :
    ∃ value s₁ s', Buffer.move s.value (a.length + c.length) (a.length + x.length) b.length =
        some value ∧
      ({ s with value := value } : Str).write a.length c = some s₁ ∧
      s₁.value_len = s.value_len ∧
      s₁.close (a.length + c.length + b.length) = some s' ∧ Holds s' (a ++ c ++ b) ∧
      s'.value_max_len = s.value_max_len := by
  obtain ⟨rest, hrest⟩ := hs.value_eq
  rw [ht] at hrest
  have hmax : s.value_max_len = a.length + x.length + b.length + (rest.length + 1) := by
    rw [value_max_len, hrest]
    simp only [List.length_append, List.length_cons]
  have hfit : c.length + b.length ≤ x.length + b.length + (0 :: rest).length := by
    rw [List.length_cons]
    omega
  obtain ⟨value, post, hmove, hput, hpost⟩ := Buffer.splice (a := a) (x := x) (b := b) c hfit
  rw [List.length_cons] at hpost
  have hzeros := hs.zero_notMem
  simp only [ht, List.mem_append, not_or] at hzeros
  have hmem : 0 ∉ a ++ c ++ b := by
    simp only [List.mem_append, not_or]
    exact ⟨⟨hzeros.1.1, hzero⟩, hzeros.2⟩
  have hkeep : (a ++ c ++ b ++ post).length = s.value_max_len := by
    simp only [List.length_append]
    omega
  have hne : post ≠ [] := by
    rw [← List.length_pos_iff]
    omega
  obtain ⟨s', hclose, hs', hmax'⟩ := close_append (s := ⟨a ++ c ++ b ++ post, s.value_len⟩) rfl
    hne hmem (by rw [value_max_len, hkeep]; exact hs.fits)
  rw [List.length_append, List.length_append] at hclose
  refine ⟨value, ⟨a ++ c ++ b ++ post, s.value_len⟩, s', by rw [hrest, hmove], ?_, rfl, hclose, hs',
    ?_⟩
  · rw [write]
    simp only [hput, Option.map_some]
  · rw [hmax', value_max_len, hkeep]

theorem insert (hs : Holds s t) {offset : ℤ} (hpos : 0 ≤ offset) (hle : offset ≤ s.value_len)
    (cstr : CText)
    (hroom : Room s.value_max_len s.value_len (s.value_len + cstr.1.length)
      (s.value_len + cstr.1.length)) :
    ∃ s', s.insert offset (some cstr.1) = some s' ∧
      Holds s' (t.take offset.toNat ++ cstr.1 ++ t.drop offset.toNat) := by
  obtain ⟨s₁, hmodulate, hs₁, hlt, -⟩ := hs.modulate_capacity hroom (by omega)
  have hlen : s₁.value_len = s.value_len := hs₁.len_eq.trans hs.len_eq.symm
  have hslen := hs.len_eq
  have htake : (t.take offset.toNat).length = offset.toNat := List.length_take_of_le (by omega)
  have hdrop : (t.drop offset.toNat).length = s.value_len - offset.toNat := by
    rw [List.length_drop, hslen]
  obtain ⟨value, s₂, s', hmove, hwrite, hlen', hclose, hs', -⟩ := hs₁.splice
    (a := t.take offset.toNat) (x := []) (b := t.drop offset.toNat)
    (by rw [List.append_nil, List.take_append_drop]) cstr.2 (by rw [htake, hdrop]; omega)
  refine ⟨s', ?_, hs'⟩
  rw [htake, hdrop, List.length_nil, Nat.add_zero] at hmove
  rw [htake] at hwrite
  rw [hlen] at hwrite hlen'
  rw [htake, hdrop] at hclose
  have hin : ¬(offset < 0 ∨ (s.value_len : ℤ) < offset) := by omega
  have hend : offset.toNat + cstr.1.length + (s.value_len - offset.toNat) =
      s.value_len + cstr.1.length := by omega
  rw [hend] at hclose
  simp only [Str.insert, Option.bind_eq_bind, Option.bind_some, hmodulate, hlen, if_neg hin, hmove,
    hwrite, hlen', hclose]

theorem ltrim (hs : Holds s t) :
    ∃ s', s.ltrim = some s' ∧ Holds s' (t.dropWhile Scan.isSpace) := by
  have hsplit : t = [] ++ t.takeWhile Scan.isSpace ++ t.dropWhile Scan.isSpace :=
    List.takeWhile_append_dropWhile.symm
  have hlength : (t.takeWhile Scan.isSpace).length + (t.dropWhile Scan.isSpace).length =
      t.length := by
    rw [← List.length_append, List.takeWhile_append_dropWhile]
  have hlt := hs.len_lt
  rw [Str.ltrim, hs.take_value_len]
  have hlen := hs.len_eq
  by_cases hcnt : (t.takeWhile Scan.isSpace).length = 0
  · refine ⟨s, if_pos hcnt, ?_⟩
    rw [List.length_eq_zero_iff] at hcnt
    rw [hcnt, List.append_nil, List.nil_append] at hsplit
    rwa [← hsplit]
  · obtain ⟨value, s₁, s', hmove, hwrite, hlen', hclose, hs', -⟩ := hs.splice hsplit (c := [])
      List.not_mem_nil (by simp only [List.length_nil]; omega)
    have hleft : s.value_len - (t.takeWhile Scan.isSpace).length =
        (t.dropWhile Scan.isSpace).length := by omega
    simp only [List.length_nil, Nat.zero_add] at hmove hwrite hclose
    have hnothing : s₁ = { s with value := value } := by
      rw [write, Buffer.put, if_pos (by simp)] at hwrite
      exact (Option.some.inj hwrite).symm
    refine ⟨s', ?_, hs'⟩
    rw [hnothing] at hclose
    simp only [if_neg hcnt, hleft, hmove, Option.bind_eq_bind, Option.bind_some, hclose]

theorem rtrim (hs : Holds s t)
    (hlast : ∀ c ∈ (s.value.take s.value_len).getLast?, Scan.isSpace c = false) :
    s.rtrim = some s ∧ t.rdropWhile Scan.isSpace = t := by
  rw [hs.take_value_len] at hlast
  have hkeep : t.rdropWhile Scan.isSpace = t := by
    rw [List.rdropWhile_eq_self_iff]
    intro hne
    rw [hlast _ (List.getLast?_eq_some_getLast hne)]
    exact Bool.false_ne_true
  have hnone : t.reverse.takeWhile Scan.isSpace = [] := by
    cases hrev : t.reverse with
    | nil => rfl
    | cons c rest =>
      have hc : t.getLast? = some c := by
        rw [← List.head?_reverse, hrev]
        rfl
      rw [List.takeWhile_cons, hlast c hc]
      rfl
  refine ⟨?_, hkeep⟩
  have hlt := hs.len_lt
  have hlen := hs.len_eq
  rw [value_max_len] at hlt
  simp only [Str.rtrim, hs.take_value_len, hnone, List.length_nil, Nat.sub_zero,
    List.replicate_zero]
  rw [write, Buffer.put, if_pos (by rw [List.length_nil]; omega), List.append_nil,
    List.length_nil, Nat.add_zero, List.take_append_drop]
  rfl

theorem convert (hs : Holds s t) {f : UInt8 → UInt8} (hf : ∀ c, c ≠ 0 → f c ≠ 0) :
    ∃ s', s.convert f = some s' ∧ Holds s' (t.map f) := by
  obtain ⟨rest, hrest⟩ := hs.value_eq
  have hput := Buffer.put_append [] (t ++ 0 :: rest) (t.map f) (by simp)
  rw [List.length_map, List.drop_left] at hput
  have hconvert : s.convert f = some ⟨t.map f ++ 0 :: rest, s.value_len⟩ := by
    rw [Str.convert, hs.take_value_len, write, hrest]
    simpa using congrArg (Option.map fun value ↦ ({ s with value := value } : Str)) hput
  refine ⟨_, hconvert, ⟨rest, rfl⟩, ?_, ?_, ?_⟩
  · intro hzero
    obtain ⟨c, hc, hfc⟩ := List.mem_map.mp hzero
    exact hf c (fun h ↦ hs.zero_notMem (h ▸ hc)) hfc
  · rw [List.length_map]
    exact hs.len_eq
  · have hfits := hs.fits
    rw [value_max_len, hrest] at hfits
    simpa [value_max_len] using hfits

theorem find (hs : Holds s t) {done rest : Text} (ht : t = done ++ rest) (rx : Regex) :
    Str.find rx s done.length =
      if t = [] then none
      else (rx.exec rest).map fun m ↦ (done.length + m.1, done.length + m.2) := by
  obtain ⟨post, hpost⟩ := hs.value_eq
  have hrest : 0 ∉ rest := fun h ↦ hs.zero_notMem (ht ▸ List.mem_append_right done h)
  have hbehind : Scan.cString (s.value.drop done.length) = rest := by
    rw [hpost, ht, List.append_assoc, List.drop_left, Scan.cString_append hrest]
  rw [Str.find, hs.cString, hbehind]

theorem replace_at (hs : Holds s t) {done rest : Text} (ht : t = done ++ rest) {a b : ℕ}
    (hab : a ≤ b) (hb : b ≤ rest.length) {newstr : Text} (hzero : 0 ∉ newstr)
    (hlt : t.length + newstr.length < s.value_max_len + (b - a)) :
    ∃ value s₁ s',
      Buffer.move s.value (done.length + a + newstr.length) (done.length + b)
          (Scan.cString (s.value.drop (done.length + b))).length = some value ∧
        ({ s with value := value } : Str).write (done.length + a) newstr = some s₁ ∧
        s₁.close (s₁.value_len + newstr.length - (b - a)) = some s' ∧
        Holds s' (done ++ rest.take a ++ newstr ++ rest.drop b) ∧
        s'.value_max_len = s.value_max_len := by
  obtain ⟨post, hpost⟩ := hs.value_eq
  have hcut : rest = rest.take a ++ (rest.take b).drop a ++ rest.drop b := by
    have htake : (rest.take b).take a = rest.take a := by rw [List.take_take, Nat.min_eq_left hab]
    rw [← htake, List.take_append_drop, List.take_append_drop]
  have htail : Scan.cString (s.value.drop (done.length + b)) = rest.drop b := by
    have hrest : 0 ∉ rest.drop b := by
      intro h
      rw [ht] at hs
      exact hs.zero_notMem (List.mem_append_right done (List.mem_of_mem_drop h))
    rw [hpost, ht, List.append_assoc, List.drop_append, List.drop_eq_nil_of_le (by omega),
      Nat.add_sub_cancel_left, List.nil_append, List.drop_append_of_le_length hb,
      Scan.cString_append hrest]
  have hparts : t = (done ++ rest.take a) ++ (rest.take b).drop a ++ rest.drop b := by
    rw [ht, List.append_assoc, List.append_assoc, ← List.append_assoc (rest.take a), ← hcut]
  have hx : ((rest.take b).drop a).length = b - a := by
    rw [List.length_drop, List.length_take, Nat.min_eq_left hb]
  have hfront : (done ++ rest.take a).length = done.length + a := by
    rw [List.length_append, List.length_take_of_le (hab.trans hb)]
  have hback : (rest.drop b).length = rest.length - b := List.length_drop
  have hlen : t.length = done.length + rest.length := by rw [ht, List.length_append]
  obtain ⟨value, s₁, s', hmove, hwrite, hlen', hclose, hs', hmax⟩ := hs.splice hparts hzero
    (by omega)
  rw [hfront, hx] at hmove
  rw [hfront] at hwrite
  refine ⟨value, s₁, s', ?_, hwrite, ?_, hs', hmax⟩
  · rw [htail, ← hmove]
    congr 1
    omega
  · rw [← hclose, hlen', hs.len_eq, hfront, hback]
    congr 1
    omega

theorem replaceFrom {rx : Regex} {newstr : Text} (hzero : 0 ∉ newstr) (str_len : ℕ)
    (limited : Bool) (n : ℕ) {s : Str} (done : Text) {rest : Text} (hs : Holds s (done ++ rest))
    (hrep : Replaceable rx newstr str_len limited n s.value_max_len done rest)
    (hturns : limited = false → rest.length < n) :
    ∃ s', Str.replaceFrom rx newstr str_len limited n done.length s =
        some (s', (substitute rx newstr n done rest).2) ∧
      Holds s' (substitute rx newstr n done rest).1 := by
  induction n generalizing s done rest with
  | zero =>
    cases limited with
    | false => exact absurd (hturns rfl) (Nat.not_lt_zero _)
    | true => exact ⟨s, rfl, hs⟩
  | succ n ih =>
    rw [Str.replaceFrom, substitute, hs.find rfl rx]
    rw [Replaceable] at hrep
    by_cases hempty : done ++ rest = []
    · rw [if_pos hempty, if_pos hempty]
      exact ⟨s, rfl, hempty ▸ hs⟩
    · rw [if_neg hempty] at hrep ⊢
      rw [if_neg hempty]
      cases hexec : rx.exec rest with
      | none => exact ⟨s, rfl, hs⟩
      | some m =>
        obtain ⟨a, b⟩ := m
        obtain ⟨hab, hb⟩ := rx.exec_le rest a b hexec
        simp only [hexec] at hrep
        obtain ⟨hprogress, hroom⟩ := hrep
        have hlen := hs.len_eq
        have hlen' : (done ++ rest.take a ++ newstr).length =
            done.length + a + newstr.length := by
          rw [List.length_append, List.length_append, List.length_take_of_le (hab.trans hb)]
        have hturns' : limited = false → (rest.drop b).length < n := by
          intro hlimited
          have hpos : 0 < b := by simpa [hlimited] using hprogress
          have hlt := hturns hlimited
          rw [List.length_drop]
          omega
        -- the string once it has room, and what the rest of the loop makes of it
        have hloop : ∀ s₁ : Str, Holds s₁ (done ++ rest) →
            (done ++ rest).length + newstr.length < s₁.value_max_len + (b - a) →
            Replaceable rx newstr str_len limited n s₁.value_max_len
              (done ++ rest.take a ++ newstr) (rest.drop b) →
            ∃ value s₂ s₃ s',
              Buffer.move s₁.value (done.length + a + newstr.length) (done.length + b)
                  (Scan.cString (s₁.value.drop (done.length + b))).length = some value ∧
                ({ s₁ with value := value } : Str).write (done.length + a) newstr = some s₂ ∧
                s₂.close (s₂.value_len + newstr.length - (b - a)) = some s₃ ∧
                Str.replaceFrom rx newstr str_len limited n (done.length + a + newstr.length)
                  s₃ = some (s', (substitute rx newstr n (done ++ rest.take a ++ newstr)
                    (rest.drop b)).2) ∧
                Holds s' (substitute rx newstr n (done ++ rest.take a ++ newstr)
                  (rest.drop b)).1 := by
          intro s₁ hs₁ hlt hrep'
          obtain ⟨value, s₂, s₃, hmove, hwrite, hclose, hs₃, hmax⟩ :=
            hs₁.replace_at rfl hab hb hzero hlt
          rw [← hmax] at hrep'
          obtain ⟨s', hrest, hs'⟩ := ih _ hs₃ hrep' hturns'
          rw [hlen'] at hrest
          exact ⟨value, s₂, s₃, s', hmove, hwrite, hclose, hrest, hs'⟩
        have hsub : done.length + b - (done.length + a) = b - a := by omega
        simp only [Option.map_some, hsub]
        by_cases hmore : b - a ≤ newstr.length
        · rw [if_pos hmore] at hroom
          obtain ⟨hroom, hrep'⟩ := hroom
          rw [← hlen] at hroom hrep'
          obtain ⟨s₁, hmodulate, hs₁, hlt, hmax⟩ := hs.modulate_capacity hroom (by omega)
          rw [← hmax] at hrep'
          obtain ⟨value, s₂, s₃, s', hmove, hwrite, hclose, hrest, hs'⟩ :=
            hloop s₁ hs₁ (by omega) hrep'
          refine ⟨s', ?_, hs'⟩
          simp only [if_pos hmore, hmodulate, Option.bind_eq_bind, Option.bind_some, hmove, hwrite,
            hclose, hrest]
          rfl
        · rw [if_neg hmore] at hroom
          have hlt := hs.len_lt
          obtain ⟨value, s₂, s₃, s', hmove, hwrite, hclose, hrest, hs'⟩ :=
            hloop s hs (by omega) hroom
          refine ⟨s', ?_, hs'⟩
          simp only [if_neg hmore, Option.bind_eq_bind, Option.bind_some, hmove, hwrite, hclose,
            hrest]
          rfl

theorem replace (hs : Holds s t) {regcomp : Text → Option Regex} {pattern newstr : Option CText}
    {max : ℤ} (hreg : Regular regcomp s (.replace pattern newstr max)) :
    ∃ s', s.replace regcomp (pattern.map Subtype.val) (newstr.map Subtype.val) max =
        some (s', (replaced regcomp t max pattern newstr).2) ∧
      Holds s' (replaced regcomp t max pattern newstr).1 := by
  cases pattern with
  | none => exact ⟨s, rfl, hs⟩
  | some pattern =>
    cases newstr with
    | none => exact ⟨s, rfl, hs⟩
    | some newstr =>
      simp only [Option.map_some, Str.replace, replaced]
      cases hcomp : regcomp pattern.1 with
      | none => exact ⟨s, rfl, hs⟩
      | some rx =>
        have hrep := hreg pattern rfl newstr rfl rx hcomp
        rw [hs.cString, hs.len_eq] at hrep
        have hturns : decide (0 < max) = false → t.length < turns max t.length := by
          intro h
          rw [turns, if_neg (of_decide_eq_false h)]
          exact Nat.lt_succ_self _
        obtain ⟨s', hloop, hs'⟩ := replaceFrom newstr.2 t.length (0 < max)
          (turns max t.length) [] hs hrep hturns
        refine ⟨s', ?_, hs'⟩
        rw [List.length_nil] at hloop
        simp only [hs.len_eq, hloop, Option.map_some]

end Holds

theorem toUpper_ne_zero {c : UInt8} (hc : c ≠ 0) : toUpper c ≠ 0 := by
  rw [toUpper]
  split_ifs <;> grind

theorem toLower_ne_zero {c : UInt8} (hc : c ≠ 0) : toLower c ≠ 0 := by
  rw [toLower]
  split_ifs <;> grind

section Refinement

variable {regcomp : Text → Option Regex} {s : Str} {t : Text}

theorem Holds.call (hs : Holds s t) (c : Call) (hreg : Regular regcomp s c) :
    ∃ s' o, s.call regcomp c = some (s', o) ∧ (texts regcomp).ok t c o ∧
      Holds s' ((texts regcomp).next t c o) := by
  cases c with
  | assign src =>
    obtain ⟨s', hassign, hs'⟩ := hs.assign src hreg
    exact ⟨s', .ret 1, by rw [Str.call, hassign, Option.map_some], rfl, hs'⟩
  | append sub len =>
    cases sub with
    | none => exact ⟨s, .done, rfl, trivial, by simpa [texts] using hs⟩
    | some sub =>
      obtain ⟨s', happend, hs'⟩ := hs.append sub hreg.1 hreg.2
      exact ⟨s', .done, by rw [Str.call, Option.map_some, happend, Option.map_some], trivial,
        hs'⟩
  | append_char c =>
    obtain ⟨s', happend, hs'⟩ := hs.append_char hreg.1 hreg.2
    exact ⟨s', .done, by rw [Str.call, happend, Option.map_some], trivial, hs'⟩
  | insert offset cstr =>
    cases cstr with
    | none => exact absurd hreg id
    | some cstr =>
      obtain ⟨s', hinsert, hs'⟩ := hs.insert hreg.1.1 hreg.1.2 cstr hreg.2
      exact ⟨s', .done, by rw [Str.call, Option.map_some, hinsert, Option.map_some], trivial,
        hs'⟩
  | replace pattern newstr max =>
    obtain ⟨s', hreplace, hs'⟩ := hs.replace hreg
    exact ⟨s', .ret _, by rw [Str.call, hreplace, Option.map_some], rfl, hs'⟩
  | ltrim =>
    obtain ⟨s', hltrim, hs'⟩ := hs.ltrim
    exact ⟨s', .done, by rw [Str.call, hltrim, Option.map_some], trivial, hs'⟩
  | rtrim =>
    obtain ⟨hrtrim, hkeep⟩ := hs.rtrim hreg
    refine ⟨s, .done, by rw [Str.call, hrtrim, Option.map_some], trivial, ?_⟩
    change Holds s (t.rdropWhile Scan.isSpace)
    rwa [hkeep]
  | to_upper =>
    obtain ⟨s', hupper, hs'⟩ := hs.convert (f := toUpper) fun _ ↦ toUpper_ne_zero
    exact ⟨s', .done, by rw [Str.call, Str.to_upper, hupper, Option.map_some], trivial, hs'⟩
  | to_lower =>
    obtain ⟨s', hlower, hs'⟩ := hs.convert (f := toLower) fun _ ↦ toLower_ne_zero
    exact ⟨s', .done, by rw [Str.call, Str.to_lower, hlower, Option.map_some], trivial, hs'⟩
  | reset => exact ⟨s.reset, .ret 1, rfl, rfl, holds_reset hs⟩
  | get_cstr => exact ⟨s, .cstr _, rfl, hs.cString, hs⟩
  | get_len => exact ⟨s, .ret _, rfl, congrArg (fun n : ℕ ↦ (n : ℤ)) hs.len_eq, hs⟩

/-- The buffer is never left, the length is that of the text in it, and the text is what the
operations on texts make. -/
theorem refines_texts (regcomp : Text → Option Regex) {cs : List Call}
    (hrun : Refine.Within (call regcomp) (texts regcomp) (Regular regcomp) init [] cs) :
    (∃ s t, Run.final (Refine.step (call regcomp) (texts regcomp)) (some init, []) cs =
        (some s, t) ∧ Holds s t) ∧
      Refine.Refines (call regcomp) (texts regcomp) init [] cs :=
  Refine.refines_of_simulation (I := Holds) (fun _ _ c hs hreg ↦ hs.call c hreg) holds_init hrun

end Refinement

instance decidableReplaceable (rx : Regex) (newstr : Text) (str_len : ℕ) (limited : Bool) :
    ∀ (n max_len : ℕ) (done rest : Text),
      Decidable (Replaceable rx newstr str_len limited n max_len done rest)
  | 0, _, _, _ => inferInstanceAs (Decidable True)
  | n + 1, max_len, done, rest => by
    have ih := decidableReplaceable rx newstr str_len limited n
    unfold Replaceable
    split
    · infer_instance
    · split <;> infer_instance

instance decidableRegular (regcomp : Text → Option Regex) (s : Str) (c : Call) :
    Decidable (Regular regcomp s c) := by
  cases c with
  | assign src => exact inferInstanceAs (Decidable (Room _ _ _ _))
  | append sub len =>
    cases sub with
    | none => exact inferInstanceAs (Decidable True)
    | some sub => exact inferInstanceAs (Decidable (_ ∧ Room _ _ _ _))
  | append_char c => exact inferInstanceAs (Decidable (c ≠ 0 ∧ Room _ _ _ _))
  | insert offset cstr =>
    cases cstr with
    | none => exact inferInstanceAs (Decidable False)
    | some cstr => exact inferInstanceAs (Decidable ((0 ≤ offset ∧ _) ∧ Room _ _ _ _))
  | replace pattern newstr max =>
    exact inferInstanceAs
      (Decidable (∀ p ∈ pattern, ∀ new ∈ newstr, ∀ rx ∈ regcomp p.1, Replaceable rx _ _ _ _ _ _ _))
  | rtrim => exact inferInstanceAs (Decidable (∀ c ∈ List.getLast? _, Scan.isSpace c = false))
  | _ => exact inferInstanceAs (Decidable True)

instance decidableOk (regcomp : Text → Option Regex) (t : Text) (c : Call) (o : Answer) :
    Decidable ((texts regcomp).ok t c o) := by
  unfold texts
  dsimp only
  split <;> infer_instance

/-- A pattern without special characters matches where it stands in the text. -/
def literal (p : Text) : Regex where
  exec s := (List.range (s.length + 1)).findSome? fun a ↦
    if (s.drop a).take p.length = p ∧ a + p.length ≤ s.length then some (a, a + p.length) else none
  exec_le s a b h := by
    obtain ⟨i, hi, h⟩ := List.exists_of_findSome?_eq_some h
    split_ifs at h with hmatch
    cases h
    exact ⟨Nat.le_add_right a _, hmatch.2⟩

def ascii (s : String) (h : 0 ∉ Scan.ascii s) : CText := ⟨Scan.ascii s, h⟩

theorem refines_texts_literal :
    (∃ s t, Run.final (Refine.step (call (fun p ↦ some (literal p)))
        (texts (fun p ↦ some (literal p)))) (some init, [])
          [.assign (ascii "  a-b" (by decide)), .append (some (ascii "-cd" (by decide))) 2, .ltrim,
            .replace (some (ascii "-" (by decide))) (some (ascii "::" (by decide))) (-1),
            .insert 1 (some (ascii "x" (by decide))), .append_char 90, .to_lower, .get_cstr,
            .get_len] =
        (some s, t) ∧ Holds s t) ∧
      Refine.Refines (call (fun p ↦ some (literal p))) (texts (fun p ↦ some (literal p))) init []
        [.assign (ascii "  a-b" (by decide)), .append (some (ascii "-cd" (by decide))) 2, .ltrim,
            .replace (some (ascii "-" (by decide))) (some (ascii "::" (by decide))) (-1),
            .insert 1 (some (ascii "x" (by decide))), .append_char 90, .to_lower, .get_cstr,
            .get_len] :=
  refines_texts _ (by decide +kernel)

/-- The zeros that `rtrim` writes shorten the text and not its length. -/
theorem not_refines_texts_rtrim :
    ¬ ∀ (regcomp : Text → Option Regex) (cs : List Call),
      Refine.Refines (call regcomp) (texts regcomp) init [] cs := by
  intro h
  have hrun := h (fun _ ↦ none) [.assign (ascii "a " (by decide)), .rtrim, .get_len]
  revert hrun
  decide +kernel

end Str

end Libobject
