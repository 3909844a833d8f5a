import Mathlib.Data.BitVec
import Mathlib.Data.List.Basic
import Mathlib.Data.List.TakeWhile

/-!
# Reading and writing C text

The conversions of `sscanf` and `snprintf` that the programs use, over the bytes of a C string
before its terminating zero. A conversion that does not match is `none`, and the number of
conversions that `sscanf` reports is the number of those made before the first `none`.
-/

namespace Libobject

/-- The bytes of a C string, without the terminating zero. -/
abbrev Text := List UInt8

def strcmp (s t : Text) : Ordering := List.compareLex compare s t

instance : Std.TransCmp strcmp := inferInstanceAs (Std.TransCmp (List.compareLex compare))

instance : Std.LawfulEqCmp strcmp := inferInstanceAs (Std.LawfulEqCmp (List.compareLex compare))

namespace Scan

/-- The bytes of an ASCII literal. -/
def ascii (s : String) : Text := s.toList.map (fun c ↦ UInt8.ofNat c.toNat)

/-- The C string that starts a buffer: the bytes before the first zero. -/
def cString (buf : List UInt8) : Text := buf.takeWhile (fun c ↦ c ≠ 0)

theorem cString_append {s : Text} (h : 0 ∉ s) (rest : List UInt8) :
    cString (s ++ 0 :: rest) = s := by
  induction s with
  | nil => simp [cString]
  | cons c s ih =>
    rw [List.mem_cons, not_or] at h
    have hc : c ≠ 0 := fun hc ↦ h.1 hc.symm
    have hrest := ih h.2
    rw [cString] at hrest ⊢
    rw [List.cons_append, List.takeWhile_cons, if_pos (by simpa using hc), hrest]

theorem notMem_cString (buf : List UInt8) : 0 ∉ cString buf := by
  intro h
  simpa using List.mem_takeWhile_imp h

def isSpace (c : UInt8) : Bool := c = 32 || (9 ≤ c && c ≤ 13)

def isDigit (c : UInt8) : Bool := 48 ≤ c && c ≤ 57

def skipSpace (s : Text) : Text := s.dropWhile isSpace

def decimal (digits : Text) : ℕ := digits.foldl (fun n c ↦ 10 * n + (c.toNat - 48)) 0

/-- An optional sign (`true` is minus) and the text behind it. -/
def scanSign : Text → Bool × Text
  | 45 :: s => (true, s)
  | 43 :: s => (false, s)
  | s => (false, s)

/-- `%u`: the value of `strtoul`, which saturates at 64 bits and wraps a minus sign, stored in an
`unsigned int`. -/
def scanUnsigned (s : Text) : Option (BitVec 32 × Text) :=
  let (neg, body) := scanSign (skipSpace s)
  let digits := body.takeWhile isDigit
  if digits = [] then none
  else
    let v := decimal digits
    let w := if 2 ^ 64 ≤ v then 2 ^ 64 - 1 else if neg then 2 ^ 64 - v else v
    some (BitVec.ofNat 32 w, body.dropWhile isDigit)

/-- `%<width>s`: a non-empty run of at most `width` bytes that are not white space. -/
def scanWord (width : ℕ) (s : Text) : Option (Text × Text) :=
  let body := skipSpace s
  let word := (body.take width).takeWhile (fun c ↦ !isSpace c)
  if word = [] then none else some (word, body.drop word.length)

theorem scanWord_spec {width : ℕ} {s word rest : Text} (h : scanWord width s = some (word, rest)) :
    word ≠ [] ∧ word.length ≤ width := by
  rw [scanWord] at h
  split at h
  · cases h
  · next hne =>
      obtain ⟨rfl, -⟩ := Prod.mk.inj (Option.some.inj h)
      refine ⟨hne, ?_⟩
      calc
        _ ≤ ((skipSpace s).take width).length := (List.takeWhile_prefix _).length_le
        _ ≤ width := List.length_take_le _ _

/-- Consecutive `%<width>s` conversions, as many as match. -/
def scanWords : List ℕ → Text → List Text
  | [], _ => []
  | width :: widths, s =>
    match scanWord width s with
    | none => []
    | some (word, rest) => word :: scanWords widths rest

/-- A literal byte of the format. -/
def scanByte (c : UInt8) : Text → Option Text
  | [] => none
  | d :: s => if d = c then some s else none

/-- `"%u.%u.%u.%u"`: the four numbers and the text behind them. -/
def scanQuad (s : Text) :
    Option ((BitVec 32 × BitVec 32 × BitVec 32 × BitVec 32) × Text) := do
  let (a, s) ← scanUnsigned s
  let (b, s) ← scanUnsigned (← scanByte 46 s)
  let (c, s) ← scanUnsigned (← scanByte 46 s)
  let (d, s) ← scanUnsigned (← scanByte 46 s)
  return ((a, b, c, d), s)

/-- `atoi`: the value of `strtol`, which saturates at 64 bits, stored in an `int`. -/
def atoi (s : Text) : ℤ :=
  let (neg, body) := scanSign (skipSpace s)
  let v : ℤ := decimal (body.takeWhile isDigit)
  let w := if neg then max (-v) (-2 ^ 63) else min v (2 ^ 63 - 1)
  (BitVec.ofInt 32 w).toInt

/-- `%d`: the value of `strtol`, which saturates at 64 bits, stored in an `int`. -/
def scanInt (s : Text) : Option (ℤ × Text) :=
  let (neg, body) := scanSign (skipSpace s)
  let digits := body.takeWhile isDigit
  if digits = [] then none
  else
    let v : ℤ := decimal digits
    let w := if neg then max (-v) (-2 ^ 63) else min v (2 ^ 63 - 1)
    some ((BitVec.ofInt 32 w).toInt, body.dropWhile isDigit)

/-- A literal word of the format. -/
def scanLiteral (w s : Text) : Option Text :=
  if w.isPrefixOf s then some (s.drop w.length) else none

def strstr (s w : Text) : Bool := s.tails.any w.isPrefixOf

/-- `%u` and `%d` of a value that is not negative. -/
def showNat (n : ℕ) : Text := (Nat.toDigits 10 n).map (fun c ↦ UInt8.ofNat c.toNat)

def showInt (z : ℤ) : Text := if z < 0 then 45 :: showNat z.natAbs else showNat z.natAbs

/-- `"%u.%u.%u.%u/%d"`, the form in which addresses and networks are written. -/
def showQuad (ip : BitVec 32) (len : ℕ) : Text :=
  showNat ((ip >>> 24) &&& 0xFF).toNat ++ 46 :: showNat ((ip >>> 16) &&& 0xFF).toNat ++
    46 :: showNat ((ip >>> 8) &&& 0xFF).toNat ++ 46 :: showNat (ip &&& 0xFF).toNat ++
    47 :: showNat len

end Scan

end Libobject
