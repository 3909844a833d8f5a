import Mathlib.Data.List.Basic
import Libobject.Lib.Bytes
import Libobject.Lib.Scan

/-!
# Blob attributes

An attribute is its type, its length, the length of its name and then the name, with a NUL, and
the value. A table of attributes is parsed into an array of pointers, one for each name of the
policy; the pointers go into the buffer that holds the message.
-/

namespace Libobject.Blob

open Scan

structure Attr where
  type : UInt8
  name : Text
  value : List UInt8
  deriving DecidableEq

def Attr.len (a : Attr) : ℕ := 5 + (a.name.length + 1) + a.value.length

/-- The bytes that `blob_add` appends. -/
def Attr.bytes (a : Attr) : List UInt8 :=
  a.type :: beBytes 2 a.len ++ (beBytes 2 (a.name.length + 1) ++ (a.name ++ 0 :: a.value))

structure Attr.Valid (a : Attr) : Prop where
  name_ne : 0 ∉ a.name
  len_lt : a.len < 65536

def getLen (attr : List UInt8) : ℕ := beNat (field attr 1 2)

def getNameLen (attr : List UInt8) : ℕ := beNat (field attr 3 2)

def getName (attr : List UInt8) : Text := cString (attr.drop 5)

def getData (attr : List UInt8) : List UInt8 := attr.drop (5 + getNameLen attr)

/-- The offset of the data is cut to one byte and the difference to 32 bits. -/
def getDataLen (attr : List UInt8) : ℕ :=
  (getLen attr + 2 ^ 32 - (5 + getNameLen attr) % 256) % 2 ^ 32

/-- What a place of the array points to: nothing, an attribute of the message that was parsed
last, or bytes that are no longer, or never were, an attribute. -/
inductive Slot
  | absent
  | dangling
  | present (attr : List UInt8)
  deriving DecidableEq

/-- The slot once other bytes were read into the buffer. -/
def Slot.stale : Slot → Slot
  | .present _ => .dangling
  | s => s

variable {α : Type*} (names : α → Text)

/-- Every name that is a prefix of the attribute's name takes the attribute. -/
def setAttr (tb : α → Slot) (pos : List UInt8) : α → Slot := fun a ↦
  if (names a).isPrefixOf (pos.drop 5) then .present (pos.take (getLen pos)) else tb a

/-- `none` where the walk does not end or leaves the message. -/
def parseToAttr : ℕ → (α → Slot) → List UInt8 → ℕ → Option (α → Slot)
  | 0, _, _, _ => none
  | fuel + 1, tb, pos, len =>
    if len = 0 then some tb
    else if 0 ∉ pos.drop 5 ∨ getLen pos = 0 then none
    else parseToAttr fuel (setAttr names tb pos) (pos.drop (getLen pos)) (len - getLen pos)

/-! ## Attributes as they are written -/

variable {a : Attr}

@[simp] theorem Attr.length_bytes (a : Attr) : a.bytes.length = a.len := by
  simp [Attr.bytes, Attr.len]
  omega

theorem Attr.Valid.getLen (h : a.Valid) (rest : List UInt8) :
    getLen (a.bytes ++ rest) = a.len := by
  have hfield : field (a.bytes ++ rest) 1 2 = beBytes 2 a.len := by
    simpa [Attr.bytes] using field_append_right [a.type] rfl (beBytes 2 a.len)
      (beBytes 2 (a.name.length + 1) ++ (a.name ++ 0 :: a.value) ++ rest)
  rw [Blob.getLen, hfield, beNat_beBytes]
  exact Nat.mod_eq_of_lt h.len_lt

theorem Attr.Valid.getNameLen (h : a.Valid) (rest : List UInt8) :
    getNameLen (a.bytes ++ rest) = a.name.length + 1 := by
  have hlen := h.len_lt
  have hfield : field (a.bytes ++ rest) 3 2 = beBytes 2 (a.name.length + 1) := by
    simpa [Attr.bytes] using field_append_right (a.type :: beBytes 2 a.len) (i := 3)
      (by simp) (beBytes 2 (a.name.length + 1)) (a.name ++ 0 :: a.value ++ rest)
  rw [Attr.len] at hlen
  rw [Blob.getNameLen, hfield, beNat_beBytes]
  exact Nat.mod_eq_of_lt (by omega)

theorem Attr.drop_bytes (a : Attr) (rest : List UInt8) :
    (a.bytes ++ rest).drop 5 = a.name ++ 0 :: (a.value ++ rest) := by
  have hpre : (a.type :: beBytes 2 a.len ++ beBytes 2 (a.name.length + 1)).length = 5 := by simp
  have hsplit : a.bytes ++ rest = (a.type :: beBytes 2 a.len ++ beBytes 2 (a.name.length + 1)) ++
      (a.name ++ 0 :: (a.value ++ rest)) := by simp [Attr.bytes]
  rw [hsplit, ← hpre, List.drop_left]

theorem Attr.Valid.getName (h : a.Valid) : getName a.bytes = a.name := by
  have hdrop := a.drop_bytes []
  rw [List.append_nil] at hdrop
  rw [Blob.getName, hdrop, cString_append h.name_ne]

theorem Attr.Valid.getData (h : a.Valid) : getData a.bytes = a.value := by
  have hname := h.getNameLen []
  have hdrop := a.drop_bytes []
  rw [List.append_nil] at hname hdrop
  rw [Blob.getData, hname, ← List.drop_drop, hdrop, List.append_nil, ← List.singleton_append,
    ← List.append_assoc]
  exact List.drop_left' (by simp)

theorem Attr.Valid.getDataLen (h : a.Valid) (hname_lt : 5 + (a.name.length + 1) < 256) :
    getDataLen a.bytes = a.value.length := by
  have hlen := h.getLen []
  have hname := h.getNameLen []
  have hlen_lt := h.len_lt
  rw [List.append_nil] at hlen hname
  rw [Attr.len] at hlen hlen_lt
  rw [Blob.getDataLen, hname, hlen, Nat.mod_eq_of_lt hname_lt]
  omega

theorem length_le_flatMap (attrs : List Attr) :
    attrs.length ≤ (attrs.flatMap Attr.bytes).length := by
  induction attrs with
  | nil => exact Nat.le_refl 0
  | cons x xs ih =>
    rw [List.flatMap_cons, List.length_append, x.length_bytes, Attr.len, List.length_cons]
    omega

theorem isPrefixOf_append {n s : Text} (hn : 0 ∉ n) (rest : List UInt8) :
    n.isPrefixOf (s ++ 0 :: rest) = n.isPrefixOf s := by
  induction n generalizing s with
  | nil => rfl
  | cons c n ih =>
    rw [List.mem_cons, not_or] at hn
    cases s with
    | nil => simp [List.isPrefixOf, show c ≠ 0 from fun hc ↦ hn.1 hc.symm]
    | cons d s => simp only [List.cons_append, List.isPrefixOf, ih hn.2]

/-! ## Parsing a table -/

/-- The last attribute that the name `n` takes. -/
def lastMatch (n : Text) (attrs : List Attr) : Option Attr :=
  attrs.reverse.find? (fun x ↦ n.isPrefixOf x.name)

/-- The last attribute of the name `n`. -/
def lastNamed (n : Text) (attrs : List Attr) : Option Attr :=
  attrs.reverse.find? (fun x ↦ x.name = n)

/-- What the array holds after the attributes were parsed. -/
def parsed (tb : α → Slot) (attrs : List Attr) : α → Slot := fun a ↦
  match lastMatch (names a) attrs with
  | some x => .present x.bytes
  | none => tb a

variable {names}

theorem setAttr_bytes (hnames : ∀ a, 0 ∉ names a) {x : Attr} (hx : x.Valid) (tb : α → Slot)
    (rest : List UInt8) : setAttr names tb (x.bytes ++ rest) = parsed names tb [x] := by
  funext a
  rw [setAttr, x.drop_bytes, isPrefixOf_append (hnames a), hx.getLen, ← x.length_bytes,
    List.take_left, parsed, lastMatch, List.reverse_singleton, List.find?_singleton]
  split <;> simp

theorem parsed_append (tb : α → Slot) (xs ys : List Attr) :
    parsed names (parsed names tb xs) ys = parsed names tb (xs ++ ys) := by
  funext a
  simp only [parsed, lastMatch, List.reverse_append, List.find?_append]
  cases ys.reverse.find? (fun x ↦ (names a).isPrefixOf x.name) <;> rfl

theorem parseToAttr_eq (hnames : ∀ a, 0 ∉ names a) {attrs : List Attr}
    (hattrs : ∀ x ∈ attrs, x.Valid) {fuel : ℕ} (hfuel : attrs.length < fuel) (tb : α → Slot) :
    parseToAttr names fuel tb (attrs.flatMap Attr.bytes) (attrs.flatMap Attr.bytes).length =
      some (parsed names tb attrs) := by
  induction attrs generalizing fuel tb with
  | nil =>
    obtain ⟨fuel, rfl⟩ := Nat.exists_eq_succ_of_ne_zero (Nat.ne_zero_of_lt hfuel)
    rfl
  | cons x xs ih =>
    obtain ⟨fuel, rfl⟩ := Nat.exists_eq_succ_of_ne_zero (Nat.ne_zero_of_lt hfuel)
    have hx := hattrs x List.mem_cons_self
    have hpos : 0 < x.len := by
      rw [Attr.len]
      omega
    rw [List.flatMap_cons, parseToAttr, List.length_append, x.length_bytes, if_neg (by omega),
      if_neg, setAttr_bytes hnames hx, hx.getLen, ← x.length_bytes, List.drop_left,
      Nat.add_sub_cancel_left, ih (fun y hy ↦ hattrs y (List.mem_cons_of_mem x hy)),
      parsed_append, List.singleton_append]
    · simpa using hfuel
    · rw [x.drop_bytes, hx.getLen, not_or]
      exact ⟨by simp, hpos.ne'⟩

end Libobject.Blob
