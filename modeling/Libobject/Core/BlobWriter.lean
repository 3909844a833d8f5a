import Libobject.Core.Blob
import Libobject.Lib.Buffer

/-!
# Building a blob

Attributes are appended behind the tail of a buffer of fixed size. A table is an attribute whose
start is kept on a stack and whose length is set when it ends. None of the functions tests whether
the buffer has room; a write behind its end is undefined.
-/

namespace Libobject.Blob

open Scan

def BLOB_MAX_SIZE : ℕ := 1024 * 10

@[match_pattern] def BLOB_TYPE_TABLE : UInt8 := 2

@[match_pattern] def BLOB_TYPE_STRING : UInt8 := 3

@[match_pattern] def BLOB_TYPE_BUFFER : UInt8 := 4

@[match_pattern] def BLOB_TYPE_UINT64 : UInt8 := 5

@[match_pattern] def BLOB_TYPE_UINT32 : UInt8 := 6

@[match_pattern] def BLOB_TYPE_UINT16 : UInt8 := 7

@[match_pattern] def BLOB_TYPE_UINT8 : UInt8 := 8

@[match_pattern] def BLOB_TYPE_INT32 : UInt8 := 9

/-- `blob_t`; the stack holds the places where the open tables start. -/
structure Writer where
  head : List UInt8
  tail : ℕ
  tbl_stack : List ℕ
  deriving DecidableEq

/-- `array_stack_push` on the 100 bytes of the stack; when it is full nothing is pushed, and no
caller looks at what is returned. -/
def array_stack_push (stack : List ℕ) (start : ℕ) : List ℕ :=
  if 8 * stack.length + 8 < 100 then start :: stack else stack

namespace Writer

/-- `blob_create` and `blob_init`. -/
def init : Writer := ⟨List.replicate BLOB_MAX_SIZE 0, 0, []⟩

/-- `blob_add`: the name goes in with its terminating zero, and every length is kept in 16 bits. -/
def add (b : Writer) (type : UInt8) (name : Text) (value : List UInt8) : Option Writer :=
  let name_len := (name.length + 1) % 2 ^ 16
  let value_len := value.length % 2 ^ 16
  let attr_len := (5 + name_len + value_len) % 2 ^ 16
  (Buffer.put b.head b.tail (type :: beBytes 2 attr_len ++ (beBytes 2 name_len ++
    ((name ++ [0]).take name_len ++ value.take value_len)))).map
      fun head ↦ { b with head := head, tail := b.tail + attr_len }

def add_uint8 (b : Writer) (name : Text) (val : UInt8) : Option Writer :=
  b.add BLOB_TYPE_UINT8 name [val]

def add_uint16 (b : Writer) (name : Text) (val : UInt16) : Option Writer :=
  b.add BLOB_TYPE_UINT16 name (beBytes 2 val.toNat)

def add_uint32 (b : Writer) (name : Text) (val : UInt32) : Option Writer :=
  b.add BLOB_TYPE_UINT32 name (beBytes 4 val.toNat)

def add_uint64 (b : Writer) (name : Text) (val : UInt64) : Option Writer :=
  b.add BLOB_TYPE_UINT64 name (beBytes 8 val.toNat)

def add_int32 (b : Writer) (name : Text) (val : Int32) : Option Writer :=
  b.add BLOB_TYPE_INT32 name (beBytes 4 val.toUInt32.toNat)

def add_string (b : Writer) (name : Text) (str : Text) : Option Writer :=
  b.add BLOB_TYPE_STRING name (str ++ [0])

def add_buffer (b : Writer) (name : Text) (buf : List UInt8) : Option Writer :=
  b.add BLOB_TYPE_BUFFER name buf

def add_table_start (b : Writer) (name : Text) : Option Writer :=
  { b with tbl_stack := array_stack_push b.tbl_stack b.tail }.add BLOB_TYPE_TABLE name []

/-- With nothing on the stack the length is written through a null pointer. -/
def add_table_end (b : Writer) : Option Writer :=
  match b.tbl_stack with
  | [] => none
  | start :: stack =>
    (Buffer.put b.head (start + 1) (beBytes 2 ((b.tail - start) % 2 ^ 16))).map
      fun head ↦ ⟨head, b.tail, stack⟩

end Writer

/-! ## The typed getters -/

def getUint8 (attr : List UInt8) : UInt8 := UInt8.ofNat (beNat (field (getData attr) 0 1))

def getUint16 (attr : List UInt8) : UInt16 := UInt16.ofNat (beNat (field (getData attr) 0 2))

def getUint32 (attr : List UInt8) : UInt32 := UInt32.ofNat (beNat (field (getData attr) 0 4))

def getUint64 (attr : List UInt8) : UInt64 := UInt64.ofNat (beNat (field (getData attr) 0 8))

def getInt32 (attr : List UInt8) : Int32 :=
  (UInt32.ofNat (beNat (field (getData attr) 0 4))).toInt32

def getString (attr : List UInt8) : Text := cString (getData attr)

/-- The bytes that `out` points to, as many as are returned. -/
def getBuffer (attr : List UInt8) : List UInt8 := (getData attr).take (getDataLen attr)

/-! ## Trees of attributes -/

/-- The value of an attribute that is no table. A string has no zero inside. -/
inductive Value
  | uint8 (val : UInt8)
  | uint16 (val : UInt16)
  | uint32 (val : UInt32)
  | uint64 (val : UInt64)
  | int32 (val : Int32)
  | string (str : { s : Text // 0 ∉ s })
  | buffer (buf : List UInt8)
  deriving DecidableEq

namespace Value

def type : Value → UInt8
  | uint8 _ => BLOB_TYPE_UINT8
  | uint16 _ => BLOB_TYPE_UINT16
  | uint32 _ => BLOB_TYPE_UINT32
  | uint64 _ => BLOB_TYPE_UINT64
  | int32 _ => BLOB_TYPE_INT32
  | string _ => BLOB_TYPE_STRING
  | buffer _ => BLOB_TYPE_BUFFER

def bytes : Value → List UInt8
  | uint8 val => [val]
  | uint16 val => beBytes 2 val.toNat
  | uint32 val => beBytes 4 val.toNat
  | uint64 val => beBytes 8 val.toNat
  | int32 val => beBytes 4 val.toUInt32.toNat
  | string str => str.val ++ [0]
  | buffer buf => buf

/-- The typed add function. -/
def addTo (name : Text) (b : Writer) : Value → Option Writer
  | uint8 val => b.add_uint8 name val
  | uint16 val => b.add_uint16 name val
  | uint32 val => b.add_uint32 name val
  | uint64 val => b.add_uint64 name val
  | int32 val => b.add_int32 name val
  | string str => b.add_string name str.val
  | buffer buf => b.add_buffer name buf

theorem addTo_eq (name : Text) (b : Writer) (v : Value) :
    v.addTo name b = b.add v.type name v.bytes := by
  cases v <;> rfl

/-- The typed getter for the type that stands in the attribute; `none` where it reads behind the
end of the memory, or where the type has no getter. -/
def get (attr : List UInt8) : Option Value :=
  match attr.head? with
  | some BLOB_TYPE_UINT8 =>
    if 1 ≤ (getData attr).length then some (.uint8 (getUint8 attr)) else none
  | some BLOB_TYPE_UINT16 =>
    if 2 ≤ (getData attr).length then some (.uint16 (getUint16 attr)) else none
  | some BLOB_TYPE_UINT32 =>
    if 4 ≤ (getData attr).length then some (.uint32 (getUint32 attr)) else none
  | some BLOB_TYPE_UINT64 =>
    if 8 ≤ (getData attr).length then some (.uint64 (getUint64 attr)) else none
  | some BLOB_TYPE_INT32 =>
    if 4 ≤ (getData attr).length then some (.int32 (getInt32 attr)) else none
  | some BLOB_TYPE_STRING =>
    if 0 ∈ getData attr then some (.string ⟨getString attr, notMem_cString _⟩) else none
  | some BLOB_TYPE_BUFFER =>
    if getDataLen attr ≤ (getData attr).length then some (.buffer (getBuffer attr)) else none
  | _ => none

end Value

end Libobject.Blob
