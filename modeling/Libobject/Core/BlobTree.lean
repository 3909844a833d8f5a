import Libobject.Core.BlobWriter

/-!
# Trees in blobs

A tree of named attributes is built with the typed add functions and read back by walking the blob.
The walk gives the tree again exactly if the attributes fit in the buffer, no name is so long that
the offset of the data does not fit in a byte, and the tables are not nested deeper than the stack.
-/

namespace Libobject.Blob

open Scan

/-- A C string. -/
abbrev CText := { s : Text // 0 ∉ s }

/-- The attributes of a table, or of the whole blob, in their order. -/
inductive Forest
  | nil
  | leaf (name : CText) (val : Value) (rest : Forest)
  | table (name : CText) (children rest : Forest)
  deriving DecidableEq

/-- What a walk yields: every attribute with the length of its data. -/
inductive Seen
  | nil
  | leaf (name : Text) (len : ℕ) (val : Value) (rest : Seen)
  | table (name : Text) (len : ℕ) (children rest : Seen)
  deriving DecidableEq

namespace Forest

/-- The tree is added attribute by attribute. -/
def build : Forest → Writer → Option Writer
  | nil, b => some b
  | leaf name val rest, b => do
    let b ← val.addTo name.val b
    rest.build b
  | table name children rest, b => do
    let b ← b.add_table_start name.val
    let b ← children.build b
    let b ← b.add_table_end
    rest.build b

/-- The bytes that stand for the tree. -/
def bytes : Forest → List UInt8
  | nil => []
  | leaf name val rest => (Attr.mk val.type name.val val.bytes).bytes ++ rest.bytes
  | table name children rest =>
    (Attr.mk BLOB_TYPE_TABLE name.val children.bytes).bytes ++ rest.bytes

/-- The tree as a walk should yield it. -/
def seen : Forest → Seen
  | nil => .nil
  | leaf name val rest => .leaf name.val val.bytes.length val rest.seen
  | table name children rest => .table name.val children.bytes.length children.seen rest.seen

/-- How deep the tables are nested. -/
def depth : Forest → ℕ
  | nil => 0
  | leaf _ _ rest => rest.depth
  | table _ children rest => max (children.depth + 1) rest.depth

/-- The data of every attribute starts before its byte 256. -/
def NamesFit : Forest → Prop
  | nil => True
  | leaf name _ rest => 5 + (name.val.length + 1) < 256 ∧ rest.NamesFit
  | table name children rest =>
    5 + (name.val.length + 1) < 256 ∧ children.NamesFit ∧ rest.NamesFit

instance decidableNamesFit : ∀ t : Forest, Decidable t.NamesFit
  | nil => inferInstanceAs (Decidable True)
  | leaf _ _ rest =>
    have := decidableNamesFit rest
    inferInstanceAs (Decidable (_ ∧ rest.NamesFit))
  | table _ children rest =>
    have := decidableNamesFit children
    have := decidableNamesFit rest
    inferInstanceAs (Decidable (_ ∧ children.NamesFit ∧ rest.NamesFit))

end Forest

/-- `blob_for_each_attr` from the place `pos` up to `stop`, with the typed getters; a table is
walked from its data on, as far as `blob_get_data_len` says. `none` where the walk leaves the
memory or does not end: every attribute takes a byte at least, so that the memory's length is fuel
enough for any other walk. -/
def walk (mem : List UInt8) : ℕ → ℕ → ℕ → Option Seen
  | 0, _, _ => none
  | fuel + 1, pos, stop =>
    if stop ≤ pos then some .nil
    else
      let attr := mem.drop pos
      if attr.length < 5 ∨ 0 ∉ attr.drop 5 then none
      else
        let name := getName attr
        let len := getDataLen attr
        if attr.head? = some BLOB_TYPE_TABLE then do
          let data := pos + (5 + getNameLen attr)
          let children ← walk mem fuel data (data + len)
          let rest ← walk mem fuel (pos + getLen attr) stop
          return .table name len children rest
        else do
          let val ← Value.get attr
          let rest ← walk mem fuel (pos + getLen attr) stop
          return .leaf name len val rest

/-- The walk over a finished blob. -/
def Writer.read (b : Writer) : Option Seen := walk b.head (b.head.length + 1) 0 b.tail

/-- The blob that was built from the tree yields the tree. -/
def ReadsBack (t : Forest) : Prop := (t.build .init).bind Writer.read = some t.seen

instance (t : Forest) : Decidable (ReadsBack t) := inferInstanceAs (Decidable (_ = _))

/-- The tree fits in the buffer, its data can be found and its tables go on the stack. -/
def Forest.Fits (t : Forest) : Prop :=
  t.bytes.length ≤ BLOB_MAX_SIZE ∧ t.NamesFit ∧ t.depth ≤ 12

/-! ## Writing an attribute -/

theorem array_stack_push_of_lt {stack : List ℕ} (h : stack.length < 12) (start : ℕ) :
    array_stack_push stack start = start :: stack := if_pos (by omega)

theorem array_stack_push_of_ge {stack : List ℕ} (h : 12 ≤ stack.length) (start : ℕ) :
    array_stack_push stack start = stack := if_neg (by omega)

namespace Writer

variable {b b' : Writer} {type : UInt8} {name : Text} {value : List UInt8}

theorem tbl_stack_add (h : b.add type name value = some b') : b'.tbl_stack = b.tbl_stack := by
  obtain ⟨head, -, rfl⟩ := Option.map_eq_some_iff.mp h
  rfl

theorem length_head_add (h : b.add type name value = some b') :
    b'.head.length = b.head.length := by
  obtain ⟨head, hput, rfl⟩ := Option.map_eq_some_iff.mp h
  exact Buffer.length_put hput

theorem add_layout (type : UInt8) (name : Text) (value pre post : List UInt8) (stack : List ℕ)
    (hroom : (Attr.mk type name value).len ≤ post.length)
    (hlen : (Attr.mk type name value).len < 2 ^ 16) :
    add ⟨pre ++ post, pre.length, stack⟩ type name value =
      some ⟨pre ++ ((Attr.mk type name value).bytes ++ post.drop (Attr.mk type name value).len),
        pre.length + (Attr.mk type name value).len, stack⟩ := by
  have hsum : 5 + (name.length + 1) + value.length < 2 ^ 16 := hlen
  have hname : (name.length + 1) % 2 ^ 16 = name.length + 1 := Nat.mod_eq_of_lt (by omega)
  have hvalue : value.length % 2 ^ 16 = value.length := Nat.mod_eq_of_lt (by omega)
  have hattr : (5 + (name.length + 1) + value.length) % 2 ^ 16 = (Attr.mk type name value).len :=
    Nat.mod_eq_of_lt hsum
  have htake : (name ++ [0]).take (name.length + 1) = name ++ [0] :=
    List.take_of_length_le (by simp)
  have hbytes : type :: beBytes 2 (Attr.mk type name value).len ++ (beBytes 2 (name.length + 1) ++
      (name ++ [0] ++ value)) = (Attr.mk type name value).bytes := by
    simp [Attr.bytes]
  have hput := Buffer.put_append pre post (Attr.mk type name value).bytes
    (by rwa [Attr.length_bytes])
  rw [Attr.length_bytes, List.append_assoc] at hput
  simp only [add, hname, hvalue, hattr, htake, List.take_length, hbytes, hput, Option.map_some]

theorem tail_add (h : b.add type name value = some b') (hmax : b.head.length ≤ BLOB_MAX_SIZE)
    (hname : name.length + 1 < 2 ^ 16) (hvalue : value.length < 2 ^ 16) :
    b'.tail = b.tail + (Attr.mk type name value).len ∧ b'.tail ≤ b'.head.length := by
  have hlength := length_head_add h
  obtain ⟨head, hput, rfl⟩ := Option.map_eq_some_iff.mp h
  have hfit := Buffer.put_isSome.mp (Option.isSome_of_eq_some hput)
  rw [Nat.mod_eq_of_lt hname, Nat.mod_eq_of_lt hvalue,
    List.take_of_length_le (i := name.length + 1) (by simp), List.take_length] at hfit
  simp only [List.length_cons, List.length_append, length_beBytes, List.length_nil] at hfit
  have hsum : 5 + (name.length + 1) + value.length < 2 ^ 16 := by
    rw [BLOB_MAX_SIZE] at hmax
    omega
  simp only [Nat.mod_eq_of_lt hname, Nat.mod_eq_of_lt hvalue, Nat.mod_eq_of_lt hsum, Attr.len]
  refine ⟨trivial, ?_⟩
  have hlength : head.length = b.head.length := hlength
  omega

theorem add_table_end_eq (h : b.add_table_end = some b') :
    ∃ start head, b.tbl_stack = start :: b'.tbl_stack ∧
      Buffer.put b.head (start + 1) (beBytes 2 ((b.tail - start) % 2 ^ 16)) = some head ∧
        b'.head = head ∧ b'.tail = b.tail := by
  unfold add_table_end at h
  split at h
  · cases h
  · next start stack hstack =>
      obtain ⟨head, hput, rfl⟩ := Option.map_eq_some_iff.mp h
      exact ⟨start, head, hstack, hput, rfl, rfl⟩

theorem tail_add_table_end (h : b.add_table_end = some b') : b'.tail = b.tail := by
  obtain ⟨-, -, -, -, -, htail⟩ := add_table_end_eq h
  exact htail

theorem tbl_stack_add_table_end (h : b.add_table_end = some b') :
    b.tbl_stack.length = b'.tbl_stack.length + 1 := by
  obtain ⟨start, -, hstack, -⟩ := add_table_end_eq h
  exact congrArg List.length hstack

theorem length_head_add_table_end (h : b.add_table_end = some b') :
    b'.head.length = b.head.length := by
  obtain ⟨start, head, -, hput, rfl, -⟩ := add_table_end_eq h
  exact Buffer.length_put hput

end Writer

/-! ## Reading an attribute -/

namespace Attr

variable {a : Attr} (rest : List UInt8)

theorem head_bytes (a : Attr) : (a.bytes ++ rest).head? = some a.type := rfl

theorem Valid.getName_append (h : a.Valid) : Blob.getName (a.bytes ++ rest) = a.name := by
  rw [Blob.getName, a.drop_bytes, cString_append h.name_ne]

theorem Valid.getData_append (h : a.Valid) : Blob.getData (a.bytes ++ rest) = a.value ++ rest := by
  have hzero : a.name ++ 0 :: (a.value ++ rest) = (a.name ++ [0]) ++ (a.value ++ rest) := by simp
  rw [Blob.getData, h.getNameLen, ← List.drop_drop, a.drop_bytes, hzero]
  exact List.drop_left' (by simp)

theorem Valid.getDataLen_append (h : a.Valid) :
    Blob.getDataLen (a.bytes ++ rest) + (5 + (a.name.length + 1)) % 256 = a.len := by
  have hlen := h.len_lt
  rw [Blob.getDataLen, h.getLen, h.getNameLen]
  rw [Attr.len] at hlen ⊢
  omega

theorem Valid.getDataLen_iff (h : a.Valid) :
    Blob.getDataLen (a.bytes ++ rest) = a.value.length ↔ 5 + (a.name.length + 1) < 256 := by
  have hlen := h.getDataLen_append rest
  rw [Attr.len] at hlen
  omega

end Attr

theorem beNat_data {n w : ℕ} (h : n < 256 ^ w) (rest : List UInt8) :
    beNat (field (beBytes w n ++ rest) 0 w) = n := by
  have hfield : field (beBytes w n ++ rest) 0 w = beBytes w n := by
    rw [field, List.drop_zero, List.take_left' (length_beBytes w n)]
  rw [hfield, beNat_beBytes, Nat.mod_eq_of_lt h]

theorem Value.get_of_data {attr rest : List UInt8} {v : Value} (hhead : attr.head? = some v.type)
    (hdata : getData attr = v.bytes ++ rest) (hlen : getDataLen attr = v.bytes.length) :
    Value.get attr = some v := by
  have hbound : v.bytes.length ≤ (getData attr).length := by
    rw [hdata, List.length_append]
    exact Nat.le_add_right _ _
  rw [Value.get, hhead]
  cases v with
  | uint8 val =>
    have hval : getUint8 attr = val := by
      rw [getUint8, hdata]
      exact UInt8.ofNat_toNat
    exact (if_pos hbound).trans (congrArg (fun x ↦ some (Value.uint8 x)) hval)
  | uint16 val =>
    have hlt : val.toNat < 256 ^ 2 := by
      have := val.toNat_lt
      omega
    have hval : getUint16 attr = val := by
      rw [getUint16, hdata, Value.bytes, beNat_data hlt, UInt16.ofNat_toNat]
    rw [Value.bytes, length_beBytes] at hbound
    exact (if_pos hbound).trans (congrArg (fun x ↦ some (Value.uint16 x)) hval)
  | uint32 val =>
    have hlt : val.toNat < 256 ^ 4 := by
      have := val.toNat_lt
      omega
    have hval : getUint32 attr = val := by
      rw [getUint32, hdata, Value.bytes, beNat_data hlt, UInt32.ofNat_toNat]
    rw [Value.bytes, length_beBytes] at hbound
    exact (if_pos hbound).trans (congrArg (fun x ↦ some (Value.uint32 x)) hval)
  | uint64 val =>
    have hlt : val.toNat < 256 ^ 8 := by
      have := val.toNat_lt
      omega
    have hval : getUint64 attr = val := by
      rw [getUint64, hdata, Value.bytes, beNat_data hlt, UInt64.ofNat_toNat]
    rw [Value.bytes, length_beBytes] at hbound
    exact (if_pos hbound).trans (congrArg (fun x ↦ some (Value.uint64 x)) hval)
  | int32 val =>
    have hlt : val.toUInt32.toNat < 256 ^ 4 := by
      have := val.toUInt32.toNat_lt
      omega
    have hval : getInt32 attr = val := by
      rw [getInt32, hdata, Value.bytes, beNat_data hlt, UInt32.ofNat_toNat]
      rfl
    rw [Value.bytes, length_beBytes] at hbound
    exact (if_pos hbound).trans (congrArg (fun x ↦ some (Value.int32 x)) hval)
  | string str =>
    have hzero : 0 ∈ getData attr := by
      rw [hdata, Value.bytes]
      simp
    have hval : getString attr = str.val := by
      rw [getString, hdata, Value.bytes, List.append_assoc]
      exact cString_append str.2 rest
    exact (if_pos hzero).trans (congrArg (fun x ↦ some (Value.string x)) (Subtype.ext hval))
  | buffer buf =>
    have hval : getBuffer attr = buf := by
      rw [getBuffer, hlen, hdata, Value.bytes, List.take_left]
    have hle : getDataLen attr ≤ (getData attr).length := hlen ▸ hbound
    rw [if_pos hle, hval]
    rfl

theorem Value.type_ne (v : Value) : v.type ≠ BLOB_TYPE_TABLE := by
  cases v <;> (simp only [type]; decide)

theorem Value.get_bytes {name : Text} {v : Value} (h : (Attr.mk v.type name v.bytes).Valid)
    (hname : 5 + (name.length + 1) < 256) (rest : List UInt8) :
    Value.get ((Attr.mk v.type name v.bytes).bytes ++ rest) = some v :=
  Value.get_of_data (Attr.head_bytes rest _) (h.getData_append rest)
    ((h.getDataLen_iff rest).mpr hname)

/-! ## What a walk has gone through -/

variable {mem : List UInt8} {fuel pos stop len : ℕ} {name : Text} {rest : Seen}

theorem walk_leaf {val : Value} (h : walk mem fuel pos stop = some (.leaf name len val rest)) :
    ∃ fuel', fuel = fuel' + 1 ∧ 5 ≤ (mem.drop pos).length ∧ 0 ∈ (mem.drop pos).drop 5 ∧
      name = getName (mem.drop pos) ∧ len = getDataLen (mem.drop pos) ∧
        Value.get (mem.drop pos) = some val ∧
          walk mem fuel' (pos + getLen (mem.drop pos)) stop = some rest := by
  cases fuel with
  | zero => cases h
  | succ fuel =>
    simp only [walk] at h
    split at h
    · cases h
    · split at h
      · cases h
      · next hmem =>
          rw [not_or, not_lt, not_not] at hmem
          split at h
          · simp [Option.bind_eq_some_iff] at h
          · simp only [Option.bind_eq_bind, Option.bind_eq_some_iff, Option.pure_def,
              Option.some.injEq, Seen.leaf.injEq] at h
            obtain ⟨val', hval, rest', hrest, rfl, rfl, rfl, rfl⟩ := h
            exact ⟨fuel, rfl, hmem.1, hmem.2, rfl, rfl, hval, hrest⟩

theorem walk_table {children : Seen}
    (h : walk mem fuel pos stop = some (.table name len children rest)) :
    ∃ fuel', fuel = fuel' + 1 ∧ 5 ≤ (mem.drop pos).length ∧ 0 ∈ (mem.drop pos).drop 5 ∧
      name = getName (mem.drop pos) ∧ len = getDataLen (mem.drop pos) ∧
        walk mem fuel' (pos + (5 + getNameLen (mem.drop pos)))
          (pos + (5 + getNameLen (mem.drop pos)) + len) = some children ∧
          walk mem fuel' (pos + getLen (mem.drop pos)) stop = some rest := by
  cases fuel with
  | zero => cases h
  | succ fuel =>
    simp only [walk] at h
    split at h
    · cases h
    · split at h
      · cases h
      · next hmem =>
          rw [not_or, not_lt, not_not] at hmem
          split at h
          · simp only [Option.bind_eq_bind, Option.bind_eq_some_iff, Option.pure_def,
              Option.some.injEq, Seen.table.injEq] at h
            obtain ⟨children', hchildren, rest', hrest, rfl, rfl, rfl, rfl⟩ := h
            exact ⟨fuel, rfl, hmem.1, hmem.2, rfl, rfl, hchildren, hrest⟩
          · simp [Option.bind_eq_some_iff] at h

theorem walk_of_le (h : stop ≤ pos) : walk mem (fuel + 1) pos stop = some .nil := if_pos h

section Attribute

variable {a : Attr} {more : List UInt8}

theorem drop_attr (hmem : mem.drop pos = a.bytes ++ more) : mem.drop (pos + a.len) = more := by
  rw [← List.drop_drop, hmem, ← a.length_bytes, List.drop_left]

theorem Attr.Valid.drop_data (ha : a.Valid) (hmem : mem.drop pos = a.bytes ++ more) :
    mem.drop (pos + (5 + (a.name.length + 1))) = a.value ++ more := by
  have hdata := ha.getData_append more
  rw [Blob.getData, ha.getNameLen] at hdata
  rw [← List.drop_drop, hmem, hdata]

theorem Attr.Valid.len_pos (_ : a.Valid) : 0 < a.len := by
  rw [Attr.len]
  omega

theorem Attr.Valid.walk_eq (ha : a.Valid) (hmem : mem.drop pos = a.bytes ++ more)
    (hstop : pos < stop) :
    walk mem (fuel + 1) pos stop =
      if a.type = BLOB_TYPE_TABLE then do
        let children ← walk mem fuel (pos + (5 + (a.name.length + 1)))
          (pos + (5 + (a.name.length + 1)) + Blob.getDataLen (a.bytes ++ more))
        let rest ← walk mem fuel (pos + a.len) stop
        return .table a.name (Blob.getDataLen (a.bytes ++ more)) children rest
      else do
        let val ← Value.get (mem.drop pos)
        let rest ← walk mem fuel (pos + a.len) stop
        return .leaf a.name (Blob.getDataLen (a.bytes ++ more)) val rest := by
  have hroom : ¬ ((a.bytes ++ more).length < 5 ∨ 0 ∉ (a.bytes ++ more).drop 5) := by
    rw [a.drop_bytes, List.length_append, a.length_bytes, Attr.len, not_or]
    exact ⟨by omega, by simp⟩
  simp only [walk, if_neg hstop.not_ge, hmem, if_neg hroom, ha.getNameLen, ha.getLen,
    ha.getName_append, Attr.head_bytes, Option.some.injEq]

end Attribute

theorem length_cString_lt {buf : List UInt8} (h : 0 ∈ buf) : (cString buf).length < buf.length := by
  have hlen := congrArg List.length
    (List.takeWhile_append_dropWhile (p := fun c : UInt8 ↦ c ≠ 0) (l := buf))
  rw [List.length_append] at hlen
  have hne : buf.dropWhile (fun c ↦ c ≠ 0) ≠ [] := by
    intro hnil
    have hall := List.dropWhile_eq_nil_iff.mp hnil 0 h
    simp at hall
  have hpos := List.length_pos_iff.mpr hne
  rw [cString]
  omega

theorem Value.length_get {attr : List UInt8} {v : Value} (h : Value.get attr = some v) :
    v.bytes.length ≤ attr.length := by
  have hdata : (getData attr).length ≤ attr.length := by
    rw [getData, List.length_drop]
    omega
  rw [Value.get] at h
  split at h
  case h_8 => cases h
  all_goals
    split at h
    · next hbound =>
        obtain rfl := Option.some.inj h
        refine Nat.le_trans ?_ hdata
        first
          | simpa [Value.bytes] using hbound
          | exact (List.length_append).le.trans (length_cString_lt hbound)
          | simp [Value.bytes, getBuffer]
    · cases h

/-! ## Building a tree -/

namespace Writer

variable {name : Text} {data : List UInt8}

theorem add_table_end_layout (name : Text) (data pre post : List UInt8) (stack : List ℕ)
    (hlen : (Attr.mk BLOB_TYPE_TABLE name data).len < 2 ^ 16) :
    add_table_end ⟨pre ++ ((Attr.mk BLOB_TYPE_TABLE name []).bytes ++ (data ++ post)),
        pre.length + (Attr.mk BLOB_TYPE_TABLE name data).len, pre.length :: stack⟩ =
      some ⟨pre ++ ((Attr.mk BLOB_TYPE_TABLE name data).bytes ++ post),
        pre.length + (Attr.mk BLOB_TYPE_TABLE name data).len, stack⟩ := by
  have hsplit : ∀ value rest : List UInt8,
      pre ++ ((Attr.mk BLOB_TYPE_TABLE name value).bytes ++ rest) = (pre ++ [BLOB_TYPE_TABLE]) ++
        (beBytes 2 (Attr.mk BLOB_TYPE_TABLE name value).len ++
          (beBytes 2 (name.length + 1) ++ (name ++ 0 :: (value ++ rest)))) := by
    intro value rest
    simp [Attr.bytes]
  have hstart : (pre ++ [BLOB_TYPE_TABLE]).length = pre.length + 1 := List.length_append
  have hwidth : (beBytes 2 (Attr.mk BLOB_TYPE_TABLE name data).len).length =
      (beBytes 2 (Attr.mk BLOB_TYPE_TABLE name []).len).length := by simp
  have hput := Buffer.put_over hstart hwidth
    (beBytes 2 (name.length + 1) ++ (name ++ 0 :: (data ++ post)))
  simp only [add_table_end, Nat.add_sub_cancel_left, Nat.mod_eq_of_lt hlen, hsplit,
    List.nil_append, hput, Option.map_some]

end Writer

namespace Forest

theorem build_layout (t : Forest) (pre post : List UInt8) (stack : List ℕ)
    (hroom : t.bytes.length ≤ post.length) (hmax : pre.length + post.length ≤ BLOB_MAX_SIZE)
    (hdepth : stack.length + t.depth ≤ 12) :
    t.build ⟨pre ++ post, pre.length, stack⟩ =
      some ⟨pre ++ (t.bytes ++ post.drop t.bytes.length), pre.length + t.bytes.length, stack⟩ := by
  have hsize : BLOB_MAX_SIZE < 2 ^ 16 := by decide
  induction t generalizing pre post stack with
  | nil => simp [build, bytes]
  | leaf name val rest ih =>
    simp only [bytes, List.length_append, Attr.length_bytes] at hroom
    have hadd := Writer.add_layout val.type name.val val.bytes pre post stack (by omega) (by omega)
    have hrest := ih (pre ++ (Attr.mk val.type name.val val.bytes).bytes)
      (post.drop (Attr.mk val.type name.val val.bytes).len) stack
      (by rw [List.length_drop]; omega)
      (by simp only [List.length_append, Attr.length_bytes, List.length_drop]; omega) hdepth
    simp only [List.length_append, Attr.length_bytes, List.append_assoc, List.drop_drop] at hrest
    simp only [build, Value.addTo_eq, hadd, Option.bind_eq_bind, Option.bind_some, hrest, bytes,
      List.length_append, Attr.length_bytes, List.append_assoc, Nat.add_assoc]
  | table name children rest ihc ihr =>
    simp only [bytes, List.length_append, Attr.length_bytes] at hroom
    simp only [depth] at hdepth
    have hlen : (Attr.mk BLOB_TYPE_TABLE name.val children.bytes).len =
        (Attr.mk BLOB_TYPE_TABLE name.val []).len + children.bytes.length := rfl
    have hstart := Writer.add_layout BLOB_TYPE_TABLE name.val [] pre post (pre.length :: stack)
      (by omega) (by omega)
    have hchildren := ihc (pre ++ (Attr.mk BLOB_TYPE_TABLE name.val []).bytes)
      (post.drop (Attr.mk BLOB_TYPE_TABLE name.val []).len) (pre.length :: stack)
      (by rw [List.length_drop]; omega)
      (by simp only [List.length_append, Attr.length_bytes, List.length_drop]; omega)
      (by rw [List.length_cons]; omega)
    simp only [List.length_append, Attr.length_bytes, List.append_assoc, List.drop_drop,
      Nat.add_assoc, ← hlen] at hchildren
    have hend := Writer.add_table_end_layout name.val children.bytes pre
      (post.drop (Attr.mk BLOB_TYPE_TABLE name.val children.bytes).len) stack (by omega)
    have hrest := ihr (pre ++ (Attr.mk BLOB_TYPE_TABLE name.val children.bytes).bytes)
      (post.drop (Attr.mk BLOB_TYPE_TABLE name.val children.bytes).len) stack
      (by rw [List.length_drop]; omega)
      (by simp only [List.length_append, Attr.length_bytes, List.length_drop]; omega)
      (by omega)
    simp only [List.length_append, Attr.length_bytes, List.append_assoc, List.drop_drop] at hrest
    simp only [build, Writer.add_table_start,
      array_stack_push_of_lt (show stack.length < 12 by omega),
      hstart, hchildren, hend, hrest, Option.bind_eq_bind, Option.bind_some, bytes,
      List.length_append, Attr.length_bytes, List.append_assoc, Nat.add_assoc]

theorem stack_build {t : Forest} {b b' : Writer} (h : t.build b = some b')
    (hb : b.tbl_stack.length ≤ 12) :
    b'.tbl_stack.length ≤ b.tbl_stack.length ∧
      (b'.tbl_stack.length = b.tbl_stack.length → b.tbl_stack.length + t.depth ≤ 12) := by
  induction t generalizing b b' with
  | nil =>
    obtain rfl := Option.some.inj h
    exact ⟨le_rfl, fun _ ↦ hb⟩
  | leaf name val rest ih =>
    obtain ⟨b₁, hadd, hrest⟩ := Option.bind_eq_some_iff.mp h
    rw [Value.addTo_eq] at hadd
    have hstack := Writer.tbl_stack_add hadd
    have hih := ih hrest (hstack ▸ hb)
    rwa [hstack] at hih
  | table name children rest ihc ihr =>
    obtain ⟨b₁, hstart, h⟩ := Option.bind_eq_some_iff.mp h
    obtain ⟨b₂, hchildren, h⟩ := Option.bind_eq_some_iff.mp h
    obtain ⟨b₃, hend, hrest⟩ := Option.bind_eq_some_iff.mp h
    have hpush : b₁.tbl_stack = array_stack_push b.tbl_stack b.tail := Writer.tbl_stack_add hstart
    have hpop := Writer.tbl_stack_add_table_end hend
    rcases hb.lt_or_eq with hlt | hfull
    · rw [array_stack_push_of_lt hlt] at hpush
      have hlen : b₁.tbl_stack.length = b.tbl_stack.length + 1 := congrArg List.length hpush
      obtain ⟨hle, heq⟩ := ihc hchildren (by omega)
      obtain ⟨hle', heq'⟩ := ihr hrest (by omega)
      refine ⟨by omega, fun hfinal ↦ ?_⟩
      have hdepth := heq (by omega)
      have hdepth' := heq' (by omega)
      rw [depth]
      omega
    · -- the table that is opened is not on the stack, and its end closes another one
      rw [array_stack_push_of_ge hfull.ge] at hpush
      have hlen : b₁.tbl_stack.length = b.tbl_stack.length := congrArg List.length hpush
      obtain ⟨hle, -⟩ := ihc hchildren (by omega)
      obtain ⟨hle', -⟩ := ihr hrest (by omega)
      exact ⟨by omega, fun hfinal ↦ by omega⟩

/-- The lengths of the names and of the values are kept in 16 bits. -/
def Short : Forest → Prop
  | nil => True
  | leaf name val rest => name.val.length + 1 < 2 ^ 16 ∧ val.bytes.length < 2 ^ 16 ∧ rest.Short
  | table name children rest => name.val.length + 1 < 2 ^ 16 ∧ children.Short ∧ rest.Short

theorem length_head_build {t : Forest} {b b' : Writer} (h : t.build b = some b') :
    b'.head.length = b.head.length := by
  induction t generalizing b b' with
  | nil =>
    obtain rfl := Option.some.inj h
    rfl
  | leaf name val rest ih =>
    obtain ⟨b₁, hadd, hrest⟩ := Option.bind_eq_some_iff.mp h
    rw [Value.addTo_eq] at hadd
    exact (ih hrest).trans (Writer.length_head_add hadd)
  | table name children rest ihc ihr =>
    obtain ⟨b₁, hstart, h⟩ := Option.bind_eq_some_iff.mp h
    obtain ⟨b₂, hchildren, h⟩ := Option.bind_eq_some_iff.mp h
    obtain ⟨b₃, hend, hrest⟩ := Option.bind_eq_some_iff.mp h
    have hlen := (Writer.length_head_add_table_end hend).trans
      ((ihc hchildren).trans (Writer.length_head_add hstart))
    exact (ihr hrest).trans hlen

theorem tail_build {t : Forest} {b b' : Writer} (h : t.build b = some b') (hshort : t.Short)
    (hmax : b.head.length ≤ BLOB_MAX_SIZE) (hb : b.tail ≤ b.head.length) :
    b'.tail = b.tail + t.bytes.length ∧ b'.tail ≤ b.head.length := by
  induction t generalizing b b' with
  | nil =>
    obtain rfl := Option.some.inj h
    exact ⟨rfl, hb⟩
  | leaf name val rest ih =>
    obtain ⟨b₁, hadd, hrest⟩ := Option.bind_eq_some_iff.mp h
    obtain ⟨hname, hvalue, hshort⟩ := hshort
    rw [Value.addTo_eq] at hadd
    have hlen := Writer.length_head_add hadd
    obtain ⟨htail, hfit⟩ := Writer.tail_add hadd hmax hname hvalue
    obtain ⟨htail', hfit'⟩ := ih hrest hshort (by omega) hfit
    rw [bytes, List.length_append, Attr.length_bytes]
    exact ⟨by omega, by omega⟩
  | table name children rest ihc ihr =>
    obtain ⟨b₁, hstart, h⟩ := Option.bind_eq_some_iff.mp h
    obtain ⟨b₂, hchildren, h⟩ := Option.bind_eq_some_iff.mp h
    obtain ⟨b₃, hend, hrest⟩ := Option.bind_eq_some_iff.mp h
    obtain ⟨hname, hshortc, hshort⟩ := hshort
    have hlen₁ := Writer.length_head_add hstart
    have hlen₂ := length_head_build hchildren
    have hlen₃ := Writer.length_head_add_table_end hend
    have hlen : (Attr.mk BLOB_TYPE_TABLE name.val children.bytes).len =
        (Attr.mk BLOB_TYPE_TABLE name.val []).len + children.bytes.length := rfl
    have hstart' := Writer.tail_add hstart hmax hname (Nat.two_pow_pos 16)
    simp only at hlen₁ hstart'
    obtain ⟨htail₂, hfit₂⟩ := ihc hchildren hshortc (by omega) hstart'.2
    have htail₃ := Writer.tail_add_table_end hend
    obtain ⟨htail₄, hfit₄⟩ := ihr hrest hshort (by omega) (by omega)
    rw [bytes, List.length_append, Attr.length_bytes]
    exact ⟨by omega, by omega⟩

/-! ## Walking over a tree -/

theorem short_of_walk {t : Forest} {mem : List UInt8} (hmem : mem.length < 2 ^ 16)
    {fuel pos stop : ℕ}
    (h : walk mem fuel pos stop = some t.seen) : t.Short := by
  have hdrop : ∀ pos, (mem.drop pos).length < 2 ^ 16 := by
    intro pos
    rw [List.length_drop]
    omega
  have hgetName : ∀ {pos}, 0 ∈ (mem.drop pos).drop 5 →
      (getName (mem.drop pos)).length + 1 < 2 ^ 16 := by
    intro pos hzero
    have hlt := length_cString_lt hzero
    have hpos := hdrop pos
    rw [List.length_drop] at hlt
    rw [getName]
    omega
  induction t generalizing fuel pos stop with
  | nil => trivial
  | leaf name val rest ih =>
    obtain ⟨fuel, -, -, hzero, hname, -, hval, hrest⟩ := walk_leaf h
    have hvalue := (Value.length_get hval).trans_lt (hdrop pos)
    exact ⟨hname ▸ hgetName hzero, hvalue, ih hrest⟩
  | table name children rest ihc ihr =>
    obtain ⟨fuel, -, -, hzero, hname, -, hchildren, hrest⟩ := walk_table h
    exact ⟨hname ▸ hgetName hzero, ihc hchildren, ihr hrest⟩

theorem length_bytes_leaf (name : CText) (val : Value) (rest : Forest) :
    (leaf name val rest).bytes.length =
    (Attr.mk val.type name.val val.bytes).len + rest.bytes.length := by
  rw [bytes, List.length_append, Attr.length_bytes]

theorem length_bytes_table (name : CText) (children rest : Forest) :
    (table name children rest).bytes.length =
      (Attr.mk BLOB_TYPE_TABLE name.val children.bytes).len + rest.bytes.length := by
  rw [bytes, List.length_append, Attr.length_bytes]

theorem namesFit_of_walk {t : Forest} {mem post : List UInt8} {fuel pos stop : ℕ}
    (hlen : t.bytes.length < 65536) (hmem : mem.drop pos = t.bytes ++ post)
    (h : walk mem fuel pos stop = some t.seen) : t.NamesFit := by
  induction t generalizing post fuel pos stop with
  | nil => trivial
  | leaf name val rest ih =>
    rw [length_bytes_leaf] at hlen
    rw [bytes, List.append_assoc] at hmem
    have hvalid : (Attr.mk val.type name.val val.bytes).Valid := ⟨name.2, by omega⟩
    obtain ⟨fuel, -, -, -, -, hdata, -, hrest⟩ := walk_leaf h
    rw [hmem, hvalid.getLen] at hrest
    rw [hmem] at hdata
    exact ⟨(hvalid.getDataLen_iff _).mp hdata.symm,
      ih (by omega) (drop_attr hmem) hrest⟩
  | table name children rest ihc ihr =>
    rw [length_bytes_table] at hlen
    rw [bytes, List.append_assoc] at hmem
    have hvalid : (Attr.mk BLOB_TYPE_TABLE name.val children.bytes).Valid := ⟨name.2, by omega⟩
    have hchildren_len : children.bytes.length ≤
        (Attr.mk BLOB_TYPE_TABLE name.val children.bytes).len := Nat.le_add_left _ _
    obtain ⟨fuel, -, -, -, -, hdata, hchildren, hrest⟩ := walk_table h
    rw [hmem, hvalid.getNameLen] at hchildren
    rw [hmem, hvalid.getLen] at hrest
    rw [hmem] at hdata
    exact ⟨(hvalid.getDataLen_iff _).mp hdata.symm,
      ihc (by omega) (hvalid.drop_data hmem) hchildren, ihr (by omega) (drop_attr hmem) hrest⟩

theorem walk_bytes {t : Forest} {mem post : List UInt8} {pos : ℕ} (fuel : ℕ)
    (hlen : t.bytes.length < 65536) (hfit : t.NamesFit) (hmem : mem.drop pos = t.bytes ++ post)
    (hfuel : t.bytes.length < fuel) :
    walk mem fuel pos (pos + t.bytes.length) = some t.seen := by
  induction t generalizing post fuel pos with
  | nil =>
    obtain ⟨fuel, rfl⟩ := Nat.exists_eq_succ_of_ne_zero (Nat.ne_zero_of_lt hfuel)
    exact walk_of_le le_rfl
  | leaf name val rest ih =>
    obtain ⟨fuel, rfl⟩ := Nat.exists_eq_succ_of_ne_zero (Nat.ne_zero_of_lt hfuel)
    rw [length_bytes_leaf] at hlen hfuel
    rw [bytes, List.append_assoc] at hmem
    obtain ⟨hname, hfit⟩ := hfit
    have hvalid : (Attr.mk val.type name.val val.bytes).Valid := ⟨name.2, by omega⟩
    have hpos := hvalid.len_pos
    have hrest := ih fuel (by omega) hfit (drop_attr hmem) (by omega)
    rw [length_bytes_leaf, ← Nat.add_assoc]
    rw [hvalid.walk_eq hmem (by omega), if_neg val.type_ne, hmem, Value.get_bytes hvalid hname,
      hrest, (hvalid.getDataLen_iff _).mpr hname]
    rfl
  | table name children rest ihc ihr =>
    obtain ⟨fuel, rfl⟩ := Nat.exists_eq_succ_of_ne_zero (Nat.ne_zero_of_lt hfuel)
    rw [length_bytes_table] at hlen hfuel
    rw [bytes, List.append_assoc] at hmem
    obtain ⟨hname, hfitc, hfit⟩ := hfit
    have hvalid : (Attr.mk BLOB_TYPE_TABLE name.val children.bytes).Valid := ⟨name.2, by omega⟩
    have hpos := hvalid.len_pos
    have hchildren_len : children.bytes.length <
        (Attr.mk BLOB_TYPE_TABLE name.val children.bytes).len :=
      Nat.lt_add_of_pos_left (Nat.succ_pos _)
    have hchildren := ihc fuel (by omega) hfitc (hvalid.drop_data hmem) (by omega)
    have hrest := ihr fuel (by omega) hfit (drop_attr hmem) (by omega)
    rw [length_bytes_table, ← Nat.add_assoc]
    rw [hvalid.walk_eq hmem (by omega), if_pos rfl, (hvalid.getDataLen_iff _).mpr hname,
      hchildren, hrest]
    rfl

end Forest

/-! ## The round trip -/

section

variable {t : Forest}

theorem Writer.length_head_init : Writer.init.head.length = BLOB_MAX_SIZE :=
  List.length_replicate

theorem build_init (hsize : t.bytes.length ≤ BLOB_MAX_SIZE) (hdepth : t.depth ≤ 12) :
    ∃ post, t.build .init = some ⟨t.bytes ++ post, t.bytes.length, []⟩ ∧
      (t.bytes ++ post).length = BLOB_MAX_SIZE := by
  have hlen := Writer.length_head_init
  have hbuild := t.build_layout [] Writer.init.head []
    (hlen ▸ hsize) (by rw [hlen, List.length_nil, Nat.zero_add]) (by simpa using hdepth)
  simp only [List.nil_append, List.length_nil, Nat.zero_add] at hbuild
  refine ⟨_, hbuild, ?_⟩
  rw [List.length_append, List.length_drop, hlen]
  omega

theorem fits_of_readsBack (h : ReadsBack t) : t.Fits := by
  have hmax : BLOB_MAX_SIZE < 2 ^ 16 := by decide
  obtain ⟨b, hbuild, hwalk⟩ := Option.bind_eq_some_iff.mp h
  have hinit := Writer.length_head_init
  have hlen : b.head.length = BLOB_MAX_SIZE := (Forest.length_head_build hbuild).trans hinit
  have hshort : t.Short := Forest.short_of_walk (by rwa [hlen]) hwalk
  obtain ⟨htail, hroom⟩ := Forest.tail_build hbuild hshort hinit.le (Nat.zero_le _)
  have hsize : t.bytes.length ≤ BLOB_MAX_SIZE := by
    have hzero : Writer.init.tail = 0 := rfl
    omega
  obtain ⟨hstack, hdeep⟩ := Forest.stack_build hbuild (Nat.zero_le 12)
  have hdepth : t.depth ≤ 12 := by
    have hzero : Writer.init.tbl_stack.length = 0 := rfl
    have hdeep := hdeep (by omega)
    omega
  obtain ⟨post, hbuild', -⟩ := build_init hsize hdepth
  obtain rfl := Option.some.inj (hbuild.symm.trans hbuild')
  exact ⟨hsize, Forest.namesFit_of_walk (by omega) rfl hwalk, hdepth⟩

theorem readsBack_of_fits (h : t.Fits) : ReadsBack t := by
  obtain ⟨hsize, hnames, hdepth⟩ := h
  have hmax : BLOB_MAX_SIZE < 65536 := by decide
  obtain ⟨post, hbuild, hlen⟩ := build_init hsize hdepth
  have hdrop : (t.bytes ++ post).drop 0 = t.bytes ++ post := rfl
  have hwalk := Forest.walk_bytes (BLOB_MAX_SIZE + 1) (by omega) hnames hdrop
    (Nat.lt_succ_of_le hsize)
  rw [Nat.zero_add, ← hlen] at hwalk
  rw [ReadsBack, hbuild]
  exact hwalk

end

/-- A blob yields the tree that it was built from if and only if the attributes fit in the buffer,
every name leaves the data before byte 256 and no table is nested deeper than the stack. -/
theorem reads_back_iff (t : Forest) : ReadsBack t ↔ t.Fits :=
  ⟨fits_of_readsBack, readsBack_of_fits⟩

/-- A number under a name of 250 bytes: the length of its data is read as 257. -/
theorem not_reads_back :
    ¬ ReadsBack (.leaf ⟨List.replicate 250 65, by decide⟩ (.uint8 8) .nil) := by
  decide +kernel

example : ReadsBack (.table ⟨ascii "t", by decide⟩
    (.leaf ⟨ascii "s", by decide⟩ (.string ⟨ascii "x", by decide⟩) .nil)
    (.leaf ⟨ascii "n", by decide⟩ (.uint32 7) .nil)) := by
  decide +kernel

end Libobject.Blob
