import Libobject.Core.RingQueue
import Libobject.Lib.Buffer

/-!
# Buffers of streams

A buffer that grows: bytes are written behind the write offset and read behind the read offset,
and neither offset ever goes back. Lengths are C integers that are not negative. A call is `none`
where it touches memory that is not the buffer's, or where a capacity does not fit an integer.
-/

namespace Libobject

structure IoBuffer where
  addr : List UInt8
  r_offset : ℕ
  w_offset : ℕ
  capacity : ℕ
  deriving DecidableEq

namespace IoBuffer

def DEFAULT_BUFFER_SIZE : ℕ := 1024

def new : IoBuffer := ⟨List.replicate DEFAULT_BUFFER_SIZE 0, 0, 0, DEFAULT_BUFFER_SIZE⟩

def get_len (b : IoBuffer) : ℕ := b.w_offset - b.r_offset

def int32 (n : ℕ) : Option ℕ := if n < 2 ^ 31 then some n else none

/-- The capacity that `write` asks for: above 256 MB it does not double. -/
def write_capacity (b : IoBuffer) (len : ℕ) : Option ℕ :=
  let capacity := max b.capacity len
  if 256 * 1024 * 1024 < capacity then int32 (capacity + max len (1024 * 1024))
  else int32 (capacity * 2)

def printf_capacity (b : IoBuffer) (len : ℕ) : Option ℕ := int32 (max b.capacity len * 2)

/-- New memory, filled with zeros, and what was written copied to its start. -/
def grow (b : IoBuffer) (capacity : ℕ) : Option IoBuffer :=
  if b.w_offset ≤ b.addr.length then
    (Buffer.put (List.replicate capacity 0) 0 (b.addr.take b.w_offset)).map fun addr ↦
      { b with addr := addr, capacity := capacity }
  else none

/-- `memcpy` to the write offset. -/
def store (b : IoBuffer) (src : List UInt8) : Option IoBuffer :=
  (Buffer.put b.addr b.w_offset src).map fun addr ↦ { b with addr := addr }

/-- What `vsnprintf` writes into `len` bytes. -/
def vsnprintf (len : ℕ) (text : List UInt8) : List UInt8 :=
  if len = 0 then [] else text.take (len - 1) ++ [0]

/-- `mem` tells whether the allocator has memory; `set_capacity` is given what its new memory
holds. -/
inductive Call
  | write (src : List UInt8) (mem : Bool)
  | printf (len : ℕ) (text : List UInt8) (mem : Bool)
  | read (len : ℕ)
  | read_to_string (str : Str.Object) (len : ℕ)
  | set_capacity (capacity : ℕ) (mem : Option (List UInt8))
  | get_len
  deriving DecidableEq

/-- The bytes that a call delivers, and what it returns. -/
structure Answer where
  bytes : List UInt8
  ret : ℤ
  deriving DecidableEq

def write (b : IoBuffer) (src : List UInt8) (mem : Bool) : Option (IoBuffer × Answer) :=
  let len := src.length
  if len < b.capacity - b.w_offset then do
    let b ← b.store src
    return ({ b with w_offset := b.w_offset + len }, ⟨[], len⟩)
  else do
    let capacity ← b.write_capacity len
    if mem then
      let b ← b.grow capacity
      let b ← b.store src
      return ({ b with w_offset := b.w_offset + len }, ⟨[], len⟩)
    else return (b, ⟨[], -1⟩)

/-- `vsnprintf` at the write offset, which moves only if the text fits. -/
def format (b : IoBuffer) (len : ℕ) (text : List UInt8) : Option (IoBuffer × Answer) := do
  let b ← b.store (vsnprintf len text)
  if text.length < len then
    return ({ b with w_offset := b.w_offset + text.length }, ⟨[], text.length⟩)
  else return (b, ⟨[], -1⟩)

def printf (b : IoBuffer) (len : ℕ) (text : List UInt8) (mem : Bool) :
    Option (IoBuffer × Answer) :=
  if b.capacity - b.w_offset < len then do
    let capacity ← b.printf_capacity len
    if mem then
      let b ← b.grow capacity
      b.format len text
    else return (b, ⟨[], -1⟩)
  else b.format len text

def read (b : IoBuffer) (len : ℕ) : Option (IoBuffer × Answer) :=
  let l := min len b.get_len
  if b.r_offset + l ≤ b.addr.length then
    some ({ b with r_offset := b.r_offset + l }, ⟨(b.addr.drop b.r_offset).take l, l⟩)
  else none

/-- What `append` adds to the string is what is delivered. -/
def read_to_string (b : IoBuffer) (str : Str) (len : ℕ) : Option (IoBuffer × Answer) :=
  if b.get_len < len then some (b, ⟨[], -1⟩)
  else if b.r_offset + len ≤ b.addr.length then
    (str.appendFrom (b.addr.drop b.r_offset) len).map fun str' ↦
      ({ b with r_offset := b.r_offset + len }, ⟨str.added str', len⟩)
  else none

/-- The old memory is given back before the new one is asked for, and nothing is copied. -/
def set_capacity (b : IoBuffer) (capacity : ℕ) (mem : Option (List UInt8)) :
    Option (IoBuffer × Answer) :=
  if b.capacity < capacity then do
    let capacity ← int32 capacity
    match mem with
    | none => return ({ b with addr := [], capacity := capacity }, ⟨[], -1⟩)
    | some mem => return ({ b with addr := mem.takeD capacity 0, capacity := capacity }, ⟨[], 0⟩)
  else some (b, ⟨[], 0⟩)

def call (b : IoBuffer) : Call → Option (IoBuffer × Answer)
  | .write src mem => b.write src mem
  | .printf len text mem => b.printf len text mem
  | .read len => b.read len
  | .read_to_string str len => b.read_to_string str len
  | .set_capacity capacity mem => b.set_capacity capacity mem
  | .get_len => some (b, ⟨[], b.get_len⟩)

/-! ## What it is for -/

/-- The answers of a queue of bytes without a bound. A write may be refused for want of memory,
and a text that is longer than announced is not added. -/
def Allowed (items : List UInt8) : Call → Answer → Prop
  | .write src mem, o => o = ⟨[], src.length⟩ ∨ mem = false ∧ o = ⟨[], -1⟩
  | .printf len text mem, o =>
    text.length < len ∧ o = ⟨[], text.length⟩ ∨
      (mem = false ∨ len ≤ text.length) ∧ o = ⟨[], -1⟩
  | .read len, o => o = ⟨items.take len, (min len items.length : ℕ)⟩
  | .read_to_string _ len, o =>
    if items.length < len then o = ⟨[], -1⟩ else o = ⟨items.take len, len⟩
  | .set_capacity _ _, o => o = ⟨[], 0⟩
  | .get_len, o => o = ⟨[], items.length⟩

def next (items : List UInt8) : Call → Answer → List UInt8
  | .write src _, o => if o.ret < 0 then items else items ++ src
  | .printf _ text _, o => if o.ret < 0 then items else items ++ text
  | .read len, _ => items.drop len
  | .read_to_string _ len, o => if o.ret < 0 then items else items.drop len
  | _, _ => items

def queue : Spec (List UInt8) Call Answer where
  ok := Allowed
  next := next

/-- The capacity that a call asks for is an integer; a string that has room for them, or can be
given it, is given bytes without a zero, and at least one; and a larger capacity is set on an empty
buffer only, when there is memory. -/
def Regular (b : IoBuffer) : Call → Prop
  | .write src _ => src.length < b.capacity - b.w_offset ∨ (b.write_capacity src.length).isSome
  | .printf len _ _ => len ≤ b.capacity - b.w_offset ∨ (b.printf_capacity len).isSome
  | .read_to_string str len =>
    b.get_len < len ∨ 0 < len ∧ 0 ∉ (b.addr.drop b.r_offset).take len ∧
      Str.Fits str.1.value_max_len str.1.value_len len
  | .set_capacity capacity mem =>
    capacity ≤ b.capacity ∨ b.r_offset = b.w_offset ∧ capacity < 2 ^ 31 ∧ mem.isSome
  | _ => True

instance decidableRegular (b : IoBuffer) (c : Call) : Decidable (b.Regular c) := by
  cases c with
  | write src mem => exact inferInstanceAs (Decidable (_ ∨ _))
  | printf len text mem => exact inferInstanceAs (Decidable (_ ∨ _))
  | read len => exact inferInstanceAs (Decidable True)
  | read_to_string str len => exact inferInstanceAs (Decidable (_ ∨ _))
  | set_capacity capacity mem => exact inferInstanceAs (Decidable (_ ∨ _))
  | get_len => exact inferInstanceAs (Decidable True)

/-- The unread bytes stand between the offsets. -/
structure Holds (b : IoBuffer) (items : List UInt8) : Prop where
  split : ∃ old rest, b.addr = old ++ (items ++ rest) ∧ old.length = b.r_offset
  w_offset : b.w_offset = b.r_offset + items.length
  capacity : b.capacity = b.addr.length

section Memory

variable {b : IoBuffer} {items : List UInt8}

theorem int32_eq_some {n c : ℕ} (h : int32 n = some c) : c = n ∧ n < 2 ^ 31 := by
  rw [int32] at h
  split_ifs at h with hlt
  exact ⟨(Option.some.inj h).symm, hlt⟩

theorem add_le_write_capacity {len c : ℕ} (h : b.write_capacity len = some c) :
    b.capacity + len ≤ c := by
  rw [write_capacity] at h
  split_ifs at h with hbig
  · obtain ⟨rfl, -⟩ := int32_eq_some h
    omega
  · obtain ⟨rfl, -⟩ := int32_eq_some h
    omega

theorem add_le_printf_capacity {len c : ℕ} (h : b.printf_capacity len = some c) :
    b.capacity + len ≤ c := by
  obtain ⟨rfl, -⟩ := int32_eq_some h
  omega

theorem Holds.w_le (hb : Holds b items) : b.w_offset ≤ b.capacity := by
  obtain ⟨old, rest, haddr, hold⟩ := hb.split
  have hlen := congrArg List.length haddr
  simp only [List.length_append] at hlen
  have hw := hb.w_offset
  have hcap := hb.capacity
  omega

theorem Holds.get_len (hb : Holds b items) : b.get_len = items.length := by
  have hw := hb.w_offset
  rw [IoBuffer.get_len]
  omega

theorem Holds.drop_addr (hb : Holds b items) : ∃ rest, b.addr.drop b.r_offset = items ++ rest := by
  obtain ⟨old, rest, haddr, hold⟩ := hb.split
  refine ⟨rest, ?_⟩
  rw [haddr]
  exact List.drop_left' hold

theorem Holds.take_drop (hb : Holds b items) (len : ℕ) :
    (b.addr.drop b.r_offset).take (min len items.length) = items.take len := by
  obtain ⟨rest, hdrop⟩ := hb.drop_addr
  rw [hdrop, List.take_append_of_le_length (Nat.min_le_right _ _), ← List.take_eq_take_min]

theorem Holds.store (hb : Holds b items) (src : List UInt8)
    (hfit : b.w_offset + src.length ≤ b.capacity) :
    ∃ b', b.store src = some b' ∧ ∀ k ≤ src.length,
      Holds { b' with w_offset := b'.w_offset + k } (items ++ src.take k) := by
  obtain ⟨old, rest, haddr, hold⟩ := hb.split
  have hw := hb.w_offset
  have hcap := hb.capacity
  have hplace : b.w_offset = (old ++ items).length := by
    rw [List.length_append, hold, hw]
  have hlen : b.addr.length = (old ++ items).length + rest.length := by
    rw [haddr, ← List.append_assoc, List.length_append]
  have hput := Buffer.put_append (old ++ items) rest src (by omega)
  rw [List.append_assoc, ← haddr, ← hplace] at hput
  refine ⟨_, by rw [IoBuffer.store, hput, Option.map_some], fun k hk ↦ ?_⟩
  constructor
  · refine ⟨old, src.drop k ++ rest.drop src.length, ?_, hold⟩
    have hsrc : src.take k ++ src.drop k = src := List.take_append_drop k src
    calc old ++ items ++ src ++ rest.drop src.length
        = old ++ items ++ (src.take k ++ src.drop k) ++ rest.drop src.length := by rw [hsrc]
      _ = old ++ (items ++ src.take k ++ (src.drop k ++ rest.drop src.length)) := by
          simp only [List.append_assoc]
  · have hk' : (src.take k).length = k := List.length_take_of_le hk
    change b.w_offset + k = b.r_offset + (items ++ src.take k).length
    rw [List.length_append, hk']
    omega
  · change b.capacity = (old ++ items ++ src ++ rest.drop src.length).length
    rw [List.length_append, List.length_append, List.length_drop]
    omega

theorem Holds.grow (hb : Holds b items) {capacity : ℕ} (hle : b.w_offset ≤ capacity) :
    ∃ b', b.grow capacity = some b' ∧ Holds b' items ∧ b'.w_offset = b.w_offset ∧
      b'.capacity = capacity := by
  obtain ⟨old, rest, haddr, hold⟩ := hb.split
  have hw := hb.w_offset
  have hfront : (old ++ items).length = b.w_offset := by
    rw [List.length_append, hold, hw]
  have htake : b.addr.take b.w_offset = old ++ items := by
    rw [haddr, ← List.append_assoc]
    exact List.take_left' hfront
  have hput := Buffer.put_append [] (List.replicate capacity 0) (old ++ items)
    (by rw [List.length_replicate, hfront]; exact hle)
  rw [List.length_nil, List.nil_append, List.nil_append] at hput
  have hgrow : b.grow capacity = some { b with
      addr := old ++ items ++ (List.replicate capacity 0).drop (old ++ items).length
      capacity := capacity } := by
    rw [IoBuffer.grow, if_pos (hb.capacity ▸ hb.w_le), htake, hput, Option.map_some]
  refine ⟨_, hgrow, ?_, rfl, rfl⟩
  constructor
  · exact ⟨old, _, List.append_assoc old items _, hold⟩
  · exact hw
  · change capacity = _
    rw [List.length_append, List.length_drop, List.length_replicate, hfront]
    omega

theorem Holds.write (hb : Holds b items) {src : List UInt8} {mem : Bool}
    (hreg : Regular b (.write src mem)) :
    ∃ b' o, b.write src mem = some (b', o) ∧ Allowed items (.write src mem) o ∧
      Holds b' (next items (.write src mem) o) := by
  have hw := hb.w_le
  have hnat : ¬((src.length : ℕ) : ℤ) < 0 := by omega
  by_cases hroom : src.length < b.capacity - b.w_offset
  · obtain ⟨b', hstore, hb'⟩ := hb.store src (by omega)
    have hall := hb' src.length le_rfl
    rw [List.take_length] at hall
    refine ⟨_, _, by rw [IoBuffer.write, if_pos hroom, hstore]; rfl, .inl rfl, ?_⟩
    rw [next, if_neg hnat]
    exact hall
  · obtain ⟨capacity, hcap⟩ := Option.isSome_iff_exists.mp (hreg.resolve_left hroom)
    have hle := add_le_write_capacity hcap
    cases mem with
    | false =>
      refine ⟨b, ⟨[], -1⟩, by rw [IoBuffer.write, if_neg hroom, hcap]; rfl, .inr ⟨rfl, rfl⟩, ?_⟩
      exact hb
    | true =>
      obtain ⟨b₁, hgrow, hb₁, hw₁, hcap₁⟩ := hb.grow (by omega : b.w_offset ≤ capacity)
      obtain ⟨b', hstore, hb'⟩ := hb₁.store src (by omega)
      have hall := hb' src.length le_rfl
      rw [List.take_length] at hall
      refine ⟨{ b' with w_offset := b'.w_offset + src.length }, ⟨[], src.length⟩, ?_, .inl rfl, ?_⟩
      · rw [IoBuffer.write, if_neg hroom, hcap]
        simp only [Option.bind_eq_bind, Option.bind_some, if_true, hgrow, hstore]
        rfl
      · rw [next, if_neg hnat]
        exact hall

theorem length_vsnprintf_le (len : ℕ) (text : List UInt8) : (vsnprintf len text).length ≤ len := by
  rw [vsnprintf]
  split_ifs with hlen
  · exact Nat.zero_le _
  · rw [List.length_append, List.length_take, List.length_singleton]
    omega

theorem vsnprintf_of_lt {len : ℕ} {text : List UInt8} (h : text.length < len) :
    vsnprintf len text = text ++ [0] := by
  rw [vsnprintf, if_neg (by omega), List.take_of_length_le (by omega)]

theorem Holds.format (hb : Holds b items) {len : ℕ} (text : List UInt8) (mem : Bool)
    (hfit : b.w_offset + len ≤ b.capacity) :
    ∃ b' o, b.format len text = some (b', o) ∧ Allowed items (.printf len text mem) o ∧
      Holds b' (next items (.printf len text mem) o) := by
  have hle := length_vsnprintf_le len text
  obtain ⟨b', hstore, hb'⟩ := hb.store (vsnprintf len text) (by omega)
  by_cases hlt : text.length < len
  · have hnat : ¬((text.length : ℕ) : ℤ) < 0 := by omega
    have hfits : text.length ≤ (vsnprintf len text).length := by
      rw [vsnprintf_of_lt hlt, List.length_append]
      exact Nat.le_add_right _ _
    have htext := hb' text.length hfits
    rw [vsnprintf_of_lt hlt, List.take_left] at htext
    refine ⟨{ b' with w_offset := b'.w_offset + text.length }, ⟨[], text.length⟩, ?_,
      .inl ⟨hlt, rfl⟩, ?_⟩
    · rw [IoBuffer.format, hstore, Option.bind_eq_bind, Option.bind_some, if_pos hlt]
      rfl
    · rw [next, if_neg hnat]
      exact htext
  · have hnone := hb' 0 (Nat.zero_le _)
    rw [List.take_zero, List.append_nil] at hnone
    refine ⟨b', ⟨[], -1⟩, ?_, .inr ⟨.inr (by omega), rfl⟩, hnone⟩
    rw [IoBuffer.format, hstore, Option.bind_eq_bind, Option.bind_some, if_neg hlt]
    rfl

theorem Holds.printf (hb : Holds b items) {len : ℕ} {text : List UInt8} {mem : Bool}
    (hreg : Regular b (.printf len text mem)) :
    ∃ b' o, b.printf len text mem = some (b', o) ∧ Allowed items (.printf len text mem) o ∧
      Holds b' (next items (.printf len text mem) o) := by
  have hw := hb.w_le
  rw [IoBuffer.printf]
  by_cases hroom : len ≤ b.capacity - b.w_offset
  · rw [if_neg (by omega)]
    exact hb.format text mem (by omega)
  · obtain ⟨capacity, hcap⟩ := Option.isSome_iff_exists.mp (hreg.resolve_left hroom)
    have hle := add_le_printf_capacity hcap
    rw [if_pos (by omega), hcap, Option.bind_eq_bind, Option.bind_some]
    cases mem with
    | false => exact ⟨b, ⟨[], -1⟩, rfl, .inr ⟨.inl rfl, rfl⟩, hb⟩
    | true =>
      obtain ⟨b₁, hgrow, hb₁, hw₁, hcap₁⟩ := hb.grow (by omega : b.w_offset ≤ capacity)
      rw [if_pos rfl, hgrow]
      exact hb₁.format text true (by omega)

theorem Holds.advance (hb : Holds b items) {l : ℕ} (hl : l ≤ items.length) :
    Holds { b with r_offset := b.r_offset + l } (items.drop l) := by
  obtain ⟨old, rest, haddr, hold⟩ := hb.split
  have hw := hb.w_offset
  constructor
  · refine ⟨old ++ items.take l, rest, ?_, ?_⟩
    · rw [haddr, List.append_assoc, ← List.append_assoc (items.take l), List.take_append_drop]
    · rw [List.length_append, hold, List.length_take_of_le hl]
  · change b.w_offset = b.r_offset + l + (items.drop l).length
    rw [List.length_drop]
    omega
  · exact hb.capacity

theorem Holds.read (hb : Holds b items) (len : ℕ) :
    ∃ b' o, b.read len = some (b', o) ∧ Allowed items (.read len) o ∧
      Holds b' (next items (.read len) o) := by
  have hw := hb.w_le
  have hwr := hb.w_offset
  have hcap := hb.capacity
  have hle : b.r_offset + min len items.length ≤ b.addr.length := by omega
  have hdrop : items.drop (min len items.length) = items.drop len := by
    by_cases h : len ≤ items.length
    · rw [Nat.min_eq_left h]
    · rw [Nat.min_eq_right (by omega), List.drop_length, List.drop_of_length_le (by omega)]
  have hb' := hb.advance (Nat.min_le_right len items.length)
  rw [hdrop] at hb'
  refine ⟨_, ⟨items.take len, (min len items.length : ℕ)⟩, ?_, rfl, hb'⟩
  rw [IoBuffer.read, hb.get_len, if_pos hle, hb.take_drop]

theorem Holds.read_to_string (hb : Holds b items) {str : Str.Object} {len : ℕ}
    (hreg : Regular b (.read_to_string str len)) :
    ∃ b' o, b.read_to_string str len = some (b', o) ∧
      Allowed items (.read_to_string str len) o ∧
      Holds b' (next items (.read_to_string str len) o) := by
  rw [IoBuffer.read_to_string, hb.get_len]
  by_cases hlong : items.length < len
  · rw [if_pos hlong]
    refine ⟨b, ⟨[], -1⟩, rfl, ?_, hb⟩
    rw [Allowed, if_pos hlong]
  · rw [Regular, hb.get_len] at hreg
    obtain ⟨hpos, hzero, hfits⟩ := hreg.resolve_left hlong
    have hle : len ≤ items.length := by omega
    have hw := hb.w_le
    have hwr := hb.w_offset
    have hcap := hb.capacity
    have htake := hb.take_drop len
    rw [Nat.min_eq_left hle] at htake
    obtain ⟨str', happend, hstr', -⟩ :=
      str.2.appendFrom hpos (by rw [List.length_drop]; omega) hzero hfits
    rw [if_neg hlong, if_pos (by omega), happend, Option.map_some, str.2.added_eq hstr', htake]
    have hnat : ¬((len : ℕ) : ℤ) < 0 := by omega
    refine ⟨_, _, rfl, ?_, ?_⟩
    · rw [Allowed, if_neg hlong]
    · rw [next, if_neg hnat]
      exact hb.advance hle

theorem Holds.set_capacity (hb : Holds b items) {capacity : ℕ} {mem : Option (List UInt8)}
    (hreg : Regular b (.set_capacity capacity mem)) :
    ∃ b' o, b.set_capacity capacity mem = some (b', o) ∧
      Allowed items (.set_capacity capacity mem) o ∧
      Holds b' (next items (.set_capacity capacity mem) o) := by
  rw [IoBuffer.set_capacity]
  by_cases hle : capacity ≤ b.capacity
  · rw [if_neg (by omega)]
    exact ⟨b, ⟨[], 0⟩, rfl, rfl, hb⟩
  · obtain ⟨hempty, hlt, hmem⟩ := hreg.resolve_left hle
    obtain ⟨mem, rfl⟩ := Option.isSome_iff_exists.mp hmem
    have hw := hb.w_offset
    have hwle := hb.w_le
    have hnil : items = [] := List.length_eq_zero_iff.mp (by omega)
    subst hnil
    rw [if_pos (by omega), int32, if_pos hlt]
    refine ⟨_, _, rfl, rfl, ?_⟩
    have hlen : (mem.takeD capacity 0).length = capacity := List.takeD_length _ _ _
    constructor
    · refine ⟨(mem.takeD capacity 0).take b.r_offset, (mem.takeD capacity 0).drop b.r_offset, ?_,
        ?_⟩
      · exact (List.take_append_drop _ _).symm
      · apply List.length_take_of_le
        rw [hlen]
        omega
    · exact hw
    · exact hlen.symm

theorem Holds.call (hb : Holds b items) {c : Call} (hreg : Regular b c) :
    ∃ b' o, b.call c = some (b', o) ∧ Allowed items c o ∧ Holds b' (next items c o) := by
  cases c with
  | write src mem => exact hb.write hreg
  | printf len text mem => exact hb.printf hreg
  | read len => exact hb.read len
  | read_to_string str len => exact hb.read_to_string hreg
  | set_capacity capacity mem => exact hb.set_capacity hreg
  | get_len => exact ⟨b, ⟨[], b.get_len⟩, rfl, by rw [Allowed, hb.get_len], hb⟩

theorem holds_new : Holds new [] := by
  constructor
  · exact ⟨[], _, rfl, rfl⟩
  · rfl
  · exact List.length_replicate.symm

end Memory

instance decidableOk (items : List UInt8) (c : Call) (o : Answer) :
    Decidable (queue.ok items c o) := by
  cases c with
  | write src mem => exact inferInstanceAs (Decidable (_ ∨ _))
  | printf len text mem => exact inferInstanceAs (Decidable (_ ∨ _))
  | read len => exact inferInstanceAs (Decidable (o = _))
  | read_to_string str len =>
    exact inferInstanceAs (Decidable (if items.length < len then o = _ else o = _))
  | set_capacity capacity mem => exact inferInstanceAs (Decidable (o = _))
  | get_len => exact inferInstanceAs (Decidable (o = _))

/-- In every run from a new buffer whose calls meet the condition, the buffer is a queue. -/
theorem refines_bytes (cs : List Call) (hrun : Refine.Within call queue Regular new [] cs) :
    (∃ b items, Run.final (Refine.step call queue) (some new, []) cs = (some b, items) ∧
        Holds b items) ∧
      Refine.Refines call queue new [] cs :=
  Refine.refines_of_simulation (I := Holds) (fun _ _ _ hb hreg ↦ hb.call hreg) holds_new hrun

theorem refines_bytes_growth :
    (∃ b items, Run.final (Refine.step call queue) (some new, [])
        [.write [1, 2, 3] true, .printf 2000 [104, 105] true, .read 2, .set_capacity 9 none,
          .read_to_string Str.fresh 3, .printf 2 [97, 98] true, .get_len,
          .set_capacity 5000 (some [])] =
          (some b, items) ∧ Holds b items) ∧
      Refine.Refines call queue new []
        [.write [1, 2, 3] true, .printf 2000 [104, 105] true, .read 2, .set_capacity 9 none,
          .read_to_string Str.fresh 3, .printf 2 [97, 98] true, .get_len,
          .set_capacity 5000 (some [])] :=
  refines_bytes _ (by decide +kernel)

/-- A larger capacity is set while there is something to read. -/
theorem not_refines_bytes_set_capacity :
    ¬ ∀ cs : List Call, Refine.Refines call queue new [] cs := by
  intro h
  have hrun := h [.write [97, 98, 99] true, .set_capacity 2048 (some []), .read 3]
  revert hrun
  decide +kernel

end IoBuffer

end Libobject
