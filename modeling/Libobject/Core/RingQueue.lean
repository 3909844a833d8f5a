import Libobject.Core.RingBuffer
import Libobject.Core.String
import Mathlib.Data.List.TakeWhile

/-!
# The ring buffer as a queue of bytes

All calls of the ring buffer, with what they deliver and what they report, beside a queue of bounded
capacity. A call is `none` where it touches memory that is not the buffer's.
-/

namespace Libobject

open Scan

/-- A queue of at most `cap` bytes. -/
structure ByteQueue where
  cap : ℕ
  items : List UInt8
  deriving DecidableEq

def ByteQueue.free (q : ByteQueue) : ℕ := q.cap - q.items.length

namespace RingBuffer

inductive Op
  | setSize (mem : List UInt8)
  | write (src : List UInt8)
  | read (len : ℕ)
  | peek (len : ℕ)
  | readToString (str : Str.Object) (len : ℕ)
  | readToBuffer (len : ℕ)
  | memcopy (src : List UInt8)
  | printf (text : List UInt8)
  | getLen
  deriving DecidableEq

/-- The bytes that a call delivers and the number that it returns, `none` if that is whatever was
in memory. -/
structure Answer where
  bytes : List UInt8
  ret : Option ℕ
  deriving DecidableEq

def answer (q : ByteQueue) : Op → Answer
  | .setSize _ => ⟨[], some 0⟩
  | .write src | .memcopy src | .printf src => ⟨[], some (min src.length q.free)⟩
  | .read len | .peek len | .readToString _ len | .readToBuffer len =>
    ⟨q.items.take len, some (min len q.items.length)⟩
  | .getLen => ⟨[], some q.items.length⟩

def next (q : ByteQueue) : Op → ByteQueue
  | .setSize mem => { q with cap := mem.length }
  | .write src | .memcopy src | .printf src => { q with items := q.items ++ src.take q.free }
  | .read len | .readToString _ len | .readToBuffer len => { q with items := q.items.drop len }
  | .peek _ | .getLen => q

def queueSpec : Spec ByteQueue Op Answer where
  ok q e o := o = answer q e
  next q e _ := next q e

instance (q : ByteQueue) (e : Op) (o : Answer) : Decidable (queueSpec.ok q e o) :=
  inferInstanceAs (Decidable (o = answer q e))

/-- The offsets lie in the memory, which is not so after `setSize` has made it too small. -/
def InRange (rb : RingBuffer) : Prop := rb.rOffset < rb.size ∧ rb.wOffset < rb.size

instance (rb : RingBuffer) : Decidable rb.InRange := inferInstanceAs (Decidable (_ ∧ _))

def IsFull (rb : RingBuffer) : Prop := rb.lastOperation = .write ∧ rb.wOffset = rb.rOffset

instance (rb : RingBuffer) : Decidable rb.IsFull := inferInstanceAs (Decidable (_ ∧ _))

/-- `read` and `peek` take the buffer for empty unless the last operation was a write. -/
def IsNil (rb : RingBuffer) : Prop := rb.lastOperation ≠ .write ∧ rb.wOffset = rb.rOffset

instance (rb : RingBuffer) : Decidable rb.IsNil := inferInstanceAs (Decidable (_ ∧ _))

/-- The lengths of the pieces in which `read_to_string` appends `l` bytes. -/
def pieces (rb : RingBuffer) (l : ℕ) : List ℕ :=
  if rb.rOffset < rb.wOffset ∨ l < rb.size - rb.rOffset then [l]
  else [rb.size - rb.rOffset, l - (rb.size - rb.rOffset)]

/-- What `read_to_string` makes of a string with `l` bytes, in one piece or in two. -/
def copyToString (rb : RingBuffer) (str : Str) (l : ℕ) : Option Str :=
  if rb.rOffset < rb.wOffset ∨ l < rb.size - rb.rOffset then
    str.appendFrom (rb.addr.drop rb.rOffset) l
  else do
    let str ← str.appendFrom (rb.addr.drop rb.rOffset) (rb.size - rb.rOffset)
    str.appendFrom rb.addr (l - (rb.size - rb.rOffset))

/-- The bytes that `vsnprintf` writes into a buffer of `l` bytes, the NUL included. -/
def vsnprintf (l : ℕ) (text : List UInt8) : List UInt8 := text.take (l - 1) ++ [0]

def call (rb : RingBuffer) : Op → Option (RingBuffer × Answer)
  | .setSize mem => some (rb.setSize mem, ⟨[], some 0⟩)
  | .write src =>
    if rb.IsFull then some (rb, ⟨[], some 0⟩)
    else if rb.InRange then some (rb.write src, ⟨[], some (min src.length rb.writable)⟩)
    else none
  | .read len =>
    if rb.IsNil then some (rb, ⟨[], some 0⟩)
    else if rb.InRange then
      some ((rb.read len).2, ⟨(rb.read len).1, some (min len rb.readable)⟩)
    else none
  | .peek len =>
    if rb.IsNil then some (rb, ⟨[], some 0⟩)
    else if rb.InRange then some (rb, ⟨rb.peek len, some (min len rb.readable)⟩)
    else none
  | .readToString str len =>
    if rb.IsNil then some (rb, ⟨[], some 0⟩)
    else if rb.InRange then
      (rb.copyToString str (min len rb.readable)).map fun str' ↦
        (rb.advance (min len rb.readable), ⟨str.1.added str', some (min len rb.readable)⟩)
    else none
  | .readToBuffer len =>
    -- a new buffer is not taken for empty here, and zero bytes are read
    if rb.lastOperation = .read ∧ rb.wOffset = rb.rOffset then some (rb, ⟨[], some 0⟩)
    else if rb.InRange then
      some (rb.advance (min len rb.readable),
        ⟨rb.copyOut (min len rb.readable), some (min len rb.readable)⟩)
    else none
  | .memcopy src =>
    if rb.IsFull then some (rb, ⟨[], some 0⟩)
    else
      -- in one piece, and `last_operation_flag` and the returned value are not set
      let l := min src.length rb.writable
      if rb.InRange ∧ rb.wOffset + l ≤ rb.size then
        some ({ rb with
          addr := poke rb.addr rb.wOffset (src.take l)
          wOffset := (rb.wOffset + l) % rb.size }, ⟨[], none⟩)
      else none
  | .printf text =>
    if rb.IsFull then some (rb, ⟨[], some 0⟩)
    else
      let out := vsnprintf rb.writable text
      if rb.InRange ∧ rb.wOffset + out.length ≤ rb.size then
        some ({ rb with
          addr := poke rb.addr rb.wOffset out
          wOffset := (rb.wOffset + text.length) % rb.size }, ⟨[], some text.length⟩)
      else none
  | .getLen => some (rb, ⟨[], some rb.getLen⟩)

/-! ## When the calls do what they are for -/

/-- The calls that the buffer takes as a queue does. A call of length zero must not meet offsets
that are equal: it would turn an empty buffer into a full one, or a full one into an empty one. -/
def Regular (rb : RingBuffer) : Op → Prop
  | .setSize mem => mem.length = rb.size ∨ (rb.IsNil ∧ rb.rOffset < mem.length)
  | .write src => src ≠ [] ∨ ¬rb.IsNil
  | .read len | .readToBuffer len => len ≠ 0 ∨ ¬rb.IsFull
  | .peek _ => True
  | .readToString str len => rb.IsNil ∨
      (len ≠ 0 ∧ 0 ∉ rb.contents.take len ∧
        (rb.rOffset < rb.wOffset ∨ min len rb.readable ≠ rb.size - rb.rOffset) ∧
        Str.Takes str.1.value_max_len str.1.value_len (rb.pieces (min len rb.readable)))
  | .memcopy _ => rb.IsFull
  | .printf text => rb.IsFull ∨ (text.length < rb.writable ∧ rb.wOffset + text.length < rb.size)
  | .getLen => rb.lastOperation ≠ .na ∨ rb.wOffset ≠ rb.rOffset

instance decidableRegular (rb : RingBuffer) : (e : Op) → Decidable (rb.Regular e)
  | .setSize _ => inferInstanceAs (Decidable (_ ∨ _))
  | .write _ => inferInstanceAs (Decidable (_ ∨ _))
  | .read _ => inferInstanceAs (Decidable (_ ∨ _))
  | .readToBuffer _ => inferInstanceAs (Decidable (_ ∨ _))
  | .peek _ => inferInstanceAs (Decidable True)
  | .readToString _ _ => inferInstanceAs (Decidable (_ ∨ _))
  | .memcopy _ => inferInstanceAs (Decidable rb.IsFull)
  | .printf _ => inferInstanceAs (Decidable (_ ∨ _))
  | .getLen => inferInstanceAs (Decidable (_ ∨ _))

/-! ## The queue is what the buffer holds -/

structure Holds (rb : RingBuffer) (q : ByteQueue) : Prop where
  valid : rb.Valid
  size : rb.size = q.cap
  contents : rb.contents = q.items

variable {rb : RingBuffer} {q : ByteQueue}

theorem contents_eq_of_readable {rb' : RingBuffer} (haddr : rb'.addr = rb.addr)
    (hr : rb'.rOffset = rb.rOffset) (hread : rb'.readable = rb.readable) :
    rb'.contents = rb.contents := by
  rw [contents, contents, haddr, hr, hread]

theorem readable_congr {rb' : RingBuffer} (hsize : rb'.size = rb.size)
    (hr : rb'.rOffset = rb.rOffset) (hw : rb'.wOffset = rb.wOffset)
    (hne : rb.wOffset ≠ rb.rOffset) : rb'.readable = rb.readable := by
  rw [readable, readable, hsize, hr, hw, if_neg hne, if_neg hne]

theorem IsNil.readable_eq (h : rb.IsNil) : rb.readable = 0 := by
  rw [readable, if_pos h.2, if_neg h.1]

theorem IsFull.writable_eq (h : rb.IsFull) : rb.writable = 0 := by
  rw [writable, if_pos h.2, if_pos h.1]

theorem writable_pos (h : rb.Valid) (hfull : ¬rb.IsFull) : 0 < rb.writable := by
  have hr := h.read_lt
  have hw := h.write_lt
  by_cases heq : rb.wOffset = rb.rOffset
  · rw [writable, if_pos heq, if_neg fun hlast ↦ hfull ⟨hlast, heq⟩]
    omega
  · rw [writable_of_ne h heq]
    split <;> omega

namespace Holds

theorem inRange (h : rb.Holds q) : rb.InRange := ⟨h.valid.read_lt, h.valid.write_lt⟩

theorem readable_eq (h : rb.Holds q) : rb.readable = q.items.length := by
  rw [← h.contents, length_contents h.valid]

theorem writable_eq (h : rb.Holds q) : rb.writable = q.free := by
  have hsum := readable_add_writable h.valid
  rw [h.readable_eq, h.size] at hsum
  rw [ByteQueue.free]
  omega

theorem items_eq_nil (h : rb.Holds q) (hnil : rb.IsNil) : q.items = [] :=
  List.eq_nil_of_length_eq_zero (h.readable_eq.symm.trans hnil.readable_eq)

theorem free_eq_zero (h : rb.Holds q) (hfull : rb.IsFull) : q.free = 0 :=
  h.writable_eq.symm.trans hfull.writable_eq

/-- Reading ahead by `l` takes `l` bytes off the front, if `l` is zero only while the offsets differ
or the buffer is empty. -/
theorem advance (h : rb.Holds q) {l : ℕ} (hl : l ≤ rb.readable)
    (hzero : l = 0 → ¬rb.IsFull) : (rb.advance l).Holds { q with items := q.items.drop l } := by
  have hr := h.valid.read_lt
  rcases Nat.eq_zero_or_pos l with rfl | hpos
  · have hoff : (rb.rOffset + 0) % rb.size = rb.rOffset := Nat.mod_eq_of_lt hr
    have hvalid : (rb.advance 0).Valid := ⟨hoff.trans_lt hr, h.valid.write_lt⟩
    refine ⟨hvalid, h.size, ?_⟩
    rw [List.drop_zero, ← h.contents]
    refine contents_eq_of_readable rfl hoff ?_
    by_cases heq : rb.wOffset = rb.rOffset
    · have hlast : rb.lastOperation ≠ .write := fun hlast ↦ hzero rfl ⟨hlast, heq⟩
      have heq' : (rb.advance 0).wOffset = (rb.advance 0).rOffset := heq.trans hoff.symm
      rw [readable, readable, if_pos heq, if_pos heq', if_neg hlast, if_neg]
      simp [RingBuffer.advance]
    · exact readable_congr rfl hoff rfl heq
  · obtain ⟨hvalid, hcont⟩ := advance_spec h.valid hpos hl
    exact ⟨hvalid, h.size, by rw [hcont, h.contents]⟩

theorem drop_min (h : rb.Holds q) (len : ℕ) :
    q.items.drop (min len rb.readable) = q.items.drop len := by
  rw [h.readable_eq]
  rcases Nat.le_total len q.items.length with hle | hle
  · rw [Nat.min_eq_left hle]
  · rw [Nat.min_eq_right hle, List.drop_length, List.drop_of_length_le hle]

theorem copyOut_min (h : rb.Holds q) (len : ℕ) :
    rb.copyOut (min len rb.readable) = q.items.take len := by
  rw [← h.contents]
  exact peek_eq h.valid len

theorem read_eq (h : rb.Holds q) (len : ℕ) (hnil : ¬rb.IsNil) :
    rb.read len = (rb.copyOut (min len rb.readable), rb.advance (min len rb.readable)) := by
  have hne : rb.readable ≠ 0 := by
    intro hzero
    have hsum := readable_add_writable h.valid
    have hr := h.valid.read_lt
    by_cases heq : rb.wOffset = rb.rOffset
    · have hlast : rb.lastOperation = .write := by
        by_contra hlast
        exact hnil ⟨hlast, heq⟩
      rw [readable, if_pos heq, if_pos hlast] at hzero
      omega
    · rw [readable_of_ne h.valid heq] at hzero
      have hw := h.valid.write_lt
      split at hzero <;> omega
  rw [RingBuffer.read, if_neg hne]
  rfl

theorem min_ne_zero (h : rb.Holds q) {len : ℕ} (hlen : len ≠ 0 ∨ ¬rb.IsFull) :
    min len rb.readable = 0 → ¬rb.IsFull := by
  intro hmin hfull
  have hlen' : len ≠ 0 := hlen.resolve_right (not_not.mpr hfull)
  have hsum := readable_add_writable h.valid
  have hr := h.valid.read_lt
  rw [hfull.writable_eq] at hsum
  omega

theorem write (h : rb.Holds q) {src : List UInt8} (hfull : ¬rb.IsFull)
    (hsrc : src ≠ [] ∨ ¬rb.IsNil) :
    (rb.write src).Holds { q with items := q.items ++ src.take q.free } := by
  have hpos := writable_pos h.valid hfull
  have hlength := length_contents h.valid
  have hsum := readable_add_writable h.valid
  by_cases hnil : src = []
  · have hne : rb.wOffset ≠ rb.rOffset := by
      intro heq
      by_cases hlast : rb.lastOperation = .write
      · exact hfull ⟨hlast, heq⟩
      · exact (hsrc.resolve_left (not_not.mpr hnil)) ⟨hlast, heq⟩
    have hwrite : rb.write src = { rb with lastOperation := .write } := by
      have hw := h.valid.write_lt
      rw [RingBuffer.write, if_neg (by omega), hnil]
      simp [copyIn, poke, hw.le, Nat.mod_eq_of_lt hw]
    rw [hwrite, hnil, List.take_nil, List.append_nil, ← h.contents]
    refine ⟨⟨h.valid.read_lt, h.valid.write_lt⟩, h.size, ?_⟩
    exact contents_eq_of_readable rfl rfl (readable_congr rfl rfl rfl hne)
  · have hlen := List.length_take (l := src) (i := rb.writable)
    have hsrcPos : 0 < src.length := List.length_pos_iff.mpr hnil
    have htake : src.take rb.writable ≠ [] := by
      rw [← List.length_pos_iff]
      omega
    obtain ⟨hvalid, hcont, hsize, -⟩ := write_spec h.valid htake (by omega)
    rw [← write_take] at hvalid hcont hsize
    rw [h.contents, h.writable_eq] at hcont
    exact ⟨hvalid, hsize.trans h.size, hcont⟩

theorem setSize (h : rb.Holds q) {mem : List UInt8}
    (hmem : mem.length = rb.size ∨ (rb.IsNil ∧ rb.rOffset < mem.length)) :
    (rb.setSize mem).Holds { q with cap := mem.length } := by
  rw [RingBuffer.setSize]
  split
  · next hne =>
      obtain ⟨hnil, hlt⟩ := hmem.resolve_left hne
      have hitems := h.items_eq_nil hnil
      refine ⟨⟨hlt, hnil.2.trans_lt hlt⟩, rfl, ?_⟩
      have hzero : readable { rb with addr := mem } = 0 :=
        IsNil.readable_eq ⟨hnil.1, hnil.2⟩
      rw [hitems, RingBuffer.contents, hzero, List.take_zero]
  · next heq => exact ⟨h.valid, (not_not.mp heq).symm, h.contents⟩

end Holds

/-! ## The calls that do not go through `write` and `read` -/

theorem copyToString_eq (h : rb.Holds q) {str : Str} {t : Text} (hstr : str.Holds t) {l : ℕ}
    (hpos : 0 < l) (hl : l ≤ rb.readable) (hnul : 0 ∉ rb.copyOut l)
    (hend : rb.rOffset < rb.wOffset ∨ l ≠ rb.size - rb.rOffset)
    (htakes : Str.Takes str.value_max_len str.value_len (rb.pieces l)) :
    ∃ str', rb.copyToString str l = some str' ∧ str'.Holds (t ++ rb.copyOut l) := by
  have hr := h.valid.read_lt
  have hw := h.valid.write_lt
  have hle := readable_le h.valid
  have hdrop : (rb.addr.drop rb.rOffset).length = rb.size - rb.rOffset := List.length_drop
  rw [copyOut] at hnul ⊢
  rw [pieces] at htakes
  rw [copyToString]
  by_cases hone : rb.rOffset < rb.wOffset ∨ l < rb.size - rb.rOffset
  · rw [if_pos hone] at hnul htakes ⊢
    rw [if_pos hone]
    have hshort : l ≤ (rb.addr.drop rb.rOffset).length := by
      rw [hdrop]
      rcases hone with hlt | hlt
      · have hread := readable_of_ne h.valid (Nat.ne_of_gt hlt)
        rw [if_pos hlt] at hread
        omega
      · exact hlt.le
    obtain ⟨str', happend, hstr', -⟩ := hstr.appendFrom hpos hshort hnul htakes.1
    exact ⟨str', happend, hstr'⟩
  · rw [if_neg hone] at hnul htakes ⊢
    rw [if_neg hone]
    rw [not_or] at hone
    rw [List.mem_append, not_or] at hnul
    have hne := hend.resolve_left hone.1
    have hlen : l - (rb.size - rb.rOffset) ≤ rb.addr.length := by
      change _ ≤ rb.size
      omega
    obtain ⟨str₁, hfirst, hstr₁, hmax⟩ :=
      hstr.appendFrom (by omega) hdrop.ge hnul.1 htakes.1
    have hlen₁ : str₁.value_len = str.value_len + (rb.size - rb.rOffset) := by
      rw [hstr₁.len_eq, hstr.len_eq, List.length_append, List.length_take_of_le hdrop.ge]
    have hsecond := htakes.2.1
    rw [← hmax, ← hlen₁] at hsecond
    obtain ⟨str', happend, hstr', -⟩ := hstr₁.appendFrom (by omega) hlen hnul.2 hsecond
    refine ⟨str', ?_, by rwa [List.append_assoc] at hstr'⟩
    rw [hfirst]
    exact happend

/-- The buffer after a text that fits was printed, with its NUL in a free place. -/
def printed (rb : RingBuffer) (text : List UInt8) : RingBuffer :=
  { rb with
    addr := poke rb.addr rb.wOffset (text ++ [0])
    wOffset := (rb.wOffset + text.length) % rb.size }

theorem Holds.printed (h : rb.Holds q) {text : List UInt8} (hlt : text.length < rb.writable)
    (hend : rb.wOffset + text.length < rb.size) :
    (rb.printed text).Holds { q with items := q.items ++ text.take q.free } := by
  have hr := h.valid.read_lt
  have hw := h.valid.write_lt
  have hsum := readable_add_writable h.valid
  have hlength := length_contents h.valid
  have hwEq := wOffset_eq h.valid
  have hpoke : rb.wOffset + (text ++ [0]).length ≤ rb.addr.length := by
    rw [List.length_append]
    exact hend
  have hsize : (rb.printed text).size = rb.size := Ring.length_poke hpoke
  have hwOff : (rb.printed text).wOffset = rb.wOffset + text.length := Nat.mod_eq_of_lt hend
  have hrOff : (rb.printed text).rOffset = rb.rOffset := rfl
  have hvalid : (rb.printed text).Valid := by
    constructor
    · rw [hsize]
      exact hr
    · rw [hsize, hwOff]
      exact hend
  have hread : (rb.printed text).readable = rb.readable + text.length := by
    by_cases heq : (rb.printed text).wOffset = (rb.printed text).rOffset
    · rw [hwOff, hrOff] at heq
      have hnone : rb.readable = 0 ∧ text.length = 0 := by
        split_ifs at hwEq <;> omega
      have hwr : rb.wOffset = rb.rOffset := by omega
      have hlast : rb.lastOperation ≠ .write := by
        intro hlast
        have hzero := hnone.1
        rw [readable, if_pos hwr, if_pos hlast] at hzero
        omega
      rw [hnone.1, hnone.2, readable, if_pos (by rw [hwOff, hrOff]; exact heq), if_neg]
      exact hlast
    · rw [readable_of_ne hvalid heq, hsize]
      rw [hwOff, hrOff] at heq ⊢
      split_ifs at hwEq ⊢ <;> omega
  have htake : text.take q.free = text := by
    rw [← h.writable_eq]
    exact List.take_of_length_le hlt.le
  refine ⟨hvalid, hsize.trans h.size, ?_⟩
  rw [htake, ← h.contents]
  refine List.ext_getElem? fun k ↦ ?_
  have hcell : ∀ j, (rb.printed text).addr[j]? =
      if j < rb.wOffset then rb.addr[j]?
      else if j < rb.wOffset + (text ++ [0]).length then (text ++ [0])[j - rb.wOffset]?
      else rb.addr[j]? := Ring.getElem?_poke hpoke
  rw [getElem?_contents hvalid, List.getElem?_append, getElem?_contents h.valid, hread, hsize,
    hlength, hrOff, hcell, List.length_append]
  by_cases hk : k < rb.readable
  · -- an old byte does not stand where the text or its NUL went
    rw [if_pos (show k < rb.readable + text.length by omega), if_pos hk, if_pos hk]
    split_ifs at hwEq ⊢ <;> first | rfl | (simp only [List.length_singleton] at *; omega)
  · rw [if_neg hk]
    by_cases hk' : k < rb.readable + text.length
    · have hpos : (if rb.rOffset + k < rb.size then rb.rOffset + k
          else rb.rOffset + k - rb.size) = rb.wOffset + (k - rb.readable) := by
        split_ifs at hwEq ⊢ <;> omega
      rw [if_pos hk', hpos, if_neg (by omega), if_pos (by simp; omega), Nat.add_sub_cancel_left,
        List.getElem?_append_left (by omega)]
    · rw [if_neg hk', List.getElem?_eq_none (by omega)]

/-! ## Runs -/

theorem Holds.readable_pos (h : rb.Holds q) (hn : ¬rb.IsNil) : 0 < rb.readable := by
  by_contra hnot
  have hzero : rb.readable = 0 := Nat.eq_zero_of_not_pos hnot
  have heq : rb.wOffset = rb.rOffset := by
    by_contra hne
    have hread := readable_of_ne h.valid hne
    have hr := h.valid.read_lt
    have hw := h.valid.write_lt
    split_ifs at hread <;> omega
  have hnotfull : ¬rb.IsFull := h.min_ne_zero (.inl Nat.one_ne_zero) (by rw [hzero, Nat.min_zero])
  by_cases hlast : rb.lastOperation = .write
  · exact hnotfull ⟨hlast, heq⟩
  · exact hn ⟨hlast, heq⟩

theorem Holds.getLen (h : rb.Holds q) (he : rb.lastOperation ≠ .na ∨ rb.wOffset ≠ rb.rOffset) :
    rb.getLen = q.items.length := by
  by_cases hop : rb.lastOperation = .na
  · have hne := he.resolve_left (not_not.mpr hop)
    rw [← h.readable_eq, RingBuffer.getLen, readable_of_ne h.valid hne]
    simp [hne]
  · rw [getLen_eq h.valid hop, h.contents]

theorem call_spec (h : rb.Holds q) {e : Op} (he : rb.Regular e) :
    ∃ rb', rb.call e = some (rb', answer q e) ∧ rb'.Holds (next q e) := by
  have hread := h.readable_eq
  have hfreeEq := h.writable_eq
  have htaken : ∀ len, rb.IsNil → q.items.take len = [] ∧ min len q.items.length = 0 ∧
      q.items.drop len = q.items := by
    intro len hnil
    simp [h.items_eq_nil hnil]
  have hfull : ∀ src : List UInt8, rb.IsFull → min src.length q.free = 0 ∧
      q.items ++ src.take q.free = q.items := by
    intro src hfull
    simp [h.free_eq_zero hfull]
  have hmin : ∀ len, min len rb.readable ≤ rb.readable := fun len ↦ Nat.min_le_right _ _
  cases e with
  | setSize mem => exact ⟨rb.setSize mem, rfl, h.setSize he⟩
  | write src =>
    rw [call, answer, next]
    by_cases hf : rb.IsFull
    · rw [if_pos hf, (hfull src hf).1, (hfull src hf).2]
      exact ⟨rb, rfl, h⟩
    · rw [if_neg hf, if_pos h.inRange, ← hfreeEq]
      exact ⟨rb.write src, rfl, hfreeEq ▸ h.write hf he⟩
  | read len =>
    rw [call, answer, next]
    by_cases hn : rb.IsNil
    · rw [if_pos hn, (htaken len hn).1, (htaken len hn).2.1, (htaken len hn).2.2]
      exact ⟨rb, rfl, h⟩
    · have hheld := h.advance (hmin len) (h.min_ne_zero he)
      rw [h.drop_min] at hheld
      rw [if_neg hn, if_pos h.inRange, h.read_eq len hn, h.copyOut_min, hread]
      exact ⟨_, rfl, hread ▸ hheld⟩
  | peek len =>
    rw [call, answer, next]
    by_cases hn : rb.IsNil
    · rw [if_pos hn, (htaken len hn).1, (htaken len hn).2.1]
      exact ⟨rb, rfl, h⟩
    · rw [if_neg hn, if_pos h.inRange, peek, h.copyOut_min, hread]
      exact ⟨rb, rfl, h⟩
  | readToString str len =>
    rw [call, answer, next]
    by_cases hn : rb.IsNil
    · rw [if_pos hn, (htaken len hn).1, (htaken len hn).2.1, (htaken len hn).2.2]
      exact ⟨rb, rfl, h⟩
    · obtain ⟨hlen, hnul, hend, htakes⟩ := he.resolve_left hn
      have hheld := h.advance (hmin len) (h.min_ne_zero (.inl hlen))
      have hpos : 0 < min len rb.readable :=
        Nat.lt_min.mpr ⟨Nat.pos_of_ne_zero hlen, h.readable_pos hn⟩
      rw [h.drop_min] at hheld
      rw [h.contents, ← h.copyOut_min] at hnul
      obtain ⟨str', hcopy, hstr'⟩ :=
        copyToString_eq h str.2 hpos (hmin len) hnul hend htakes
      rw [if_neg hn, if_pos h.inRange, hcopy, Option.map_some, str.2.added_eq hstr',
        h.copyOut_min, hread]
      exact ⟨_, rfl, hread ▸ hheld⟩
  | readToBuffer len =>
    rw [call, answer, next]
    by_cases hn : rb.lastOperation = .read ∧ rb.wOffset = rb.rOffset
    · have hnil : rb.IsNil := ⟨by simp [hn.1], hn.2⟩
      rw [if_pos hn, (htaken len hnil).1, (htaken len hnil).2.1, (htaken len hnil).2.2]
      exact ⟨rb, rfl, h⟩
    · have hheld := h.advance (hmin len) (h.min_ne_zero he)
      rw [h.drop_min] at hheld
      rw [if_neg hn, if_pos h.inRange, h.copyOut_min, hread]
      exact ⟨_, rfl, hread ▸ hheld⟩
  | memcopy src =>
    have hf : rb.IsFull := he
    rw [call, answer, next, if_pos hf, (hfull src hf).1, (hfull src hf).2]
    exact ⟨rb, rfl, h⟩
  | printf text =>
    rw [call, answer, next]
    by_cases hf : rb.IsFull
    · rw [if_pos hf, (hfull text hf).1, (hfull text hf).2]
      exact ⟨rb, rfl, h⟩
    · obtain ⟨hlt, hend⟩ := he.resolve_left hf
      have hout : vsnprintf rb.writable text = text ++ [0] := by
        rw [vsnprintf, List.take_of_length_le (by omega)]
      have hfits : rb.wOffset + (text ++ [0]).length ≤ rb.size := by
        rw [List.length_append]
        exact hend
      rw [if_neg hf, hout, if_pos ⟨h.inRange, hfits⟩, ← hfreeEq, Nat.min_eq_left hlt.le]
      exact ⟨rb.printed text, rfl, hfreeEq ▸ h.printed hlt hend⟩
  | getLen =>
    rw [call, answer, h.getLen he]
    exact ⟨rb, rfl, h⟩

def DEFAULT_BUFFER_SIZE : ℕ := 1024

end RingBuffer

end Libobject
