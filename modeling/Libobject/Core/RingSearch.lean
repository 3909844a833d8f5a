import Libobject.Core.RingQueue
import Libobject.Core.IoBuffer
import Libobject.Lib.Occurs
import Mathlib.Data.List.Find

/-!
# Searching a ring buffer

Where a needle first stands in the bytes that the buffer holds, also around the end of its memory,
and the line that is read off the front up to there. What is read into a stream buffer goes there in
one piece or in two.
-/

namespace Libobject

open Scan

/-- The first place of `needle` in `hay`. -/
def offset? (needle hay : List UInt8) : Option ℕ :=
  if hay.length < needle.length then none
  else (List.range (hay.length - needle.length + 1)).find? fun i ↦
    (hay.drop i).take needle.length = needle

def CRLF : Text := [13, 10]

namespace RingBuffer

/-- `memcmp` at the `cnt`-th byte: in one piece, behind the end of the memory, or around it. -/
def matchAt (rb : RingBuffer) (needle : List UInt8) (cnt : ℕ) : Bool :=
  if rb.rOffset + cnt + needle.length ≤ rb.size then
    (rb.addr.drop (rb.rOffset + cnt)).take needle.length = needle
  else if rb.size ≤ rb.rOffset + cnt then
    (rb.addr.drop ((cnt + rb.rOffset) % rb.size)).take needle.length = needle
  else
    let k := rb.size - (rb.rOffset + cnt)
    (rb.addr.drop (rb.rOffset + cnt)).take k = needle.take k ∧
      rb.addr.take (needle.length - k) = needle.drop k

/-- The offset in the memory of the place that is found. -/
def find (rb : RingBuffer) (needle : List UInt8) : Option ℕ :=
  if rb.getLen < needle.length then none
  else
    ((List.range (rb.getLen - needle.length + 1)).find? (rb.matchAt needle)).map fun cnt ↦
      if rb.size ≤ rb.rOffset + cnt then (cnt + rb.rOffset) % rb.size else rb.rOffset + cnt

/-- `none` stands for -1. -/
def get_needle_offset (rb : RingBuffer) (needle : List UInt8) : Option ℕ :=
  (rb.find needle).map fun a ↦
    if rb.rOffset < a then a - rb.rOffset else (a + rb.size - rb.rOffset) % rb.size

/-- What `read_to_buffer` writes for `l` bytes. There is memory for a larger buffer. -/
def copyToBuffer (rb : RingBuffer) (b : IoBuffer) (l : ℕ) : Option IoBuffer :=
  if rb.rOffset < rb.wOffset ∨ l < rb.size - rb.rOffset then
    (b.write ((rb.addr.drop rb.rOffset).take l) true).map Prod.fst
  else do
    let (b, _) ← b.write ((rb.addr.drop rb.rOffset).take (rb.size - rb.rOffset)) true
    let (b, _) ← b.write (rb.addr.take (l - (rb.size - rb.rOffset))) true
    return b

def read_to_buffer (rb : RingBuffer) (b : IoBuffer) (len : ℕ) :
    Option (RingBuffer × IoBuffer) :=
  if rb.lastOperation = .read ∧ rb.wOffset = rb.rOffset then some (rb, b)
  else
    (rb.copyToBuffer b (min len rb.readable)).map fun b ↦ (rb.advance (min len rb.readable), b)

variable {rb : RingBuffer} {q : ByteQueue}

/-! ## The place that is found -/

theorem take_drop_eq_iff (hay needle : List UInt8) (i : ℕ) :
    (hay.drop i).take needle.length = needle ↔ ∀ j < needle.length, hay[i + j]? = needle[j]? := by
  constructor
  · intro h j hj
    rw [← h, List.getElem?_take_of_lt hj, List.getElem?_drop]
  · intro h
    refine List.ext_getElem? fun j ↦ ?_
    rcases Nat.lt_or_ge j needle.length with hj | hj
    · rw [List.getElem?_take_of_lt hj, List.getElem?_drop, h j hj]
    · rw [List.getElem?_eq_none hj, List.getElem?_eq_none]
      simpa using .inl hj

theorem matchAt_iff (h : rb.Valid) {needle : List UInt8} {cnt : ℕ}
    (hcnt : cnt + needle.length ≤ rb.readable) :
    rb.matchAt needle cnt = true ↔ (rb.contents.drop cnt).take needle.length = needle := by
  have hr := h.read_lt
  have hle := readable_le h
  have hlen := length_contents h
  have hsize : rb.addr.length = rb.size := rfl
  have hcell : ∀ j < needle.length, rb.contents[cnt + j]? =
      rb.addr[if rb.rOffset + (cnt + j) < rb.size then rb.rOffset + (cnt + j)
        else rb.rOffset + (cnt + j) - rb.size]? := by
    intro j hj
    rw [getElem?_contents h, if_pos (by omega)]
  rw [take_drop_eq_iff, matchAt]
  split_ifs with hone hwrap
  · rw [decide_eq_true_iff, take_drop_eq_iff]
    refine forall₂_congr fun j hj ↦ ?_
    rw [hcell j hj, if_pos (by omega), Nat.add_assoc]
  · have hmod : (cnt + rb.rOffset) % rb.size = rb.rOffset + cnt - rb.size := by
      rw [Nat.mod_eq_sub_mod (by omega), Nat.mod_eq_of_lt (by omega), Nat.add_comm]
    rw [decide_eq_true_iff, hmod, take_drop_eq_iff]
    refine forall₂_congr fun j hj ↦ ?_
    rw [hcell j hj, if_neg (by omega)]
    have hidx : rb.rOffset + cnt - rb.size + j = rb.rOffset + (cnt + j) - rb.size := by omega
    rw [hidx]
  · -- the needle stands around the end of the memory
    obtain ⟨k, hk⟩ : ∃ k, k = rb.size - (rb.rOffset + cnt) := ⟨_, rfl⟩
    have hklt : k < needle.length := by omega
    rw [decide_eq_true_iff, ← hk]
    have hfirst := take_drop_eq_iff rb.addr (needle.take k) (rb.rOffset + cnt)
    have hsecond := take_drop_eq_iff rb.addr (needle.drop k) 0
    rw [List.length_take, Nat.min_eq_left hklt.le] at hfirst
    rw [List.length_drop, List.drop_zero] at hsecond
    rw [hfirst, hsecond]
    constructor
    · rintro ⟨hbefore, hbehind⟩ j hj
      rw [hcell j hj]
      rcases Nat.lt_or_ge j k with hjk | hjk
      · rw [if_pos (by omega), ← Nat.add_assoc, hbefore j hjk, List.getElem?_take_of_lt hjk]
      · have hback := hbehind (j - k) (by omega)
        rw [List.getElem?_drop, Nat.zero_add, Nat.add_sub_cancel' hjk] at hback
        rw [if_neg (by omega), ← hback]
        congr 1
        omega
    · intro hall
      refine ⟨fun j hj ↦ ?_, fun j hj ↦ ?_⟩
      · have hget := hall j (by omega)
        rw [hcell j (by omega), if_pos (by omega), ← Nat.add_assoc] at hget
        rw [hget, List.getElem?_take_of_lt hj]
      · have hget := hall (k + j) (by omega)
        rw [hcell (k + j) (by omega), if_neg (by omega)] at hget
        rw [List.getElem?_drop, ← hget]
        congr 1
        omega

theorem isFirst_offset? (needle hay : List UInt8) : IsFirst needle hay (offset? needle hay) := by
  rw [offset?]
  split_ifs with hlong
  · exact fun i ↦ not_occursAt_of_length_lt hlong
  · exact isFirst_find? (Nat.not_lt.mp hlong)

theorem find_contents (h : rb.Valid) (hop : rb.lastOperation ≠ .na) (needle : List UInt8) :
    rb.find needle = (offset? needle rb.contents).map fun i ↦ (rb.rOffset + i) % rb.size := by
  have hlength := length_contents h
  rw [find, offset?, getLen_eq h hop]
  split_ifs with hlong
  · rfl
  · have hfind : (List.range (rb.contents.length - needle.length + 1)).find? (rb.matchAt needle) =
        (List.range (rb.contents.length - needle.length + 1)).find?
          fun i ↦ (rb.contents.drop i).take needle.length = needle := by
      apply List.find?_congr
      intro i hi
      have hlt := List.mem_range.mp hi
      rw [Bool.eq_iff_iff, decide_eq_true_iff]
      exact matchAt_iff h (by omega)
    rw [hfind]
    congr 1
    funext i
    split_ifs with hwrap
    · rw [Nat.add_comm]
    · exact (Nat.mod_eq_of_lt (Nat.not_le.mp hwrap)).symm

theorem lt_size_of_offset? (h : rb.Valid) {needle : List UInt8} {i : ℕ}
    (hi : offset? needle rb.contents = some i) : i < rb.size := by
  have hr := h.read_lt
  have hle := readable_le h
  have hlength := length_contents h
  have hfirst := isFirst_offset? needle rb.contents
  rw [hi] at hfirst
  have hlen := hfirst.1.le
  by_cases hnil : needle = []
  · subst hnil
    have hzero := hfirst.2 0 (occursAt_nil.mpr (Nat.zero_le _))
    omega
  · have hpos := List.length_pos_iff.mpr hnil
    omega

theorem get_needle_offset_eq (h : rb.Valid) (hop : rb.lastOperation ≠ .na) (needle : List UInt8) :
    rb.get_needle_offset needle = offset? needle rb.contents := by
  rw [get_needle_offset, find_contents h hop, Option.map_map]
  cases hplace : offset? needle rb.contents with
  | none => rfl
  | some i =>
    have hr := h.read_lt
    have hlt := lt_size_of_offset? h hplace
    rw [Option.map_some, Function.comp_apply, wrap_eq hr hlt.le]
    congr 1
    split_ifs with hend hgt hgt
    · omega
    · have hzero : i = 0 := by omega
      rw [hzero, Nat.add_zero, Nat.add_sub_cancel_left, Nat.mod_self]
    · omega
    · rw [Nat.mod_eq_of_lt (by omega)]
      omega

end RingBuffer

theorem offset?_crlf {line : Text} (hline : 13 ∉ line) (rest : List UInt8) :
    offset? CRLF (line ++ (CRLF ++ rest)) = some line.length := by
  have hlen : (line ++ (CRLF ++ rest)).length = line.length + (2 + rest.length) := by
    rw [List.length_append, List.length_append]
    rfl
  have htwo : CRLF.length = 2 := rfl
  rw [offset?, if_neg (by omega), List.find?_range_eq_some]
  refine ⟨?_, ?_, ?_⟩
  · rw [decide_eq_true_iff, List.drop_left, htwo]
    rfl
  · rw [List.mem_range]
    omega
  · intro j hj
    rw [Bool.not_eq_true', decide_eq_false_iff_not, htwo]
    intro hmatch
    rw [List.drop_append_of_le_length hj.le, List.drop_eq_getElem_cons hj] at hmatch
    exact hline ((List.cons.inj hmatch).1 ▸ List.getElem_mem hj)

theorem offset?_crlf_none {s : Text} (h : 13 ∉ s.dropLast) : offset? CRLF s = none := by
  rw [offset?]
  split
  · rfl
  · next hlen =>
      rw [List.find?_eq_none]
      intro i hi
      have hlt := List.mem_range.mp hi
      have htwo : CRLF.length = 2 := rfl
      rw [decide_eq_true_iff, htwo]
      intro hmatch
      have hi' : i < s.length := by omega
      rw [List.drop_eq_getElem_cons hi'] at hmatch
      have hhead : s[i] = 13 := (List.cons.inj hmatch).1
      refine h (hhead ▸ ?_)
      have hget : s.dropLast[i]? = some s[i] := by
        rw [List.getElem?_dropLast, if_pos (by omega), List.getElem?_eq_getElem hi']
      exact List.mem_of_getElem? hget

end Libobject
