import Libobject.Lib.Bytes
import Libobject.Lib.Refine
import Libobject.Lib.Ring

/-!
# The ring buffer of messages

A message begins with its length, four bytes of the host, and is stored with it. The indices are
32-bit numbers and may stand at the end of the memory.
-/

namespace Libobject.Rbuf

inductive RwFlag
  | init
  | read
  | write
  deriving DecidableEq

/-- `ring_buffer_t`. The memory is as long as `buffer_len` says. -/
structure RingBufferT where
  bufferAddr : List UInt8
  writeIndex : ℕ
  readIndex : ℕ
  rwFlag : RwFlag
  deriving DecidableEq

def RingBufferT.bufferLen (rbuf : RingBufferT) : ℕ := rbuf.bufferAddr.length

/-- `rbuf_create`, `rbuf_set` and `rbuf_init`. -/
def init (mem : List UInt8) : RingBufferT := ⟨mem, 0, 0, .init⟩

/-- What `rbuf_write` is given: memory that holds a header and as many bytes as the header says. -/
structure Value where
  bytes : List UInt8
  header : 4 ≤ bytes.length
  body : leNat (bytes.take 4) ≤ bytes.length

/-- `head->len` of the header at the start of some memory. -/
def headLen (bs : List UInt8) : ℕ := leNat (bs.take 4)

def Value.len (v : Value) : ℕ := headLen v.bytes

def Value.message (v : Value) : List UInt8 := v.bytes.take v.len

def word : ℕ := 4294967296

/-- `rbuf_is_full`, on 32-bit numbers. -/
def isFull (rbuf : RingBufferT) (len : ℕ) : Prop :=
  ((rbuf.readIndex + word - rbuf.writeIndex + rbuf.bufferLen) % word) % (rbuf.bufferLen + 1) < len ∨
    (rbuf.readIndex = rbuf.writeIndex ∧ rbuf.rwFlag = .write)

instance (rbuf : RingBufferT) (len : ℕ) : Decidable (isFull rbuf len) :=
  inferInstanceAs (Decidable (_ ∨ _))

def isNull (rbuf : RingBufferT) : Prop :=
  rbuf.readIndex = rbuf.writeIndex ∧ rbuf.rwFlag = .read

instance (rbuf : RingBufferT) : Decidable (isNull rbuf) := inferInstanceAs (Decidable (_ ∧ _))

inductive Op
  | write (v : Value)
  | read

structure Answer where
  message : List UInt8
  ret : ℕ
  deriving DecidableEq

/-- `rbuf_write`. It is `none` where the sums or the lengths of the two pieces are out of range, or
a piece does not fit the memory. -/
def write (rbuf : RingBufferT) (v : Value) : Option (RingBufferT × Answer) :=
  let len := v.len
  if rbuf.bufferLen + 1 = word then none
  else if isFull rbuf len then some (rbuf, ⟨[], 0⟩)
  else if (rbuf.writeIndex + len) % word > rbuf.bufferLen then
    let firstWriteLen := rbuf.bufferLen - rbuf.writeIndex
    let residue := len - firstWriteLen
    if rbuf.bufferLen < rbuf.writeIndex ∨ len < firstWriteLen ∨ word / 2 ≤ firstWriteLen ∨
        word / 2 ≤ residue ∨ rbuf.bufferLen < residue then none
    else
      let mem := Ring.poke rbuf.bufferAddr rbuf.writeIndex (v.message.take firstWriteLen)
      let mem := Ring.poke mem 0 (v.message.drop firstWriteLen)
      some (⟨mem, residue, rbuf.readIndex, .write⟩, ⟨[], len⟩)
  else if rbuf.bufferLen < rbuf.writeIndex + len then none
  else
    some (⟨Ring.poke rbuf.bufferAddr rbuf.writeIndex v.message, rbuf.writeIndex + len,
      rbuf.readIndex, .write⟩, ⟨[], len⟩)

/-- `rbuf_read`. The header is read first, whether or not there is a message, and in one piece. -/
def read (rbuf : RingBufferT) : Option (RingBufferT × Answer) :=
  if rbuf.bufferLen < rbuf.readIndex + 4 then none
  else
    let len := headLen (rbuf.bufferAddr.drop rbuf.readIndex)
    if isNull rbuf then some (rbuf, ⟨[], 0⟩)
    else if (rbuf.readIndex + len) % word > rbuf.bufferLen then
      let firstReadLen := rbuf.bufferLen - rbuf.readIndex
      let residue := len - firstReadLen
      if len < firstReadLen ∨ word / 2 ≤ firstReadLen ∨ word / 2 ≤ residue ∨
          rbuf.bufferLen < residue then none
      else
        some (⟨rbuf.bufferAddr, rbuf.writeIndex, residue, .read⟩,
          ⟨rbuf.bufferAddr.drop rbuf.readIndex ++ rbuf.bufferAddr.take residue, len⟩)
    else if rbuf.bufferLen < rbuf.readIndex + len then none
    else
      some (⟨rbuf.bufferAddr, rbuf.writeIndex, rbuf.readIndex + len, .read⟩,
        ⟨(rbuf.bufferAddr.drop rbuf.readIndex).take len, len⟩)

def call (rbuf : RingBufferT) : Op → Option (RingBufferT × Answer)
  | .write v => write rbuf v
  | .read => read rbuf

/-! ## What it is for -/

/-- Messages in the order in which they were written, in a given room. -/
structure Fifo where
  cap : ℕ
  messages : List (List UInt8)
  deriving DecidableEq

/-- What a read returns. -/
def Fifo.oldest (q : Fifo) : Answer :=
  match q.messages with
  | [] => ⟨[], 0⟩
  | m :: _ => ⟨m, m.length⟩

/-- A write takes the message or returns zero, and it returns zero if there is no room. A read
returns the oldest message, or none. -/
def fifoSpec : Spec Fifo Op Answer where
  ok q e o :=
    match e with
    | .write v => o.message = [] ∧
        ((o.ret = v.len ∧ q.messages.flatten.length + v.len ≤ q.cap) ∨ o.ret = 0)
    | .read => o = q.oldest
  next q e o :=
    match e with
    | .write v => if o.ret = 0 then q else { q with messages := q.messages ++ [v.message] }
    | .read => { q with messages := q.messages.tail }

instance (q : Fifo) (o : Answer) : (e : Op) → Decidable (fifoSpec.ok q e o)
  | .write _ => inferInstanceAs (Decidable (_ ∧ _))
  | .read => inferInstanceAs (Decidable (o = _))

/-! ## When the calls do what they are for -/

/-- A message holds its header, a read does not meet a new buffer that is empty nor a header that
is split by the end of the memory, and the lengths of two pieces fit their 32 bits. -/
def Regular (rbuf : RingBufferT) : Op → Prop
  | .write v => rbuf.bufferLen < word / 2 ∧ 4 ≤ v.len
  | .read => rbuf.bufferLen < word / 2 ∧ rbuf.readIndex + 4 ≤ rbuf.bufferLen ∧
      (rbuf.rwFlag ≠ .init ∨ rbuf.readIndex ≠ rbuf.writeIndex)

instance decidableRegular (rbuf : RingBufferT) : (e : Op) → Decidable (Regular rbuf e)
  | .write _ => inferInstanceAs (Decidable (_ ∧ _))
  | .read => inferInstanceAs (Decidable (_ ∧ _))

/-! ## The messages are what the memory holds -/

/-- The bytes that lie between the indices are the messages. -/
structure Holds (rbuf : RingBufferT) (q : Fifo) : Prop where
  cap : rbuf.bufferLen = q.cap
  read_le : rbuf.readIndex ≤ rbuf.bufferLen
  write_le : rbuf.writeIndex ≤ rbuf.bufferLen
  used_le : q.messages.flatten.length ≤ rbuf.bufferLen
  window : Ring.window rbuf.bufferAddr rbuf.readIndex q.messages.flatten.length =
    q.messages.flatten
  place : rbuf.writeIndex = rbuf.readIndex + q.messages.flatten.length ∨
    rbuf.writeIndex + rbuf.bufferLen = rbuf.readIndex + q.messages.flatten.length
  write_pos : 0 < rbuf.writeIndex ∨ (rbuf.readIndex = 0 ∧ q.messages = [])
  headed : ∀ m ∈ q.messages, 4 ≤ m.length ∧ headLen m = m.length
  not_write : q.messages = [] → rbuf.rwFlag ≠ .write
  is_write : rbuf.readIndex = rbuf.writeIndex → q.messages ≠ [] → rbuf.rwFlag = .write

theorem holds_init (mem : List UInt8) : Holds (init mem) ⟨mem.length, []⟩ where
  cap := rfl
  read_le := Nat.zero_le _
  write_le := Nat.zero_le _
  used_le := Nat.zero_le _
  window := by simp [Ring.window]
  place := .inl rfl
  write_pos := .inr ⟨rfl, rfl⟩
  headed := by simp
  not_write := by simp [init]
  is_write := by simp

variable {rbuf : RingBufferT} {q : Fifo}

theorem Value.length_message (v : Value) : v.message.length = v.len := by
  have hbody := v.body
  rw [message, List.length_take, len, headLen]
  omega

theorem Value.headLen_message (v : Value) (h : 4 ≤ v.len) : headLen v.message = v.len := by
  rw [headLen, message, List.take_take, Nat.min_eq_left h]
  rfl

theorem Holds.room (h : Holds rbuf q) (hsmall : rbuf.bufferLen < word / 2) {len : ℕ}
    (hnot : ¬isFull rbuf len) : q.messages.flatten.length + len ≤ rbuf.bufferLen := by
  have hr := h.read_le
  have hw := h.write_le
  have hused := h.used_le
  have hplace := h.place
  have hpos := h.write_pos
  rw [isFull, not_or] at hnot
  obtain ⟨hfree, hflag⟩ := hnot
  rw [word] at hsmall hfree
  rcases Nat.lt_trichotomy rbuf.readIndex rbuf.writeIndex with hlt | heq | hlt
  · have hsum : rbuf.readIndex + 4294967296 - rbuf.writeIndex + rbuf.bufferLen =
        rbuf.bufferLen - (rbuf.writeIndex - rbuf.readIndex) + 4294967296 := by omega
    rw [hsum, Nat.add_mod_right, Nat.mod_eq_of_lt (by omega), Nat.mod_eq_of_lt (by omega)] at hfree
    omega
  · have hnone : q.messages = [] := by
      by_contra hne
      exact hflag ⟨heq, h.is_write heq hne⟩
    have hsum : rbuf.readIndex + 4294967296 - rbuf.writeIndex + rbuf.bufferLen =
        rbuf.bufferLen + 4294967296 := by omega
    rw [hsum, Nat.add_mod_right, Nat.mod_eq_of_lt (by omega), Nat.mod_eq_of_lt (by omega)] at hfree
    simp only [hnone, List.flatten_nil, List.length_nil]
    omega
  · have hsum : rbuf.readIndex + 4294967296 - rbuf.writeIndex + rbuf.bufferLen =
        rbuf.readIndex - rbuf.writeIndex - 1 + (rbuf.bufferLen + 1) + 4294967296 := by omega
    have hmod : (rbuf.readIndex - rbuf.writeIndex - 1 + (rbuf.bufferLen + 1)) % 4294967296 =
        rbuf.readIndex - rbuf.writeIndex - 1 + (rbuf.bufferLen + 1) :=
      Nat.mod_eq_of_lt (by omega)
    rw [hsum, Nat.add_mod_right, hmod, Nat.add_mod_right, Nat.mod_eq_of_lt (by omega)] at hfree
    omega

theorem flatten_append_singleton (ms : List (List UInt8)) (m : List UInt8) :
    (ms ++ [m]).flatten = ms.flatten ++ m := by simp

theorem Holds.stored (h : Holds rbuf q) {v : Value} (hlen : 4 ≤ v.len)
    (hroom : q.messages.flatten.length + v.len ≤ rbuf.bufferLen) {w : ℕ}
    (hw : w = rbuf.writeIndex + v.len ∧ w ≤ rbuf.bufferLen ∨
      w + rbuf.bufferLen = rbuf.writeIndex + v.len ∧ 0 < w) :
    Holds ⟨Ring.store rbuf.bufferAddr rbuf.writeIndex v.message, w, rbuf.readIndex, .write⟩
      { q with messages := q.messages ++ [v.message] } := by
  have hr := h.read_le
  have hwle := h.write_le
  have hplace := h.place
  have hmessage := v.length_message
  have hsize : (Ring.store rbuf.bufferAddr rbuf.writeIndex v.message).length = rbuf.bufferLen :=
    Ring.length_store hwle (by rw [hmessage]; change _ ≤ rbuf.bufferLen; omega)
  have hflat : (q.messages ++ [v.message]).flatten.length =
      q.messages.flatten.length + v.len := by
    rw [flatten_append_singleton, List.length_append, hmessage]
  refine ⟨hsize.trans h.cap, ?_, ?_, ?_, ?_, ?_, ?_, ?_, ?_, ?_⟩
  · exact hr.trans_eq hsize.symm
  · change w ≤ List.length _
    rw [hsize]
    omega
  · change List.length _ ≤ List.length _
    rw [hflat, hsize]
    exact hroom
  · dsimp only
    rw [hflat, flatten_append_singleton, ← hmessage]
    have hfit : q.messages.flatten.length + v.message.length ≤ rbuf.bufferAddr.length := by
      rw [hmessage]
      exact hroom
    have hstore := Ring.window_store hr hwle hfit hplace
    rw [hstore, h.window]
  · change w = rbuf.readIndex + _ ∨ w + List.length _ = rbuf.readIndex + _
    rw [hflat, hsize]
    omega
  · refine .inl ?_
    change 0 < w
    omega
  · intro m hm
    rcases List.mem_append.mp hm with hm | hm
    · exact h.headed m hm
    · rw [List.mem_singleton.mp hm, hmessage]
      exact ⟨hlen, v.headLen_message hlen⟩
  · simp
  · intro _ _
    rfl

theorem write_spec (h : Holds rbuf q) {v : Value} (hv : Regular rbuf (.write v)) :
    ∃ rbuf' o, write rbuf v = some (rbuf', o) ∧ fifoSpec.ok q (.write v) o ∧
      Holds rbuf' (fifoSpec.next q (.write v) o) := by
  obtain ⟨hsmall, hlen⟩ := hv
  have hr := h.read_le
  have hw := h.write_le
  have hmessage := v.length_message
  have hword : ¬rbuf.bufferLen + 1 = word := by
    rw [word] at hsmall ⊢
    omega
  by_cases hfull : isFull rbuf v.len
  · refine ⟨rbuf, ⟨[], 0⟩, ?_, ⟨rfl, .inr rfl⟩, h⟩
    simp only [write, if_neg hword, if_pos hfull]
  · have hroom := h.room hsmall hfull
    have hmod : (rbuf.writeIndex + v.len) % word = rbuf.writeIndex + v.len := by
      refine Nat.mod_eq_of_lt ?_
      rw [word] at hsmall ⊢
      omega
    have hne : v.len ≠ 0 := by omega
    have hnext : ∀ o : Answer, o.ret = v.len → fifoSpec.next q (.write v) o =
        { q with messages := q.messages ++ [v.message] } := by
      intro o ho
      simp only [fifoSpec, ho, if_neg hne]
    by_cases hwrap : rbuf.bufferLen < rbuf.writeIndex + v.len
    · have hpieces : ¬(rbuf.bufferLen < rbuf.writeIndex ∨
          v.len < rbuf.bufferLen - rbuf.writeIndex ∨
          word / 2 ≤ rbuf.bufferLen - rbuf.writeIndex ∨
          word / 2 ≤ v.len - (rbuf.bufferLen - rbuf.writeIndex) ∨
          rbuf.bufferLen < v.len - (rbuf.bufferLen - rbuf.writeIndex)) := by omega
      have hstore : Ring.poke (Ring.poke rbuf.bufferAddr rbuf.writeIndex
          (v.message.take (rbuf.bufferLen - rbuf.writeIndex))) 0
          (v.message.drop (rbuf.bufferLen - rbuf.writeIndex)) =
          Ring.store rbuf.bufferAddr rbuf.writeIndex v.message := by
        rw [Ring.store, if_neg]
        · rfl
        · rw [hmessage]
          exact hwrap.not_ge
      refine ⟨⟨Ring.store rbuf.bufferAddr rbuf.writeIndex v.message,
          v.len - (rbuf.bufferLen - rbuf.writeIndex), rbuf.readIndex, .write⟩, ⟨[], v.len⟩, ?_,
        ⟨rfl, .inl ⟨rfl, hroom.trans_eq h.cap⟩⟩, ?_⟩
      · simp only [write, if_neg hword, if_neg hfull, hmod, if_pos hwrap, if_neg hpieces, hstore]
      · rw [hnext _ rfl]
        exact h.stored hlen hroom (.inr ⟨by omega, by omega⟩)
    · have hstore : Ring.poke rbuf.bufferAddr rbuf.writeIndex v.message =
          Ring.store rbuf.bufferAddr rbuf.writeIndex v.message := by
        rw [Ring.store, if_pos]
        rw [hmessage]
        exact Nat.le_of_not_lt hwrap
      refine ⟨⟨Ring.store rbuf.bufferAddr rbuf.writeIndex v.message, rbuf.writeIndex + v.len,
          rbuf.readIndex, .write⟩, ⟨[], v.len⟩, ?_, ⟨rfl, .inl ⟨rfl, hroom.trans_eq h.cap⟩⟩, ?_⟩
      · simp only [write, if_neg hword, if_neg hfull, hmod, if_neg hwrap, hstore]
      · rw [hnext _ rfl]
        exact h.stored hlen hroom (.inl ⟨rfl, by omega⟩)

theorem Holds.taken {cap : ℕ} {m : List UInt8} {ms : List (List UInt8)}
    (h : Holds rbuf ⟨cap, m :: ms⟩) {r : ℕ}
    (hr : r = rbuf.readIndex + m.length ∧ r ≤ rbuf.bufferLen ∨
      r + rbuf.bufferLen = rbuf.readIndex + m.length ∧ 0 < r) :
    Holds ⟨rbuf.bufferAddr, rbuf.writeIndex, r, .read⟩ ⟨cap, ms⟩ := by
  have hrle := h.read_le
  have hwle := h.write_le
  have hused := h.used_le
  have hplace := h.place
  have hpos := h.write_pos
  have hwindow := h.window
  have hm := (h.headed m List.mem_cons_self).1
  have hflat : (m :: ms).flatten = m ++ ms.flatten := List.flatten_cons
  have hflatLen : (m :: ms).flatten.length = m.length + ms.flatten.length := by
    rw [hflat, List.length_append]
  simp only [List.cons_ne_nil, and_false, or_false] at hpos
  rw [hflatLen] at hused hplace hwindow
  have hle : r ≤ rbuf.bufferLen := by omega
  have hfinal : r + ms.flatten.length = rbuf.writeIndex ∨
      r + ms.flatten.length = rbuf.writeIndex + rbuf.bufferLen := by omega
  have hnil : ms.flatten.length = 0 → ms = [] := by
    intro hzero
    cases ms with
    | nil => rfl
    | cons m' ms' =>
      have hm' := (h.headed m' (by simp)).1
      rw [List.flatten_cons, List.length_append] at hzero
      omega
  refine ⟨h.cap, hle, hwle, ?_, ?_, ?_, .inl hpos, ?_, ?_, ?_⟩
  · change ms.flatten.length ≤ rbuf.bufferLen
    omega
  · have hrle' : rbuf.readIndex ≤ rbuf.bufferAddr.length := hrle
    have hused' : m.length + ms.flatten.length ≤ rbuf.bufferAddr.length := hused
    have hplace : r = rbuf.readIndex + m.length ∨
        r + rbuf.bufferAddr.length = rbuf.readIndex + m.length := by
      change _ ∨ r + rbuf.bufferLen = _
      omega
    have hdrop := Ring.window_drop hrle' hused' (Nat.le_add_right _ _) hle hplace
    rw [Nat.add_sub_cancel_left] at hdrop
    dsimp only
    rw [hdrop, hwindow, hflat, List.drop_left]
  · change rbuf.writeIndex = r + ms.flatten.length ∨
      rbuf.writeIndex + rbuf.bufferLen = r + ms.flatten.length
    omega
  · exact fun m' hm' ↦ h.headed m' (List.mem_cons_of_mem m hm')
  · simp
  · intro heq hne
    change r = rbuf.writeIndex at heq
    have hne' : ms.flatten.length ≠ 0 := fun hzero ↦ hne (hnil hzero)
    omega

theorem read_spec (h : Holds rbuf q) (hread : Regular rbuf .read) :
    ∃ rbuf' o, read rbuf = some (rbuf', o) ∧ fifoSpec.ok q .read o ∧
      Holds rbuf' (fifoSpec.next q .read o) := by
  obtain ⟨hsmall, hhead, hinit⟩ := hread
  have hheadNot : ¬rbuf.bufferLen < rbuf.readIndex + 4 := by omega
  obtain ⟨cap, messages⟩ := q
  cases messages with
  | nil =>
    have hplace := h.place
    have hpos := h.write_pos
    have heq : rbuf.readIndex = rbuf.writeIndex := by
      simp only [List.flatten_nil, List.length_nil] at hplace
      omega
    have hnull : isNull rbuf := by
      refine ⟨heq, ?_⟩
      have hnw := h.not_write rfl
      have hni := hinit.resolve_right (not_not.mpr heq)
      cases hflag : rbuf.rwFlag with
      | init => exact (hni hflag).elim
      | read => rfl
      | write => exact (hnw hflag).elim
    refine ⟨rbuf, ⟨[], 0⟩, ?_, rfl, h⟩
    simp only [read, if_neg hheadNot, if_pos hnull]
  | cons m ms =>
    have hnotNull : ¬isNull rbuf := by
      rintro ⟨heq, hflag⟩
      have hw := h.is_write heq (by simp)
      rw [hflag] at hw
      cases hw
    obtain ⟨hm, hmhead⟩ := h.headed m List.mem_cons_self
    have hused := h.used_le
    have hrle := h.read_le
    have hwindow := h.window
    rw [List.flatten_cons, List.length_append] at hused
    have hfirst : ∀ k, k ≤ m.length →
        Ring.window rbuf.bufferAddr rbuf.readIndex k = m.take k := by
      intro k hk
      rw [← Ring.take_window (n := (m :: ms).flatten.length), hwindow, List.flatten_cons,
        List.take_append_of_le_length hk]
      rw [List.flatten_cons, List.length_append]
      omega
    have hlen : headLen (rbuf.bufferAddr.drop rbuf.readIndex) = m.length := by
      rw [headLen, ← Ring.window_one (by change _ ≤ rbuf.bufferLen; omega), hfirst 4 hm]
      exact hmhead
    have hmod : (rbuf.readIndex + m.length) % word = rbuf.readIndex + m.length := by
      refine Nat.mod_eq_of_lt ?_
      rw [word] at hsmall ⊢
      omega
    have hmessage := hfirst m.length le_rfl
    rw [List.take_length] at hmessage
    by_cases hwrap : rbuf.bufferLen < rbuf.readIndex + m.length
    · have hpieces : ¬(m.length < rbuf.bufferLen - rbuf.readIndex ∨
          word / 2 ≤ rbuf.bufferLen - rbuf.readIndex ∨
          word / 2 ≤ m.length - (rbuf.bufferLen - rbuf.readIndex) ∨
          rbuf.bufferLen < m.length - (rbuf.bufferLen - rbuf.readIndex)) := by omega
      have hwrap' : rbuf.bufferAddr.length < rbuf.readIndex + m.length := hwrap
      have hfull : m.length ≤ rbuf.bufferAddr.length := by
        change _ ≤ rbuf.bufferLen
        omega
      have htwo := Ring.window_two hwrap' hrle hfull
      rw [hmessage] at htwo
      refine ⟨⟨rbuf.bufferAddr, rbuf.writeIndex, m.length - (rbuf.bufferLen - rbuf.readIndex),
        .read⟩, ⟨m, m.length⟩, ?_, rfl, h.taken (.inr ⟨by omega, by omega⟩)⟩
      have hbytes : rbuf.bufferAddr.drop rbuf.readIndex ++
          rbuf.bufferAddr.take (m.length - (rbuf.bufferLen - rbuf.readIndex)) = m := htwo.symm
      simp only [read, if_neg hheadNot, if_neg hnotNull, hlen, hmod, if_pos hwrap,
        if_neg hpieces, hbytes]
    · have hwrap' : rbuf.readIndex + m.length ≤ rbuf.bufferAddr.length := Nat.le_of_not_lt hwrap
      have hone := Ring.window_one hwrap'
      rw [hmessage] at hone
      refine ⟨⟨rbuf.bufferAddr, rbuf.writeIndex, rbuf.readIndex + m.length, .read⟩,
        ⟨m, m.length⟩, ?_, rfl, h.taken (.inl ⟨rfl, by omega⟩)⟩
      simp only [read, if_neg hheadNot, if_neg hnotNull, hlen, hmod, if_neg hwrap, ← hone]

/-! ## Runs -/

/-- From a new buffer over any memory, every run of regular calls is a run of the queue; the indices
stay within the memory, and a message for which there is no room changes nothing. -/
theorem refines_fifo (mem : List UInt8) (es : List Op)
    (hrun : Refine.Within call fifoSpec Regular (init mem) ⟨mem.length, []⟩ es) :
    Refine.Refines call fifoSpec (init mem) ⟨mem.length, []⟩ es ∧
      ∀ rbuf q, Run.final (Refine.step call fifoSpec) (some (init mem), ⟨mem.length, []⟩) es =
          (some rbuf, q) →
        rbuf.readIndex ≤ rbuf.bufferLen ∧ rbuf.writeIndex ≤ rbuf.bufferLen ∧
          ∀ v, Regular rbuf (.write v) → rbuf.bufferLen < q.messages.flatten.length + v.len →
            write rbuf v = some (rbuf, ⟨[], 0⟩) := by
  have hsim : ∀ rbuf q e, Holds rbuf q → Regular rbuf e →
      ∃ rbuf' o, call rbuf e = some (rbuf', o) ∧ fifoSpec.ok q e o ∧
        Holds rbuf' (fifoSpec.next q e o) := by
    intro rbuf q e h he
    cases e with
    | write v => exact write_spec h he
    | read => exact read_spec h he
  obtain ⟨⟨rbuf', q', hfinal, hheld⟩, hrefines⟩ :=
    Refine.refines_of_simulation hsim (holds_init mem) hrun
  refine ⟨hrefines, fun rbuf q heq ↦ ?_⟩
  rw [hfinal, Prod.mk.injEq, Option.some.injEq] at heq
  obtain ⟨rfl, rfl⟩ := heq
  refine ⟨hheld.read_le, hheld.write_le, fun v hv hlt ↦ ?_⟩
  have hfull : isFull rbuf' v.len := by
    by_contra hnot
    have hroom := hheld.room hv.1 hnot
    omega
  have hword : ¬rbuf'.bufferLen + 1 = word := by
    have hsmall := hv.1
    rw [word] at hsmall ⊢
    omega
  simp only [write, if_neg hword, if_pos hfull]

def fillBytes (n : Fin 256) (c : UInt8) : List UInt8 :=
  UInt8.ofNat n.val :: 0 :: 0 :: 0 :: List.replicate (n.val - 4) c

theorem four_le_length_fillBytes (n : Fin 256) (c : UInt8) : 4 ≤ (fillBytes n c).length := by
  simp [fillBytes]

theorem leNat_fillBytes_le (n : Fin 256) (c : UInt8) :
    leNat ((fillBytes n c).take 4) ≤ (fillBytes n c).length := by
  have hn : (UInt8.ofNat n.val).toNat = n.val := by
    rw [UInt8.toNat_ofNat']
    exact Nat.mod_eq_of_lt n.isLt
  simp only [fillBytes, List.take_succ_cons, List.take_zero, leNat, hn, List.length_cons,
    List.length_replicate, UInt8.toNat_zero]
  omega

/-- A message of `n` bytes, header included, whose body is all `c`. -/
def Value.fill (n : Fin 256) (c : UInt8) : Value :=
  ⟨fillBytes n c, four_le_length_fillBytes n c, leNat_fillBytes_le n c⟩

theorem refines_fifo_wrap :
    Refine.Refines call fifoSpec (init (List.replicate 16 0)) ⟨16, []⟩
      [.write (.fill 6 1), .write (.fill 5 2), .read, .write (.fill 5 3), .read,
        .write (.fill 6 4), .write (.fill 9 5), .read] :=
  (refines_fifo _ _ (by decide)).1

/-- A read of a new buffer takes whatever its memory holds for a message. -/
theorem not_refines_fifo_read_new :
    ¬∀ (mem : List UInt8) (es : List Op),
      Refine.Refines call fifoSpec (init mem) ⟨mem.length, []⟩ es := by
  intro h
  have hrun := h [5, 0, 0, 0, 1, 2, 3, 4] [.read]
  exact absurd hrun (by decide)

end Libobject.Rbuf
