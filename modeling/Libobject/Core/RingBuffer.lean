import Libobject.Lib.Ring

/-!
# The ring buffer

The memory, the two offsets and the last operation, which tells a full buffer from an empty one.
What the buffer holds is a queue of bytes; a write appends to it, a peek looks at its front and a
read takes its front away.
-/

namespace Libobject

inductive RingBuffer.Operation
  | na
  | read
  | write
  deriving DecidableEq

structure RingBuffer where
  addr : List UInt8
  rOffset : ℕ
  wOffset : ℕ
  lastOperation : RingBuffer.Operation
  deriving DecidableEq

namespace RingBuffer

def size (rb : RingBuffer) : ℕ := rb.addr.length

/-- A new object whose memory holds `mem`. -/
def new (mem : List UInt8) : RingBuffer := ⟨mem, 0, 0, .na⟩

/-- New memory, unless the buffer has that size already. The offsets stay. -/
def setSize (rb : RingBuffer) (mem : List UInt8) : RingBuffer :=
  if mem.length ≠ rb.size then { rb with addr := mem } else rb

def getLen (rb : RingBuffer) : ℕ :=
  if rb.rOffset < rb.wOffset then rb.wOffset - rb.rOffset
  else if rb.lastOperation = .read ∧ rb.wOffset = rb.rOffset then 0
  else rb.wOffset + rb.size - rb.rOffset

/-- The number of bytes that a read can take. -/
def readable (rb : RingBuffer) : ℕ :=
  if rb.wOffset = rb.rOffset then if rb.lastOperation = .write then rb.size else 0
  else (rb.wOffset + rb.size - rb.rOffset) % rb.size

/-- The number of bytes that a write can accept. -/
def writable (rb : RingBuffer) : ℕ :=
  if rb.wOffset = rb.rOffset then if rb.lastOperation = .write then 0 else rb.size
  else (rb.rOffset + rb.size - rb.wOffset) % rb.size

/-- The `l` bytes from the read offset on, in one piece or in two. -/
def copyOut (rb : RingBuffer) (l : ℕ) : List UInt8 :=
  if rb.rOffset < rb.wOffset ∨ l < rb.size - rb.rOffset then (rb.addr.drop rb.rOffset).take l
  else
    (rb.addr.drop rb.rOffset).take (rb.size - rb.rOffset) ++
      rb.addr.take (l - (rb.size - rb.rOffset))

def peek (rb : RingBuffer) (len : ℕ) : List UInt8 := rb.copyOut (min len rb.readable)

def read (rb : RingBuffer) (len : ℕ) : List UInt8 × RingBuffer :=
  if rb.readable = 0 then ([], rb)
  else
    let l := min len rb.readable
    (rb.copyOut l,
      { rb with rOffset := (rb.rOffset + l) % rb.size, lastOperation := .read })

def poke (addr : List UInt8) (offset : ℕ) (src : List UInt8) : List UInt8 :=
  addr.take offset ++ src ++ addr.drop (offset + src.length)

/-- Store `src` from the write offset on, in one piece or in two. -/
def copyIn (rb : RingBuffer) (src : List UInt8) : List UInt8 :=
  if rb.wOffset + src.length ≤ rb.size then poke rb.addr rb.wOffset src
  else
    let n := rb.size - rb.wOffset
    poke (poke rb.addr rb.wOffset (src.take n)) 0 (src.drop n)

def write (rb : RingBuffer) (src : List UInt8) : RingBuffer :=
  if rb.writable = 0 then rb
  else
    let l := min src.length rb.writable
    { rb with
      addr := rb.copyIn (src.take l)
      wOffset := (rb.wOffset + l) % rb.size
      lastOperation := .write }

/-! ## The queue of bytes -/

structure Valid (rb : RingBuffer) : Prop where
  read_lt : rb.rOffset < rb.size
  write_lt : rb.wOffset < rb.size

/-- The bytes that the buffer holds, in the order in which they are read. -/
def contents (rb : RingBuffer) : List UInt8 :=
  (rb.addr.drop rb.rOffset ++ rb.addr.take rb.rOffset).take rb.readable

variable {rb : RingBuffer}

theorem valid_new {mem : List UInt8} (h : mem ≠ []) : (new mem).Valid :=
  ⟨List.length_pos_iff.mpr h, List.length_pos_iff.mpr h⟩

@[simp] theorem contents_new (mem : List UInt8) : (new mem).contents = [] := by
  simp [contents, readable, new]

theorem readable_le (h : rb.Valid) : rb.readable ≤ rb.size := by
  have hpos : 0 < rb.size := Nat.lt_of_le_of_lt (Nat.zero_le _) h.read_lt
  unfold readable
  split
  · split <;> omega
  · exact (Nat.mod_lt _ hpos).le

theorem readable_of_ne (h : rb.Valid) (hne : rb.wOffset ≠ rb.rOffset) :
    rb.readable = if rb.rOffset < rb.wOffset then rb.wOffset - rb.rOffset
      else rb.wOffset + rb.size - rb.rOffset := by
  have hr := h.read_lt
  have hw := h.write_lt
  rw [readable, if_neg hne]
  split
  · have hsum : rb.wOffset + rb.size - rb.rOffset = (rb.wOffset - rb.rOffset) + rb.size := by omega
    rw [hsum, Nat.add_mod_right, Nat.mod_eq_of_lt (by omega)]
  · exact Nat.mod_eq_of_lt (by omega)

theorem writable_of_ne (h : rb.Valid) (hne : rb.wOffset ≠ rb.rOffset) :
    rb.writable = if rb.wOffset < rb.rOffset then rb.rOffset - rb.wOffset
      else rb.rOffset + rb.size - rb.wOffset := by
  have hr := h.read_lt
  have hw := h.write_lt
  rw [writable, if_neg hne]
  split
  · have hsum : rb.rOffset + rb.size - rb.wOffset = (rb.rOffset - rb.wOffset) + rb.size := by omega
    rw [hsum, Nat.add_mod_right, Nat.mod_eq_of_lt (by omega)]
  · exact Nat.mod_eq_of_lt (by omega)

theorem readable_add_writable (h : rb.Valid) : rb.readable + rb.writable = rb.size := by
  have hr := h.read_lt
  have hw := h.write_lt
  by_cases heq : rb.wOffset = rb.rOffset
  · rw [readable, writable, if_pos heq, if_pos heq]
    split <;> omega
  · rw [readable_of_ne h heq, writable_of_ne h heq]
    split <;> split <;> omega

theorem length_contents (h : rb.Valid) : rb.contents.length = rb.readable := by
  have hle := readable_le h
  have hr := h.read_lt
  simp only [contents, List.length_take, List.length_append, List.length_drop]
  unfold size at hle hr
  omega

theorem getLen_eq (h : rb.Valid) (hop : rb.lastOperation ≠ .na) :
    rb.getLen = rb.contents.length := by
  rw [length_contents h, getLen]
  by_cases heq : rb.wOffset = rb.rOffset
  · cases hlast : rb.lastOperation with
    | na => exact (hop hlast).elim
    | read => simp [readable, heq, hlast]
    | write => simp [readable, heq, hlast]
  · rw [readable_of_ne h heq]
    simp [heq]

theorem copyOut_eq (h : rb.Valid) {l : ℕ} (hl : l ≤ rb.readable) :
    rb.copyOut l = rb.contents.take l := by
  have hr := h.read_lt
  have hw := h.write_lt
  have hle := readable_le h
  rw [contents, List.take_take, Nat.min_eq_left hl, List.take_append, copyOut]
  have hdrop : (rb.addr.drop rb.rOffset).length = rb.size - rb.rOffset := List.length_drop
  rw [hdrop]
  split
  · next hone =>
      have hshort : l - (rb.size - rb.rOffset) = 0 := by
        rcases hone with hlt | hlt
        · have hread := readable_of_ne h (Nat.ne_of_gt hlt)
          rw [if_pos hlt] at hread
          omega
        · omega
      rw [hshort, List.take_zero, List.append_nil]
  · next htwo =>
      rw [not_or] at htwo
      rw [List.take_take, Nat.min_eq_left (by omega), List.take_of_length_le (by omega),
        List.take_of_length_le (l := rb.addr.drop rb.rOffset) (by omega)]

theorem peek_eq (h : rb.Valid) (len : ℕ) : rb.peek len = rb.contents.take len := by
  rw [peek, copyOut_eq h (Nat.min_le_right _ _)]
  rcases Nat.le_total len rb.readable with hle | hle
  · rw [Nat.min_eq_left hle]
  · rw [Nat.min_eq_right hle, ← length_contents h, List.take_length, List.take_of_length_le]
    rwa [length_contents h]

/-! ## Reading -/

theorem wrap_eq {size r l : ℕ} (hr : r < size) (hl : l ≤ size) :
    (r + l) % size = if r + l < size then r + l else r + l - size := by
  split
  · next hlt => exact Nat.mod_eq_of_lt hlt
  · rw [Nat.mod_eq_sub_mod (by omega), Nat.mod_eq_of_lt (by omega)]

theorem wOffset_eq (h : rb.Valid) :
    rb.wOffset = if rb.rOffset + rb.readable < rb.size then rb.rOffset + rb.readable
      else rb.rOffset + rb.readable - rb.size := by
  have hr := h.read_lt
  have hw := h.write_lt
  by_cases heq : rb.wOffset = rb.rOffset
  · rw [readable, if_pos heq]
    split <;> split <;> omega
  · rw [readable_of_ne h heq]
    split <;> split <;> omega

theorem place (h : rb.Valid) : rb.wOffset = rb.rOffset + rb.readable ∨
    rb.wOffset + rb.addr.length = rb.rOffset + rb.readable := by
  have hr := h.read_lt
  have hw := h.write_lt
  have heq := wOffset_eq h
  change _ ∨ rb.wOffset + rb.size = _
  split_ifs at heq <;> omega

theorem getElem?_contents (h : rb.Valid) (k : ℕ) :
    rb.contents[k]? = if k < rb.readable then
      rb.addr[if rb.rOffset + k < rb.size then rb.rOffset + k else rb.rOffset + k - rb.size]?
      else none :=
  Ring.getElem?_window h.read_lt.le (readable_le h) k

/-- The buffer after `l` of its bytes were read. -/
def advance (rb : RingBuffer) (l : ℕ) : RingBuffer :=
  { rb with rOffset := (rb.rOffset + l) % rb.size, lastOperation := .read }

theorem advance_spec (h : rb.Valid) {l : ℕ} (hpos : 0 < l) (hl : l ≤ rb.readable) :
    (rb.advance l).Valid ∧ (rb.advance l).contents = rb.contents.drop l := by
  have hr := h.read_lt
  have hw := h.write_lt
  have hle := readable_le h
  have hwEq := wOffset_eq h
  have hwrap := wrap_eq hr (Nat.le_trans hl hle)
  have hvalid : (rb.advance l).Valid := ⟨Nat.mod_lt _ (by omega), hw⟩
  have hsize : (rb.advance l).size = rb.size := rfl
  have hrOff : (rb.advance l).rOffset =
      if rb.rOffset + l < rb.size then rb.rOffset + l else rb.rOffset + l - rb.size := hwrap
  have hwOff : (rb.advance l).wOffset = rb.wOffset := rfl
  have hread : (rb.advance l).readable = rb.readable - l := by
    by_cases heq : (rb.advance l).wOffset = (rb.advance l).rOffset
    · rw [readable, if_pos heq, if_neg (by simp [advance])]
      rw [hwOff, hrOff] at heq
      split_ifs at heq hwEq <;> omega
    · rw [readable_of_ne hvalid heq, hsize]
      rw [hwOff, hrOff] at heq ⊢
      split_ifs at heq hwEq ⊢ <;> omega
  have hplace : (rb.advance l).rOffset = rb.rOffset + l ∨
      (rb.advance l).rOffset + rb.addr.length = rb.rOffset + l := by
    change _ ∨ (rb.advance l).rOffset + rb.size = _
    split_ifs at hrOff <;> omega
  have hdrop := Ring.window_drop hr.le hle hl hvalid.read_lt.le hplace
  rw [← hread] at hdrop
  exact ⟨hvalid, hdrop⟩

@[simp] theorem size_read (rb : RingBuffer) (len : ℕ) : (rb.read len).2.size = rb.size := by
  rw [read]
  split <;> rfl

theorem lastOperation_read (hop : rb.lastOperation ≠ .na) (len : ℕ) :
    (rb.read len).2.lastOperation ≠ .na := by
  rw [read]
  split
  · exact hop
  · simp

theorem read_spec (h : rb.Valid) {len : ℕ} (hlen : 0 < len) :
    (rb.read len).1 = rb.contents.take len ∧ (rb.read len).2.Valid ∧
      (rb.read len).2.contents = rb.contents.drop len := by
  have hlength := length_contents h
  rw [read]
  split
  · next hzero =>
      have hnil : rb.contents = [] := List.eq_nil_of_length_eq_zero (hlength.trans hzero)
      exact ⟨by simp [hnil], h, by simp [hnil]⟩
  · next hread =>
      obtain ⟨hvalid, hcont⟩ :=
        advance_spec h (l := min len rb.readable) (by omega) (Nat.min_le_right _ _)
      refine ⟨peek_eq h len, hvalid, hcont.trans ?_⟩
      rcases Nat.le_total len rb.readable with hle | hle
      · rw [Nat.min_eq_left hle]
      · rw [Nat.min_eq_right hle, List.drop_of_length_le hlength.le, List.drop_of_length_le]
        rwa [hlength]

/-! ## Writing -/

theorem length_copyIn (h : rb.Valid) {src : List UInt8} (hsrc : src.length ≤ rb.size) :
    (rb.copyIn src).length = rb.size :=
  Ring.length_store h.write_lt.le hsrc

theorem write_spec (h : rb.Valid) {src : List UInt8} (hne : src ≠ [])
    (hfit : rb.contents.length + src.length ≤ rb.size) :
    (rb.write src).Valid ∧ (rb.write src).contents = rb.contents ++ src ∧
      (rb.write src).size = rb.size ∧ (rb.write src).lastOperation = .write := by
  have hr := h.read_lt
  have hw := h.write_lt
  have hpos : 0 < src.length := List.length_pos_iff.mpr hne
  have hlength := length_contents h
  have hsum := readable_add_writable h
  have hwEq := wOffset_eq h
  rw [write, if_neg (by omega)]
  have hmin : min src.length rb.writable = src.length := Nat.min_eq_left (by omega)
  simp only [hmin, List.take_length]
  have hsrc : src.length ≤ rb.size := by omega
  have hlen := length_copyIn h hsrc
  have hsize : size ⟨rb.copyIn src, rb.rOffset, (rb.wOffset + src.length) % rb.size, .write⟩ =
      rb.size := hlen
  have hvalid : Valid ⟨rb.copyIn src, rb.rOffset, (rb.wOffset + src.length) % rb.size, .write⟩ :=
    ⟨hr.trans_eq hsize.symm, (Nat.mod_lt _ (by omega)).trans_eq hsize.symm⟩
  have hwrap := wrap_eq hw (l := src.length) (by omega)
  have hread : readable ⟨rb.copyIn src, rb.rOffset, (rb.wOffset + src.length) % rb.size, .write⟩ =
      rb.readable + src.length := by
    by_cases heq : (rb.wOffset + src.length) % rb.size = rb.rOffset
    · rw [readable, if_pos heq, if_pos rfl, hsize]
      rw [hwrap] at heq
      split_ifs at heq hwEq <;> omega
    · rw [readable_of_ne hvalid heq, hsize]
      dsimp only
      rw [hwrap] at heq ⊢
      split_ifs at heq hwEq ⊢ <;> omega
  have hfit' : rb.readable + src.length ≤ rb.addr.length := hlength ▸ hfit
  have hstore := Ring.window_store hr.le hw.le hfit' (place h)
  rw [← hread] at hstore
  exact ⟨hvalid, hstore, hsize, trivial⟩

theorem write_take (rb : RingBuffer) (src : List UInt8) :
    rb.write src = rb.write (src.take rb.writable) := by
  rw [write, write]
  split
  · rfl
  · have hmin : min (min rb.writable src.length) rb.writable = min src.length rb.writable := by
      omega
    have hmin' : min (min src.length rb.writable) rb.writable = min src.length rb.writable := by
      omega
    simp only [List.length_take, List.take_take, hmin, hmin']

theorem write_le (h : rb.Valid) {src : List UInt8} (hne : src ≠ [])
    (hop : rb.lastOperation ≠ .na ∨ rb.contents = []) :
    (rb.write src).Valid ∧ (rb.write src).size = rb.size ∧ (rb.write src).lastOperation ≠ .na ∧
      (rb.write src).contents.length ≤ rb.contents.length + src.length := by
  have hsum := readable_add_writable h
  have hlength := length_contents h
  have hpos := h.read_lt
  by_cases hfull : rb.writable = 0
  · have hwrite : rb.write src = rb := by rw [write, if_pos hfull]
    have hnonempty : rb.contents ≠ [] := by
      rw [← List.length_pos_iff]
      omega
    rw [hwrite]
    exact ⟨h, rfl, hop.resolve_right hnonempty, Nat.le_add_right _ _⟩
  · have hlen := List.length_take (l := src) (i := rb.writable)
    have hsrc : 0 < src.length := List.length_pos_iff.mpr hne
    have htake : src.take rb.writable ≠ [] := by
      rw [← List.length_pos_iff]
      omega
    obtain ⟨hvalid, hcont, hsize, hlast⟩ := write_spec h htake (by omega)
    rw [← write_take] at hvalid hcont hsize hlast
    refine ⟨hvalid, hsize, by simp [hlast], ?_⟩
    rw [hcont, List.length_append]
    omega

end RingBuffer

end Libobject
