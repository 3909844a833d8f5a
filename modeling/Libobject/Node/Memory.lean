import Libobject.Bus.Framing
import Libobject.Core.StringUtils
import Libobject.Lib.Buffer
import Libobject.Lib.Run

/-!
# The memory of another node

`mset` and `mget` print a line, which is cut into its arguments again; these cross the bus, and the
node that has the block serves them.
-/

namespace Libobject.NodeMemory

open Scan StringUtils Bus

/-! ## The line of a request -/

/-- What the expression `[,@ \t\n(){};]` matches. -/
def separator (c : UInt8) : Bool :=
  c = 44 || c = 64 || c = 32 || c = 9 || c = 10 || c = 40 || c = 41 || c = 123 || c = 125 || c = 59

/-- The id of a node, which fits `BUS_OBJECT_ID_LEN`. -/
structure NodeId where
  text : Text
  ne_nil : text ≠ []
  letters : ∀ c ∈ text, separator c = false
  short : text.length < 41

abbrev CInt := {z : ℤ // -2 ^ 31 ≤ z ∧ z < 2 ^ 31}

/-- A value in the memory of the caller. -/
structure Value where
  addr : BitVec 64
  bytes : List UInt8
  nonnull : addr ≠ 0
  short : bytes.length < 2 ^ 31

/-- A block in the memory of a node. -/
structure Block where
  addr : BitVec 64
  bytes : List UInt8
  nonnull : addr ≠ 0

/-- `"%p"` -/
def showPtr (p : BitVec 64) : Text := if p = 0 then ascii "(nil)" else 48 :: 120 :: showHex p.toNat

def showArgs : List Text → Text
  | [] => [41]
  | [a] => a ++ [41]
  | a :: as => a ++ 44 :: 32 :: showArgs as

/-- The line as `snprintf` leaves it in its buffer of 1024 bytes. -/
def showCall (node_id method : Text) (args : List Text) : Text :=
  (node_id ++ 64 :: (method ++ 40 :: showArgs args)).take 1023

def mget : Text := [109, 103, 101, 116]

def mset : Text := [109, 115, 101, 116]

def mset_cmd (node_id : Text) (addr : BitVec 64) (offset capacity : CInt) (value : Value) : Text :=
  showCall node_id mset [48 :: 120 :: showPtr addr, showInt offset, showInt capacity,
    48 :: 120 :: showPtr value.addr ++ 58 :: showInt value.bytes.length]

def mget_cmd (node_id : Text) (addr : BitVec 64) (offset capacity value_len : CInt) : Text :=
  showCall node_id mget [48 :: 120 :: showPtr addr, showInt offset, showInt capacity,
    showInt value_len]

/-! ## The arguments -/

inductive ArgType
  | uint32
  | uint64
  | buffer

inductive Arg
  | uint32 (v : BitVec 32)
  | uint64 (v : BitVec 64)
  | buffer (addr : BitVec 64) (len : ℤ)

/-- `node_find_method_argument_template`, for the two methods. -/
def argument_template (method_name : Text) : Option (List ArgType) :=
  if method_name = mget then some [.uint64, .uint32, .uint32, .uint32]
  else if method_name = mset then some [.uint64, .uint32, .uint32, .buffer]
  else none

/-- An argument from its piece of the line; `none` where `call_bus` throws. -/
def read_arg : ArgType → Text → Option Arg
  | .uint32, tmp => some (.uint32 (BitVec.ofInt 32 (atoi tmp)))
  | .uint64, tmp =>
    if tmp.headD 0 = 48 ∧ ((tmp.drop 1).headD 0 = 120 ∨ (tmp.drop 1).headD 0 = 88) then
      some (.uint64 (str_hex_to_integer tmp))
    else none
  | .buffer, tmp =>
    match tmp.dropWhile (· ≠ 58) with
    | [] => none
    | _ :: len => some (.buffer (str_hex_to_integer (tmp.takeWhile (· ≠ 58))) (atoi len))

def read_args : List ArgType → List Text → Option (List Arg)
  | [], [] => some []
  | t :: ts, p :: ps => (read_arg t p).bind fun a ↦ (read_args ts ps).map fun as ↦ a :: as
  | _, _ => none

/-- `call_bus` as far as the arguments: the node, the method and the arguments. -/
def call_bus (code : Text) : Option (Text × Text × List Arg) :=
  match cut separator code with
  | node_id :: method_name :: pieces =>
    (argument_template method_name).bind fun types ↦
      (read_args types pieces).map fun args ↦ (node_id, method_name, args)
  | _ => none

/-- An argument as it comes to the other node. -/
inductive Field
  | uint32 (v : BitVec 32)
  | uint64 (v : BitVec 64)
  | buffer (bytes : List UInt8)

inductive Failure
  | thrown
  | wild

def BLOB_BUFFER_MAX_SIZE : ℕ := 4096

/-- `bus_blob_add_args`. `mem` tells the bytes of a range of the caller's memory that may be
read. -/
def blob_add_arg (mem : BitVec 64 → ℤ → Option (List UInt8)) : Arg → Except Failure Field
  | .uint32 v => .ok (.uint32 v)
  | .uint64 v => .ok (.uint64 v)
  | .buffer addr len =>
    if BLOB_BUFFER_MAX_SIZE < len then .error .thrown
    else match mem addr len with
      | some bytes => .ok (.buffer bytes)
      | none => .error .wild

def blob_add_args (mem : BitVec 64 → ℤ → Option (List UInt8)) :
    List Arg → Except Failure (List Field)
  | [] => .ok []
  | a :: as =>
    match blob_add_arg mem a with
    | .error e => .error e
    | .ok f =>
      match blob_add_args mem as with
      | .error e => .error e
      | .ok fs => .ok (f :: fs)

/-! ## The node that serves -/

/-- `memcpy` and `memset` to a place of the block. Without bytes nothing is touched; `none` where
bytes outside of the block are. -/
def write (block : List UInt8) (pos : ℤ) (src : List UInt8) : Option (List UInt8) :=
  if src = [] then some block
  else if 0 ≤ pos then Buffer.put block pos.toNat src
  else none

def read (block : List UInt8) (pos : ℤ) (n : ℕ) : Option (List UInt8) :=
  if n = 0 then some []
  else if 0 ≤ pos then Buffer.get block pos.toNat n
  else none

/-- Where an address is in the block. -/
def Block.pos (b : Block) (addr : BitVec 64) : ℤ := addr.toNat - b.addr.toNat

/-- The state and what is in `out`. Lengths go through `size_t`; `out` has room for
`BLOB_BUFFER_MAX_SIZE` bytes. -/
def node_mget (b : Block) (addr : BitVec 64) (_offset _capacity len : ℤ) :
    Option (ℤ × List UInt8) :=
  if len < 0 ∨ BLOB_BUFFER_MAX_SIZE < len then none
  else (read b.bytes (b.pos addr) len.toNat).map fun out ↦ (1, out)

def node_mset (b : Block) (addr : BitVec 64) (offset capacity : ℤ) (buffer : List UInt8) :
    Option (ℤ × Block) :=
  if capacity < buffer.length ∨ addr = 0 then some (-1, b)
  else if capacity < 0 then none
  else
    (write b.bytes (b.pos addr + offset) (List.replicate capacity.toNat 0)).bind fun cleared ↦
      (write cleared (b.pos addr + offset) buffer).map fun bytes ↦ (1, { b with bytes })

/-- The method's handler: the state, the bytes for the caller and the block. -/
def handle (b : Block) (method_name : Text) : List Field → Option (ℤ × List UInt8 × Block)
  | [.uint64 addr, .uint32 offset, .uint32 capacity, .uint32 len] =>
    if method_name = mget then
      (node_mget b addr offset.toInt capacity.toInt len.toInt).map fun r ↦ (r.1, r.2, b)
    else none
  | [.uint64 addr, .uint32 offset, .uint32 capacity, .buffer buffer] =>
    if method_name = mset then
      (node_mset b addr offset.toInt capacity.toInt buffer).map fun r ↦ (r.1, [], r.2)
    else none
  | _ => none

/-- `bus_reply_forward_invoke`, with the bytes of the numbers. -/
def replyMsg (object_id method_name state out src_fd : List UInt8) : Msg :=
  ⟨BUS_REPLY_FORWARD_INVOKE, ascii "reply_forward_invoke",
    [⟨3, busAttribs .objid, object_id ++ [0]⟩, ⟨3, busAttribs .invokeMethod, method_name ++ [0]⟩,
      ⟨6, busAttribs .state, state⟩, ⟨4, busAttribs .payload, out⟩,
      ⟨6, busAttribs .invokeSrcFd, src_fd⟩]⟩

/-! ## Requests -/

/-- What the caller gets: an error, never an answer, or the bytes of the reply. -/
inductive Reply
  | refused
  | lost
  | done (value : List UInt8)
  deriving DecidableEq

/-- A line on its way through the bus; `value_len` bytes of the reply are taken over. `none` where
memory is touched that is not the request's. -/
def invoke (id : NodeId) (b : Block) (mem : BitVec 64 → ℤ → Option (List UInt8)) (value_len : ℕ)
    (code : Text) : Option (Reply × Block) :=
  match call_bus code with
  | none => some (.refused, b)
  | some (node_id, method_name, args) =>
    match blob_add_args mem args with
    | .error .thrown => some (.refused, b)
    | .error .wild => none
    | .ok fields =>
      if node_id ≠ id.text then some (.refused, b)
      else
        (handle b method_name fields).map fun (state, out, b) ↦
          let reply := replyMsg node_id method_name
            (beBytes 4 (BitVec.ofInt 32 state).toNat) out (beBytes 4 0)
          if BLOB_BUFFER_MAX_SIZE < reply.bytes.length then (.lost, b)
          else if state < 0 then (.refused, b)
          else (.done (out.take value_len), b)

/-- What the memory of the caller tells of the value. -/
def Value.mem (value : Value) (addr : BitVec 64) (len : ℤ) : Option (List UInt8) :=
  if addr = value.addr ∧ len = value.bytes.length then some value.bytes else none

def node_call_mset (id : NodeId) (b : Block) (offset capacity : CInt) (value : Value) :
    Option (Reply × Block) :=
  if capacity.1 < value.bytes.length then some (.refused, b)
  else invoke id b value.mem 0 (mset_cmd id.text b.addr offset capacity value)

def node_call_mget (id : NodeId) (b : Block) (offset capacity value_len : CInt) :
    Option (Reply × Block) :=
  if capacity.1 ≠ -1 ∧ capacity.1 < value_len.1 then some (.refused, b)
  else invoke id b (fun _ _ ↦ none) value_len.1.toNat
    (mget_cmd id.text b.addr offset capacity value_len)

inductive Request
  | mset (offset capacity : CInt) (value : Value)
  | mget (offset capacity value_len : CInt)

def serve (id : NodeId) (b : Block) : Request → Option (Reply × Block)
  | .mset offset capacity value => node_call_mset id b offset capacity value
  | .mget offset capacity value_len => node_call_mget id b offset capacity value_len

/-- A node with its block after one more request; `none` once memory was touched that should not
be. -/
def step (id : NodeId) (s : Option Block) (r : Request) : Option Block :=
  s.bind fun b ↦ (serve id b r).map Prod.snd

/-! ## What requests are for -/

/-- The request fits the block, whether its capacity counts from the offset on or not. -/
def Request.Fits (c : ℕ) : Request → Prop
  | mset offset capacity value => 0 ≤ offset.1 ∧ (value.bytes.length : ℤ) ≤ capacity ∧
      offset.1 + capacity ≤ c
  | mget offset capacity value_len => 0 ≤ offset.1 ∧ 0 ≤ value_len.1 ∧ offset.1 + value_len ≤ c ∧
      (capacity.1 = -1 ∨ value_len.1 ≤ capacity ∧ offset.1 + capacity ≤ c)

/-- It fits at least if the capacity is that of the whole block. -/
def Request.MayFit (c : ℕ) : Request → Prop
  | mset offset capacity value => 0 ≤ offset.1 ∧ offset.1 + value.bytes.length ≤ c ∧
      (value.bytes.length : ℤ) ≤ capacity ∧ capacity.1 ≤ c
  | mget offset capacity value_len => 0 ≤ offset.1 ∧ 0 ≤ value_len.1 ∧ offset.1 + value_len ≤ c ∧
      (capacity.1 = -1 ∨ value_len.1 ≤ capacity ∧ capacity.1 ≤ c)

/-- The messages for the request and its reply fit their buffers. -/
def Request.Short (id : NodeId) : Request → Prop
  | mset _ _ value => value.bytes.length ≤ BLOB_BUFFER_MAX_SIZE
  | mget _ _ value_len => 122 + id.text.length + value_len.1 ≤ BLOB_BUFFER_MAX_SIZE

/-- The effect of a request on the block, and the bytes that it gives. -/
def Request.Effect (before : List UInt8) : Request → List UInt8 → List UInt8 → Prop
  | mset offset _ value, _, after => after.length = before.length ∧
      after.take offset.1.toNat = before.take offset.1.toNat ∧
      (after.drop offset.1.toNat).take value.bytes.length = value.bytes
  | mget offset _ value_len, out, after => after = before ∧
      out = (before.drop offset.1.toNat).take value_len.1.toNat

/-- A request that fits is answered, and one that does not is refused and leaves the block as it
was. -/
def Good (id : NodeId) (s : Option Block) (r : Request) (s' : Option Block) : Prop :=
  ∃ b b', s = some b ∧ s' = some b' ∧
    (serve id b r = some (.refused, b) ∧ b' = b ∧ ¬ (r.Fits b.bytes.length ∧ r.Short id) ∨
      ∃ out, serve id b r = some (.done out, b') ∧ r.MayFit b.bytes.length ∧
        b'.addr = b.addr ∧ r.Effect b.bytes out b'.bytes)

/-- Where the code does what the request is for. A value that is too long for its capacity or for a
message is refused; otherwise the capacity has to end within the block from the offset on, and what
is read has to be at the offset as well as at the start of the block. -/
def Request.Served (id : NodeId) (block : List UInt8) : Request → Prop
  | mset offset capacity value => capacity.1 < value.bytes.length ∨
      BLOB_BUFFER_MAX_SIZE < value.bytes.length ∨
      0 ≤ offset.1 ∧ offset.1 + capacity ≤ block.length
  | mget offset capacity value_len => capacity.1 ≠ -1 ∧ capacity.1 < value_len ∨
      (mget offset capacity value_len).MayFit block.length ∧
      (mget offset capacity value_len).Short id ∧
      (block.drop offset.1.toNat).take value_len.1.toNat = block.take value_len.1.toNat

/-! ## The line is read as it was meant -/

theorem separator_of_isHex {c : UInt8} (h : isHex c = true) : separator c = false := by
  have hne : ∀ d : UInt8, isHex d = false → c ≠ d := fun d hd heq ↦ by
    rw [heq, hd] at h
    cases h
  simp only [separator, Bool.or_eq_false_iff, decide_eq_false_iff_not]
  exact ⟨⟨⟨⟨⟨⟨⟨⟨⟨hne 44 rfl, hne 64 rfl⟩, hne 32 rfl⟩, hne 9 rfl⟩, hne 10 rfl⟩, hne 40 rfl⟩,
    hne 41 rfl⟩, hne 123 rfl⟩, hne 125 rfl⟩, hne 59 rfl⟩

theorem separator_showInt (z : ℤ) : ∀ c ∈ showInt z, separator c = false := by
  intro c hc
  rcases mem_showInt hc with h | rfl
  · exact separator_of_isHex (isHex_of_isDigit h)
  · rfl

theorem showPtr_eq {p : BitVec 64} (hp : p ≠ 0) : showPtr p = 48 :: 120 :: showHex p.toNat :=
  if_neg hp

theorem separator_showPtr {p : BitVec 64} (hp : p ≠ 0) :
    ∀ c ∈ 48 :: 120 :: showPtr p, separator c = false := by
  rw [showPtr_eq hp]
  simp only [List.forall_mem_cons]
  exact ⟨rfl, rfl, rfl, rfl, fun c hc ↦ separator_of_isHex (isHex_showHex _ c hc)⟩

theorem str_hex_to_integer_showPtr {p : BitVec 64} (hp : p ≠ 0) :
    str_hex_to_integer (48 :: 120 :: showPtr p) = p := by
  rw [showPtr_eq hp]
  refine (str_hex_to_integer_append [48, 120, 48] (isHex_showHex _)).trans ?_
  rw [hexValue_showHex]
  exact (BitVec.ofNat_toNat 64 p).trans (BitVec.setWidth_eq p)

theorem showInt_ne_nil (z : ℤ) : showInt z ≠ [] := by
  rw [showInt]
  split
  · exact List.cons_ne_nil _ _
  · exact showNat_ne_nil _

theorem length_showInt_le {z : ℤ} (hlo : -2 ^ 31 ≤ z) (hhi : z < 2 ^ 31) :
    (showInt z).length ≤ 11 := by
  have hnat : (showNat z.natAbs).length ≤ 10 := length_showNat_le (by decide) (by omega)
  rw [showInt]
  split
  · exact Nat.succ_le_succ hnat
  · exact hnat.trans (by decide)

theorem length_showPtr_le {p : BitVec 64} (hp : p ≠ 0) : (showPtr p).length ≤ 18 := by
  rw [showPtr_eq hp]
  exact Nat.add_le_add_right (length_showHex_le (k := 16) p.isLt) 2

theorem cut_showArgs {args : List Text} (hne : args ≠ [])
    (h : ∀ a ∈ args, a ≠ [] ∧ ∀ c ∈ a, separator c = false) :
    cut separator (showArgs args) = args := by
  induction args with
  | nil => exact absurd rfl hne
  | cons a args ih =>
    rw [List.forall_mem_cons] at h
    cases args with
    | nil => exact cut_append h.1.1 h.1.2 rfl []
    | cons b args =>
      refine (cut_append h.1.1 h.1.2 rfl _).trans (congrArg _ ?_)
      exact ih (List.cons_ne_nil _ _) h.2

theorem cut_showCall {id : NodeId} {method : Text} {args : List Text} (hmethod : method ≠ [])
    (hletters : ∀ c ∈ method, separator c = false) (hne : args ≠ [])
    (h : ∀ a ∈ args, a ≠ [] ∧ ∀ c ∈ a, separator c = false)
    (hlen : method.length + (showArgs args).length ≤ 900) :
    cut separator (showCall id.text method args) = id.text :: method :: args := by
  have hshort := id.short
  rw [showCall, List.take_of_length_le, cut_append id.ne_nil id.letters rfl,
    cut_append hmethod hletters rfl, cut_showArgs hne h]
  simp only [List.length_append, List.length_cons]
  omega

variable (id : NodeId)

theorem takeWhile_colon {s : Text} (hs : ∀ c ∈ s, c ≠ 58) (t : Text) :
    (s ++ 58 :: t).takeWhile (· ≠ 58) = s ∧ (s ++ 58 :: t).dropWhile (· ≠ 58) = 58 :: t := by
  induction s with
  | nil => exact ⟨rfl, rfl⟩
  | cons c s ih =>
    rw [List.forall_mem_cons] at hs
    obtain ⟨htake, hdrop⟩ := ih hs.2
    rw [List.cons_append, List.takeWhile_cons, List.dropWhile_cons, if_pos (decide_eq_true hs.1),
      if_pos (decide_eq_true hs.1), htake, hdrop]
    exact ⟨rfl, rfl⟩

theorem showPtr_ne_colon {p : BitVec 64} (hp : p ≠ 0) :
    ∀ c ∈ 48 :: 120 :: showPtr p, c ≠ 58 := by
  rw [showPtr_eq hp]
  simp only [List.forall_mem_cons]
  refine ⟨by decide, by decide, by decide, by decide, fun c hc heq ↦ ?_⟩
  have hhex := isHex_showHex _ c hc
  rw [heq] at hhex
  cases hhex

theorem read_arg_ptr {p : BitVec 64} (hp : p ≠ 0) :
    read_arg .uint64 (48 :: 120 :: showPtr p) = some (.uint64 p) := by
  rw [read_arg, if_pos ⟨rfl, .inl rfl⟩, str_hex_to_integer_showPtr hp]

theorem read_arg_int (z : CInt) :
    read_arg .uint32 (showInt z.1) = some (.uint32 (BitVec.ofInt 32 z.1)) := by
  rw [read_arg, atoi_showInt_int z.2.1 z.2.2]

theorem read_arg_value (value : Value) :
    read_arg .buffer (48 :: 120 :: showPtr value.addr ++ 58 :: showInt value.bytes.length) =
      some (.buffer value.addr value.bytes.length) := by
  obtain ⟨htake, hdrop⟩ := takeWhile_colon (showPtr_ne_colon value.nonnull)
    (showInt value.bytes.length)
  have hshort := value.short
  rw [read_arg, htake, hdrop]
  dsimp only
  rw [str_hex_to_integer_showPtr value.nonnull,
    atoi_showInt_int (by omega) (by exact_mod_cast hshort)]

theorem call_bus_mset (b : Block) (offset capacity : CInt) (value : Value) :
    call_bus (mset_cmd id.text b.addr offset capacity value) =
      some (id.text, mset, [.uint64 b.addr, .uint32 (BitVec.ofInt 32 offset.1),
        .uint32 (BitVec.ofInt 32 capacity.1), .buffer value.addr value.bytes.length]) := by
  have haddr := separator_showPtr b.nonnull
  have hvalue := separator_showPtr value.nonnull
  have hcut : cut separator (mset_cmd id.text b.addr offset capacity value) = id.text :: mset ::
      [48 :: 120 :: showPtr b.addr, showInt offset, showInt capacity,
        48 :: 120 :: showPtr value.addr ++ 58 :: showInt value.bytes.length] := by
    have hletters : ∀ c ∈ mset, separator c = false := List.forall_iff_forall_mem.mp (by decide)
    refine cut_showCall (by decide) hletters (List.cons_ne_nil _ _) ?_ ?_
    · simp only [List.forall_mem_cons] at haddr ⊢
      refine ⟨⟨List.cons_ne_nil _ _, haddr⟩, ⟨showInt_ne_nil _, separator_showInt _⟩,
        ⟨showInt_ne_nil _, separator_showInt _⟩, ⟨List.cons_ne_nil _ _, fun c hc ↦ ?_⟩,
        fun _ h ↦ absurd h List.not_mem_nil⟩
      rcases List.mem_append.mp hc with hc | hc
      · exact hvalue c hc
      · rcases List.mem_cons.mp hc with rfl | hc
        · rfl
        · exact separator_showInt _ c hc
    · have h1 := length_showPtr_le b.nonnull
      have h2 := length_showPtr_le value.nonnull
      have h3 := length_showInt_le offset.2.1 offset.2.2
      have h4 := length_showInt_le capacity.2.1 capacity.2.2
      have h5 : (showInt value.bytes.length).length ≤ 11 :=
        length_showInt_le (by omega) (by exact_mod_cast value.short)
      simp only [showArgs, mset, List.length_append, List.length_cons, List.length_nil]
      omega
  rw [call_bus, hcut]
  dsimp only
  rw [argument_template, if_neg (by decide), if_pos rfl]
  simp only [Option.bind_some, read_args, read_arg_ptr b.nonnull, read_arg_int, read_arg_value,
    Option.map_some]

theorem call_bus_mget (b : Block) (offset capacity value_len : CInt) :
    call_bus (mget_cmd id.text b.addr offset capacity value_len) =
      some (id.text, mget, [.uint64 b.addr, .uint32 (BitVec.ofInt 32 offset.1),
        .uint32 (BitVec.ofInt 32 capacity.1), .uint32 (BitVec.ofInt 32 value_len.1)]) := by
  have haddr := separator_showPtr b.nonnull
  have hcut : cut separator (mget_cmd id.text b.addr offset capacity value_len) = id.text :: mget ::
      [48 :: 120 :: showPtr b.addr, showInt offset, showInt capacity, showInt value_len] := by
    have hletters : ∀ c ∈ mget, separator c = false := List.forall_iff_forall_mem.mp (by decide)
    refine cut_showCall (by decide) hletters (List.cons_ne_nil _ _) ?_ ?_
    · simp only [List.forall_mem_cons] at haddr ⊢
      exact ⟨⟨List.cons_ne_nil _ _, haddr⟩, ⟨showInt_ne_nil _, separator_showInt _⟩,
        ⟨showInt_ne_nil _, separator_showInt _⟩, ⟨showInt_ne_nil _, separator_showInt _⟩,
        fun _ h ↦ absurd h List.not_mem_nil⟩
    · have h1 := length_showPtr_le b.nonnull
      have h3 := length_showInt_le offset.2.1 offset.2.2
      have h4 := length_showInt_le capacity.2.1 capacity.2.2
      have h5 := length_showInt_le value_len.2.1 value_len.2.2
      simp only [showArgs, mget, List.length_append, List.length_cons, List.length_nil]
      omega
  rw [call_bus, hcut]
  dsimp only
  rw [argument_template, if_pos rfl]
  simp only [Option.bind_some, read_args, read_arg_ptr b.nonnull, read_arg_int, Option.map_some]

/-! ## What comes of a request -/

theorem length_replyMsg (object_id method_name out : Text) (state src_fd : ℕ) :
    (replyMsg object_id method_name (beBytes 4 state) out (beBytes 4 src_fd)).bytes.length =
      118 + object_id.length + method_name.length + out.length := by
  have hname : (ascii "reply_forward_invoke").length = 20 := by decide
  have hobjid : (busAttribs .objid).length = 9 := by decide
  have hmethod : (busAttribs .invokeMethod).length = 13 := by decide
  have hstate : (busAttribs .state).length = 5 := by decide
  have hpayload : (busAttribs .payload).length = 6 := by decide
  have hfd : (busAttribs .invokeSrcFd).length = 9 := by decide
  rw [Msg.length_bytes, Msg.table, Blob.Attr.len, replyMsg]
  simp only [List.flatMap_cons, List.flatMap_nil, List.length_append, Blob.Attr.length_bytes,
    Blob.Attr.len, hname, hobjid, hmethod, hstate, hpayload, hfd, List.length_cons, List.length_nil,
    length_beBytes]
  omega

theorem toInt_ofInt (z : CInt) : (BitVec.ofInt 32 z.1).toInt = z.1 := by
  rw [BitVec.toInt_ofInt]
  exact Int.bmod_eq_of_le (by have := z.2.1; omega) (by have := z.2.2; omega)

@[simp] theorem Block.pos_addr (b : Block) : b.pos b.addr = 0 := Int.sub_self _

theorem write_inside {block src : List UInt8} {pos : ℤ} (hpos : 0 ≤ pos)
    (hlen : pos + src.length ≤ block.length) :
    ∃ after, write block pos src = some after ∧ after.length = block.length ∧
      after.take pos.toNat = block.take pos.toNat ∧
      (after.drop pos.toNat).take src.length = src := by
  obtain ⟨n, rfl⟩ := Int.eq_ofNat_of_zero_le hpos
  have hle : n + src.length ≤ block.length := by omega
  rw [write, if_pos hpos, Int.toNat_natCast]
  split
  · next hsrc => exact ⟨block, rfl, rfl, rfl, by rw [hsrc]; rfl⟩
  · have hn : (block.take n).length = n := List.length_take_of_le (by omega)
    have hput : Buffer.put block n src =
        some (block.take n ++ src ++ block.drop (n + src.length)) := if_pos hle
    refine ⟨_, hput, Buffer.length_put hput, ?_, ?_⟩
    · rw [List.append_assoc, List.take_left' hn]
    · rw [List.append_assoc, List.drop_left' hn, List.take_left]

theorem write_outside {block src : List UInt8} {pos : ℤ} (hne : src ≠ [])
    (h : ¬ (0 ≤ pos ∧ pos + src.length ≤ block.length)) : write block pos src = none := by
  rw [write, if_neg hne]
  split
  · next hpos => exact if_neg (by omega)
  · rfl

theorem read_zero (block : List UInt8) (n : ℕ) :
    read block 0 n = if n ≤ block.length then some (block.take n) else none := by
  rw [read]
  split
  · next hn => rw [hn, if_pos (Nat.zero_le _), List.take_zero]
  · rw [if_pos le_rfl, Int.toNat_zero, Buffer.get, zero_add, List.drop_zero]

theorem serve_mset (b : Block) (offset capacity : CInt) (value : Value) :
    serve id b (.mset offset capacity value) =
      if capacity.1 < value.bytes.length ∨ BLOB_BUFFER_MAX_SIZE < value.bytes.length then
        some (.refused, b)
      else
        (write b.bytes offset.1 (List.replicate capacity.1.toNat 0)).bind fun cleared ↦
          (write cleared offset.1 value.bytes).map fun bytes ↦ (.done [], { b with bytes }) := by
  rw [serve, node_call_mset]
  by_cases hcap : capacity.1 < value.bytes.length
  · rw [if_pos hcap, if_pos (.inl hcap)]
  rw [if_neg hcap, invoke, call_bus_mset]
  dsimp only
  rw [blob_add_args, blob_add_args, blob_add_args, blob_add_args, blob_add_args]
  dsimp only [blob_add_arg]
  by_cases hlong : BLOB_BUFFER_MAX_SIZE < value.bytes.length
  · rw [if_pos (Nat.cast_lt.mpr hlong), if_pos (.inr hlong)]
  have hread : value.mem value.addr value.bytes.length = some value.bytes := if_pos ⟨rfl, rfl⟩
  rw [if_neg (mt Nat.cast_lt.mp hlong), if_neg (not_or.mpr ⟨hcap, hlong⟩), hread]
  dsimp only
  rw [if_neg (not_not.mpr rfl), handle, if_pos rfl, toInt_ofInt, toInt_ofInt, node_mset,
    if_neg (not_or.mpr ⟨hcap, b.nonnull⟩), if_neg (by omega), b.pos_addr, zero_add]
  cases write b.bytes offset.1 (List.replicate capacity.1.toNat 0) with
  | none => rfl
  | some cleared =>
    dsimp only [Option.bind_some]
    cases write cleared offset.1 value.bytes with
    | none => rfl
    | some bytes =>
      have hid := id.short
      simp only [Option.map_some]
      rw [if_neg]
      · rfl
      · rw [length_replyMsg, BLOB_BUFFER_MAX_SIZE]
        simp only [mset, List.length_cons, List.length_nil]
        omega

theorem serve_mget (b : Block) (offset capacity value_len : CInt) :
    serve id b (.mget offset capacity value_len) =
      if capacity.1 ≠ -1 ∧ capacity.1 < value_len.1 then some (.refused, b)
      else if value_len.1 < 0 ∨ BLOB_BUFFER_MAX_SIZE < value_len.1 ∨
          b.bytes.length < value_len.1 then
        none
      else if 122 + id.text.length + value_len.1 ≤ BLOB_BUFFER_MAX_SIZE then
        some (.done (b.bytes.take value_len.1.toNat), b)
      else some (.lost, b) := by
  rw [serve, node_call_mget]
  by_cases hcap : capacity.1 ≠ -1 ∧ capacity.1 < value_len.1
  · rw [if_pos hcap, if_pos hcap]
  rw [if_neg hcap, if_neg hcap, invoke, call_bus_mget]
  dsimp only
  rw [blob_add_args, blob_add_args, blob_add_args, blob_add_args, blob_add_args]
  dsimp only [blob_add_arg]
  rw [if_neg (not_not.mpr rfl), handle, if_pos rfl, toInt_ofInt, toInt_ofInt, toInt_ofInt,
    node_mget, b.pos_addr]
  by_cases hlen : value_len.1 < 0 ∨ BLOB_BUFFER_MAX_SIZE < value_len.1
  · rw [if_pos hlen, if_pos (hlen.imp_right .inl)]
    rfl
  rw [if_neg hlen]
  obtain ⟨hpos, hmax⟩ := not_or.mp hlen
  obtain ⟨n, hn⟩ := Int.eq_ofNat_of_zero_le (not_lt.mp hpos)
  rw [hn, Int.toNat_natCast, read_zero]
  by_cases hle : n ≤ b.bytes.length
  swap
  · rw [if_neg hle, if_pos (.inr (.inr (by omega)))]
    rfl
  have hout : (b.bytes.take n).length = n := List.length_take_of_le hle
  rw [if_pos hle, if_neg (by omega)]
  simp only [Option.map_some]
  rw [length_replyMsg, hout, List.take_of_length_le hout.le]
  have hsize : BLOB_BUFFER_MAX_SIZE < 118 + id.text.length + mget.length + n ↔
      ¬ (122 + id.text.length + (n : ℤ) ≤ BLOB_BUFFER_MAX_SIZE) := by
    have hname : mget.length = 4 := rfl
    omega
  by_cases hreply : 122 + id.text.length + (n : ℤ) ≤ BLOB_BUFFER_MAX_SIZE
  · rw [if_neg (mt hsize.mp (not_not.mpr hreply)), if_neg (by decide), if_pos hreply]
  · rw [if_pos (hsize.mpr hreply), if_neg hreply]

/-! ## The requests that are served as they should be -/

theorem good_mset_iff (b : Block) (offset capacity : CInt) (value : Value) :
    Good id (some b) (.mset offset capacity value)
        (step id (some b) (.mset offset capacity value)) ↔
      (Request.mset offset capacity value).Served id b.bytes := by
  rw [Request.Served, ← or_assoc]
  by_cases hrefused : capacity.1 < value.bytes.length ∨ BLOB_BUFFER_MAX_SIZE < value.bytes.length
  · have hserve : serve id b (.mset offset capacity value) = some (.refused, b) := by
      rw [serve_mset, if_pos hrefused]
    refine iff_of_true ⟨b, b, rfl, ?_, .inl ⟨hserve, rfl, fun h ↦ ?_⟩⟩ (.inl hrefused)
    · rw [step, Option.bind_some, hserve]
      rfl
    · rcases hrefused with hlt | hlt
      · exact absurd hlt (not_lt.mpr h.1.2.1)
      · exact absurd hlt (not_lt.mpr h.2)
  rw [or_iff_right hrefused]
  have hcap : (value.bytes.length : ℤ) ≤ capacity.1 := not_lt.mp (not_or.mp hrefused).1
  constructor
  · rintro ⟨b', b'', hb, -, h⟩
    cases hb
    rw [serve_mset, if_neg hrefused] at h
    by_contra houtside
    cases hwrite : write b.bytes offset.1 (List.replicate capacity.1.toNat 0) with
    | none =>
      rw [hwrite] at h
      rcases h with ⟨h, -⟩ | ⟨out, h, -⟩ <;> cases h
    | some cleared =>
      -- nothing is cleared, so that the capacity and the value are empty
      have hzero : capacity.1 = 0 := by
        by_contra hne
        have hreplicate : List.replicate capacity.1.toNat (0 : UInt8) ≠ [] :=
          mt (List.replicate_eq_nil_iff _).mp (by omega)
        rw [write_outside hreplicate (by rw [List.length_replicate]; omega)] at hwrite
        cases hwrite
      rw [hwrite] at h
      rcases h with ⟨h, -⟩ | ⟨out, -, hfit, -⟩
      · obtain ⟨bytes, -, h⟩ := Option.map_eq_some_iff.mp h
        cases h
      · obtain ⟨hoffset, hle, -⟩ := hfit
        exact houtside ⟨hoffset, by omega⟩
  · rintro ⟨hoffset, hle⟩
    obtain ⟨cleared, hcleared, hlen, htake, -⟩ := @write_inside b.bytes
      (List.replicate capacity.1.toNat 0) _ hoffset (by rw [List.length_replicate]; omega)
    obtain ⟨after, hafter, hlen', htake', hvalue⟩ := @write_inside cleared
      value.bytes _ hoffset (by omega)
    have hserve : serve id b (.mset offset capacity value) =
        some (.done [], { b with bytes := after }) := by
      rw [serve_mset, if_neg hrefused, hcleared, Option.bind_some, hafter]
      rfl
    refine ⟨b, _, rfl, ?_, .inr ⟨[], hserve, ⟨hoffset, by omega, hcap, by omega⟩, rfl, ?_⟩⟩
    · rw [step, Option.bind_some, hserve]
      rfl
    · exact ⟨hlen'.trans hlen, htake'.trans htake, hvalue⟩

theorem good_mget_iff (b : Block) (offset capacity value_len : CInt) :
    Good id (some b) (.mget offset capacity value_len)
        (step id (some b) (.mget offset capacity value_len)) ↔
      (Request.mget offset capacity value_len).Served id b.bytes := by
  rw [Request.Served]
  by_cases hcap : capacity.1 ≠ -1 ∧ capacity.1 < value_len.1
  · have hserve : serve id b (.mget offset capacity value_len) = some (.refused, b) := by
      rw [serve_mget, if_pos hcap]
    refine iff_of_true ⟨b, b, rfl, ?_, .inl ⟨hserve, rfl, fun h ↦ ?_⟩⟩ (.inl hcap)
    · rw [step, Option.bind_some, hserve]
      rfl
    · rcases h.1.2.2.2 with h | h
      · exact hcap.1 h
      · exact absurd hcap.2 (not_lt.mpr h.1)
  rw [or_iff_right hcap]
  constructor
  · rintro ⟨b', b'', hb, hstep, h⟩
    cases hb
    rw [serve_mget, if_neg hcap] at h
    rcases h with ⟨h, -⟩ | ⟨out, h, hfit, -, -, hout⟩
    · split_ifs at h <;> cases h
    · split_ifs at h with hlen hreply
      swap
      · cases h
      cases h
      exact ⟨hfit, hreply, hout.symm⟩
  · rintro ⟨hfit, hshort, hagree⟩
    have hserve : serve id b (.mget offset capacity value_len) =
        some (.done (b.bytes.take value_len.1.toNat), b) := by
      obtain ⟨hoffset, hpos, hle, -⟩ := hfit
      have hshort' : 122 + id.text.length + value_len.1 ≤ BLOB_BUFFER_MAX_SIZE := hshort
      rw [serve_mget, if_neg hcap, if_neg (by omega), if_pos hshort']
    refine ⟨b, b, rfl, ?_, .inr ⟨_, hserve, hfit, rfl, rfl, hagree.symm⟩⟩
    rw [step, Option.bind_some, hserve]
    rfl

/-- The steps that are served as they should be. -/
def ServedStep (id : NodeId) (s : Option Block) (r : Request) (_ : Option Block) : Prop :=
  ∃ b, s = some b ∧ r.Served id b.bytes

theorem good_iff (s : Option Block) (r : Request) :
    Good id s r (step id s r) ↔ ServedStep id s r (step id s r) := by
  cases s with
  | none =>
    refine iff_of_false ?_ ?_
    · rintro ⟨b, b', hb, -⟩
      cases hb
    · rintro ⟨b, hb, -⟩
      cases hb
  | some b =>
    have hserved : ServedStep id (some b) r (step id (some b) r) ↔ r.Served id b.bytes :=
      ⟨fun ⟨_, hb, h⟩ ↦ Option.some.inj hb ▸ h, fun h ↦ ⟨b, rfl, h⟩⟩
    rw [hserved]
    cases r with
    | mset offset capacity value => exact good_mset_iff id b offset capacity value
    | mget offset capacity value_len => exact good_mget_iff id b offset capacity value_len

/-- A sequence of requests is served as it should be exactly if every request is one of those that
the code serves. -/
theorem served_iff (b : Block) (rs : List Request) :
    Run.Steps (step id) (Good id) (some b) rs ↔ Run.Steps (step id) (ServedStep id) (some b) rs :=
  Run.steps_iff_of_invariant (I := fun _ ↦ True) (fun s r _ ↦ good_iff id s r)
    (fun _ _ _ _ ↦ trivial) trivial

def eightBytes : Block := ⟨4096, [1, 2, 3, 4, 5, 6, 7, 8], by decide⟩

def someNode : NodeId :=
  ⟨[110], by decide, List.forall_iff_forall_mem.mp (by decide), by decide⟩

/-- What is read at offset 4 comes from the start of the block, and a value of one byte that is
written there with the capacity of the block clears what is behind it. -/
theorem not_served :
    ¬ Run.Steps (step someNode) (Good someNode) (some eightBytes)
      [.mget ⟨4, by decide⟩ ⟨8, by decide⟩ ⟨4, by decide⟩] ∧
    ¬ Run.Steps (step someNode) (Good someNode) (some eightBytes)
      [.mset ⟨4, by decide⟩ ⟨8, by decide⟩ ⟨8192, [9], by decide, by decide⟩] := by
  constructor
  · rintro ⟨h, -⟩
    rcases (good_mget_iff someNode eightBytes _ _ _).mp h with h | ⟨-, -, h⟩
    · revert h
      decide
    · revert h
      decide
  · rintro ⟨h, -⟩
    rcases (good_mset_iff someNode eightBytes _ _ _).mp h with h | h | h
    all_goals
      revert h
      decide

end Libobject.NodeMemory
