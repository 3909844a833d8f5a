import Libobject.Lib.Buffer
import Libobject.Lib.Bytes
import Libobject.Lib.Decimal
import Libobject.Core.RingBuffer
import Libobject.Core.RbTreeMap

/-!
# Binding replies

A datagram is written to the ring buffer of the response and read from it into the memory of the
header, where the numbers are converted in place. An access outside that memory is undefined. The
attributes go to a map that the next response shares.
-/

namespace Libobject.Stun

open Scan Buffer

/-- What a lookup reads of an attribute: `host` and `service`. -/
structure MappedAddress where
  host : Text
  service : Text
  deriving DecidableEq

abbrev Attribs := RbTreeMap (compare : ℕ → ℕ → Ordering) MappedAddress

structure Response where
  header : List UInt8
  attribs : Attribs
  buffer : RingBuffer

def header_max_len : ℕ := 548

def STUN_BINDRESP : ℕ := 0x0101

def STUN_MAGIC_COOKIE : List UInt8 := [0x21, 0x12, 0xA4, 0x42]

def STUN_ATR_TYPE_MAPPED_ADDR : ℕ := 0x0001

def STUN_ATR_TYPE_CHANGED_ADDRESS : ℕ := 0x0005

def STUN_ATR_TYPE_XOR_MAPPED_ADDR : ℕ := 0x0020

/-- `x = ntohs(x)` in place: the number, and the memory with its two bytes swapped. -/
def ntohs (mem : List UInt8) (p : ℕ) : Option (ℕ × List UInt8) := do
  let bs ← get mem p 2
  let mem ← put mem p bs.reverse
  return (beNat bs, mem)

def xor (bs cookie : List UInt8) : List UInt8 := List.zipWith (· ^^^ ·) bs cookie

/-- The value of the attribute starts at `p`. Every address is decoded with the cookie alone. -/
def xor_decode_mapped_address (mem : List UInt8) (p : ℕ) : Option (List UInt8) := do
  let cookie ← get mem 4 4
  let family ← mem[p + 1]?
  let port ← get mem (p + 2) 2
  let mem ← put mem (p + 2) (xor port cookie)
  let ip ← get mem (p + 4) (if family = 1 then 4 else 16)
  put mem (p + 4) (xor ip (cookie ++ cookie ++ cookie ++ cookie))

/-- `"%d."` for every byte but the last, which has `"%d"`: at most 31 characters for eight bytes,
and `host` is written up to 32. -/
def dotted : List UInt8 → Text
  | [] => []
  | [b] => showNat b.toNat
  | b :: bs => showNat b.toNat ++ 46 :: dotted bs

/-- `-1` is `none` inside. Of an address of family 2 the first eight bytes are used. -/
def parse_attrib_address (mem : List UInt8) (p : ℕ) : Option (Option MappedAddress) := do
  let family ← mem[p + 1]?
  if family ≠ 1 ∧ family ≠ 2 then return none
  let port ← get mem (p + 2) 2
  let ip ← get mem (p + 4) (if family = 1 then 4 else 8)
  return some ⟨dotted ip, showNat (beNat port)⟩

def parse_attrib_mapped_addr : List UInt8 → ℕ → Option (Option MappedAddress) :=
  parse_attrib_address

def parse_attrib_changed_addr : List UInt8 → ℕ → Option (Option MappedAddress) :=
  parse_attrib_address

def stun_parse_attr_policies : List (ℕ × (List UInt8 → ℕ → Option (Option MappedAddress))) :=
  [(STUN_ATR_TYPE_MAPPED_ADDR, parse_attrib_mapped_addr),
    (STUN_ATR_TYPE_XOR_MAPPED_ADDR, parse_attrib_mapped_addr),
    (STUN_ATR_TYPE_CHANGED_ADDRESS, parse_attrib_changed_addr)]

def find_policy (type : ℕ) : Option (List UInt8 → ℕ → Option (Option MappedAddress)) :=
  (stun_parse_attr_policies.find? (fun policy ↦ policy.1 = type)).map Prod.snd

/-- The attribute at `p` with its numbers converted: its type, its length with the alignment, and
the memory after that. -/
def raw_attrib (mem : List UInt8) (p : ℕ) : Option (ℕ × ℕ × List UInt8) := do
  let (type, mem) ← ntohs mem p
  let (len, mem) ← ntohs mem (p + 2)
  let total := 4 + (len + 3) / 4 * 4
  let mem ← if type = STUN_ATR_TYPE_XOR_MAPPED_ADDR then xor_decode_mapped_address mem (p + 4)
    else some mem
  return (type, total, mem)

variable (rb : Rebalance (ℕ × MappedAddress))

/-- The attributes from the offset `i` on. The loop goes on `fuel` times at most; every attribute
takes four bytes at least, so that the length of the message is enough. -/
def read_attribs (msglen : ℕ) : ℕ → ℕ → List UInt8 → Attribs → Option (ℤ × List UInt8 × Attribs)
  | 0, _, mem, map => some (1, mem, map)
  | fuel + 1, i, mem, map =>
    if msglen ≤ i then some (1, mem, map)
    else do
      let (type, total, mem) ← raw_attrib mem (20 + i)
      match find_policy type with
      | none => read_attribs msglen fuel (i + total) mem map
      | some policy =>
        match ← policy mem (20 + i + 4) with
        | none => some (-1, mem, map)
        | some attr => read_attribs msglen fuel (i + total) mem (map.add rb type attr)

namespace Response

/-- A new object; its two memories hold what the allocator gave. -/
def new (header ring : List UInt8) : Response := ⟨header, .empty, .new ring⟩

/-- What is returned, and `header->msgtype` if the header was read. -/
def read (resp : Response) : Option ((ℤ × Option ℕ) × Response) :=
  let len := resp.buffer.getLen
  if header_max_len < len ∨ len < 20 then some ((-1, none), resp)
  else do
    let (bs, buffer) := resp.buffer.read len
    let mem ← put resp.header 0 bs
    let (msgtype, mem) ← ntohs mem 0
    let (msglen, mem) ← ntohs mem 2
    if msglen = 0 then return ((1, some msgtype), ⟨mem, resp.attribs, buffer⟩)
    let (ret, mem, attribs) ← read_attribs rb msglen msglen 0 mem resp.attribs
    return ((ret, some msgtype), ⟨mem, attribs, buffer⟩)

end Response

end Libobject.Stun
