import Libobject.Stun.Receiver
import Libobject.Turn.Request

/-!
# The responses of a TURN server

The attributes stay in the header of the response, where their numbers are converted in place; what
is kept of one is its address there. What a log line prints is read: a text behind a `%s` up to the
first zero byte, wherever that lies.
-/

namespace Libobject.Turn

open Buffer
open Stun (Receiver ntohs xor)

def TURN_ATTR_TYPE_MAPPED_ADDR : ℕ := 0x0001
def TURN_ATTR_TYPE_RESPONSE_ADDRESS : ℕ := 0x0002
def TURN_ATTR_TYPE_CHANGE_REQUEST : ℕ := 0x0003
def TURN_ATTR_TYPE_SOURCE_ADDRESS : ℕ := 0x0004
def TURN_ATTR_TYPE_CHANGED_ADDRESS : ℕ := 0x0005
def TURN_ATTR_TYPE_PASSWORD : ℕ := 0x0007
def TURN_ATTR_TYPE_ERROR_CODE : ℕ := 0x0009
def TURN_ATTR_TYPE_UNKNOWN_ATTRIBUTES : ℕ := 0x000a
def TURN_ATTR_TYPE_REFLECTED_FROM : ℕ := 0x000b
def TURN_ATTR_TYPE_CHANNEL_NUMBER : ℕ := 0x000C
def TURN_ATTR_TYPE_XOR_RELAYED_ADDRESS : ℕ := 0x0016
def TURN_ATTR_TYPE_EVEN_PORT : ℕ := 0x0018
def TURN_ATTR_TYPE_XOR_MAPPED_ADDRESS : ℕ := 0x0020
def TURN_ATTR_TYPE_RESERVATION_TOKEN : ℕ := 0x0022
def TURN_ATTR_TYPE_SOFTWARE : ℕ := 0x8022
def TURN_ATTR_TYPE_FINGERPRINT : ℕ := 0x8028

/-- `TURN_ATTR_ENUM_…`, the places in the table of the parsers. -/
inductive AttrEnum
  | mapped_addr
  | response_address
  | change_request
  | source_address
  | changed_address
  | username
  | password
  | integrity
  | error_code
  | unknown_attributes
  | reflected_from
  | xor_mapped_address
  | channel_number
  | lifetime
  | xor_peer_address
  | data
  | realm
  | nonce
  | xor_relayed_address
  | even_port
  | requested_transport
  | dont_fragment
  | reserved
  | reservation_token
  | software
  | fingerprint
  deriving DecidableEq

/-- The pointers that the parsers set. -/
structure Attribs where
  mapped_address : Option ℕ
  changed_address : Option ℕ
  xor_mapped_address : Option ℕ
  xor_relayed_address : Option ℕ
  nonce : Option ℕ
  error_code : Option ℕ
  realm : Option ℕ
  software : Option ℕ
  fingerprint : Option ℕ
  data : Option ℕ
  deriving DecidableEq

abbrev Response := Receiver Attribs

/-! ## The parsers -/

/-- The port is converted, and the bytes of an address of family 1 are printed. -/
def show_address (mem : List UInt8) (p : ℕ) : Option (List UInt8) := do
  let (_, mem) ← ntohs mem (p + 6)
  let family ← mem[p + 5]?
  let _ ← get mem (p + 8) (if family = 1 then 4 else 0)
  return mem

/-- The port is converted and decoded, and so are the bytes of an address of family 1. -/
def decode_address (mem : List UInt8) (p : ℕ) : Option (List UInt8) := do
  let cookie_addr ← get mem 4 4
  let (_, mem) ← ntohs mem (p + 6)
  let port ← get mem (p + 6) 2
  let mem ← put mem (p + 6) (xor port (cookie_addr.take 2).reverse)
  let family ← mem[p + 5]?
  let ip ← get mem (p + 8) (if family = 1 then 4 else 0)
  put mem (p + 8) (xor ip cookie_addr)

/-- A `%s` reads on to the end of the text. -/
def show_text (mem : List UInt8) (p : ℕ) : Option (List UInt8) :=
  if 0 ∈ mem.drop p then some mem else none

/-- A text is copied to an array of 128 bytes, as long as it says it is, and printed from there. -/
def copy_text (mem : List UInt8) (p : ℕ) : Option (List UInt8) := do
  let bs ← get mem (p + 2) 2
  let value ← get mem (p + 4) (leNat bs)
  let buf ← put (List.replicate 128 0) 0 value
  let _ ← show_text buf 0
  return mem

variable (attribs : Attribs) (mem : List UInt8) (attrib : ℕ)

def turn_parse_attrib_mapped_addr : Option (Attribs × List UInt8) :=
  (show_address mem attrib).map ({ attribs with mapped_address := some attrib }, ·)

def turn_parse_attrib_changed_addr : Option (Attribs × List UInt8) :=
  (show_address mem attrib).map ({ attribs with changed_address := some attrib }, ·)

def turn_parse_attrib_xor_mapped_addr : Option (Attribs × List UInt8) :=
  (decode_address mem attrib).map ({ attribs with xor_mapped_address := some attrib }, ·)

def turn_parse_attrib_xor_relayed_addr : Option (Attribs × List UInt8) :=
  (decode_address mem attrib).map ({ attribs with xor_relayed_address := some attrib }, ·)

/-- The class, the number and the reason are printed. -/
def turn_parse_attrib_error_code : Option (Attribs × List UInt8) := do
  let _ ← get mem (attrib + 6) 2
  let mem ← show_text mem (attrib + 8)
  return ({ attribs with error_code := some attrib }, mem)

def turn_parse_attrib_realm : Option (Attribs × List UInt8) :=
  (show_text mem (attrib + 4)).map ({ attribs with realm := some attrib }, ·)

def turn_parse_attrib_nonce : Option (Attribs × List UInt8) :=
  (copy_text mem attrib).map ({ attribs with nonce := some attrib }, ·)

def turn_parse_attrib_software : Option (Attribs × List UInt8) :=
  (copy_text mem attrib).map ({ attribs with software := some attrib }, ·)

/-- `crc32 = ntohl(crc32)`. -/
def turn_parse_attrib_fingerprint : Option (Attribs × List UInt8) := do
  let crc32 ← get mem (attrib + 4) 4
  let mem ← put mem (attrib + 4) crc32.reverse
  return ({ attribs with fingerprint := some attrib }, mem)

def turn_parse_attrib_data : Option (Attribs × List UInt8) :=
  some ({ attribs with data := some attrib }, mem)

/-! ## The table -/

/-- The data stand here twice, and the last of the 26 slots was left zero. -/
def g_parse_policies_type_map : List (AttrEnum × ℕ) :=
  [(.mapped_addr, TURN_ATTR_TYPE_MAPPED_ADDR),
    (.response_address, TURN_ATTR_TYPE_RESPONSE_ADDRESS),
    (.change_request, TURN_ATTR_TYPE_CHANGE_REQUEST),
    (.source_address, TURN_ATTR_TYPE_SOURCE_ADDRESS),
    (.changed_address, TURN_ATTR_TYPE_CHANGED_ADDRESS),
    (.username, TURN_ATTR_TYPE_USERNAME),
    (.password, TURN_ATTR_TYPE_PASSWORD),
    (.integrity, TURN_ATTR_TYPE_INTEGRITY),
    (.error_code, TURN_ATTR_TYPE_ERROR_CODE),
    (.unknown_attributes, TURN_ATTR_TYPE_UNKNOWN_ATTRIBUTES),
    (.reflected_from, TURN_ATTR_TYPE_REFLECTED_FROM),
    (.channel_number, TURN_ATTR_TYPE_CHANNEL_NUMBER),
    (.lifetime, TURN_ATTR_TYPE_LIFETIME),
    (.xor_peer_address, TURN_ATTR_TYPE_XOR_PEER_ADDRESS),
    (.data, TURN_ATTR_TYPE_DATA),
    (.realm, TURN_ATTR_TYPE_REALM),
    (.nonce, TURN_ATTR_TYPE_NONCE),
    (.xor_relayed_address, TURN_ATTR_TYPE_XOR_RELAYED_ADDRESS),
    (.even_port, TURN_ATTR_TYPE_EVEN_PORT),
    (.requested_transport, TURN_ATTR_TYPE_REQUESTED_TRANSPORT),
    (.xor_mapped_address, TURN_ATTR_TYPE_XOR_MAPPED_ADDRESS),
    (.reservation_token, TURN_ATTR_TYPE_RESERVATION_TOKEN),
    (.software, TURN_ATTR_TYPE_SOFTWARE),
    (.fingerprint, TURN_ATTR_TYPE_FINGERPRINT),
    (.data, TURN_ATTR_TYPE_DATA),
    (.mapped_addr, 0)]

def turn_get_parser_policy_index (type : ℕ) : Option AttrEnum :=
  (g_parse_policies_type_map.find? (fun slot ↦ slot.2 = type)).map Prod.fst

def g_turn_parse_attr_policies :
    AttrEnum → Option (Attribs → List UInt8 → ℕ → Option (Attribs × List UInt8))
  | .mapped_addr => some turn_parse_attrib_mapped_addr
  | .changed_address => some turn_parse_attrib_changed_addr
  | .error_code => some turn_parse_attrib_error_code
  | .realm => some turn_parse_attrib_realm
  | .nonce => some turn_parse_attrib_nonce
  | .software => some turn_parse_attrib_software
  | .fingerprint => some turn_parse_attrib_fingerprint
  | .xor_mapped_address => some turn_parse_attrib_xor_mapped_addr
  | .xor_relayed_address => some turn_parse_attrib_xor_relayed_addr
  | .data => some turn_parse_attrib_data
  | _ => none

/-! ## Reading -/

/-- The attributes from the offset `i` on, with the length of the message as fuel. -/
def read_attribs (msglen : ℕ) :
    ℕ → ℕ → List UInt8 → Attribs → Option (ℤ × List UInt8 × Attribs)
  | 0, _, mem, attribs => some (1, mem, attribs)
  | fuel + 1, i, mem, attribs =>
    if msglen ≤ i then some (1, mem, attribs)
    else do
      let (type, mem) ← ntohs mem (20 + i)
      let (len, mem) ← ntohs mem (20 + i + 2)
      let attr_len := 4 + (len + (4 - len % 4) % 4)
      match (turn_get_parser_policy_index type).bind g_turn_parse_attr_policies with
      | none => read_attribs msglen fuel (i + attr_len) mem attribs
      | some policy =>
        let (attribs, mem) ← policy attribs mem (20 + i)
        read_attribs msglen fuel (i + attr_len) mem attribs

def Response.read : Response → Option ((ℤ × Option ℕ) × Response) :=
  Receiver.read fun msglen fuel ↦ read_attribs msglen fuel 0

end Libobject.Turn
