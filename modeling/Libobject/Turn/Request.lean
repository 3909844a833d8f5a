import Libobject.Lib.Run
import Libobject.Lib.Scan
import Libobject.Lib.Tlv
import Mathlib.Data.Vector.Basic

/-!
# The requests of a TURN client

A request collects attributes in a vector and is sent as its header with these behind it. Before the
last attribute is added the message as it will be is to be digested, by a function that the class of
the client's digest does not have. The client keeps the vector and the nonce of the server from one
request to the next.
-/

namespace Libobject.Turn

open Scan

def STUN_QUEST : ℕ := 0x0000
def STUN_INDICATION : ℕ := 0x0010
def TURN_METHOD_ALLOCATE : ℕ := 0x0003
def TURN_METHOD_SEND : ℕ := 0x0006
def TURN_METHOD_CREATEPERMISSION : ℕ := 0x0008

def TURN_ATTR_TYPE_USERNAME : ℕ := 0x0006
def TURN_ATTR_TYPE_INTEGRITY : ℕ := 0x0008
def TURN_ATTR_TYPE_LIFETIME : ℕ := 0x000D
def TURN_ATTR_TYPE_XOR_PEER_ADDRESS : ℕ := 0x0012
def TURN_ATTR_TYPE_DATA : ℕ := 0x0013
def TURN_ATTR_TYPE_REALM : ℕ := 0x0014
def TURN_ATTR_TYPE_NONCE : ℕ := 0x0015
def TURN_ATTR_TYPE_REQUESTED_FAMILY : ℕ := 0x0017
def TURN_ATTR_TYPE_REQUESTED_TRANSPORT : ℕ := 0x0019

def magic_cookie : List UInt8 := [0x21, 0x12, 0xA4, 0x42]

/-! ## Attributes -/

/-- The address of a peer; of another family none is sent. -/
inductive Addr
  | inet (ip : List.Vector UInt8 4) (port : UInt16)
  | other
  deriving DecidableEq

/-- What a request is made from; a missing string is a null pointer. -/
structure Arg where
  nonce_len : ℤ
  realm : Option Text
  user : Option Text
  lifetime : UInt32
  family : UInt8
  password : Option Text
  addr : Addr
  deriving DecidableEq

section Attributes

variable (vector : List Tlv.Record)

/-- The lengths of these are taken as bytes. -/
def turn_set_attrib_text (type : ℕ) (value : List UInt8) : List Tlv.Record :=
  let len := value.length % 256
  if len = 0 then vector else vector ++ [(type, value.take len)]

def turn_set_attrib_nonce : List UInt8 → List Tlv.Record :=
  turn_set_attrib_text vector TURN_ATTR_TYPE_NONCE

def turn_set_attrib_realm : List UInt8 → List Tlv.Record :=
  turn_set_attrib_text vector TURN_ATTR_TYPE_REALM

def turn_set_attrib_username : List UInt8 → List Tlv.Record :=
  turn_set_attrib_text vector TURN_ATTR_TYPE_USERNAME

/-- The lifetime is taken as an `int`. -/
def turn_set_attrib_lifetime (lifetime : UInt32) : List Tlv.Record :=
  if 2 ^ 31 ≤ lifetime.toNat then vector
  else vector ++ [(TURN_ATTR_TYPE_LIFETIME, beBytes 4 lifetime.toNat)]

def turn_set_attrib_requested_family (family : UInt8) : List Tlv.Record :=
  if family ≠ 1 ∨ family ≠ 2 then vector
  else vector ++ [(TURN_ATTR_TYPE_REQUESTED_FAMILY, [family, 0, 0, 0])]

def turn_set_attrib_requested_transport (protocol : UInt8) : List Tlv.Record :=
  vector ++ [(TURN_ATTR_TYPE_REQUESTED_TRANSPORT, [protocol, 0, 0, 0])]

def turn_set_attrib_integrity (value : List.Vector UInt8 20) : List Tlv.Record :=
  vector ++ [(TURN_ATTR_TYPE_INTEGRITY, value.val)]

/-- The value of the attribute: reserved, family, port and address, these two with the cookie. -/
def peerAddress (ip : List.Vector UInt8 4) (port : UInt16) : List UInt8 :=
  0 :: 1 :: (beBytes 2 (port.toNat ^^^ 0x2112) ++ List.zipWith (· ^^^ ·) ip.val magic_cookie)

def turn_set_attrib_xor_peer_address : Addr → List Tlv.Record
  | .inet ip port => vector ++ [(TURN_ATTR_TYPE_XOR_PEER_ADDRESS, peerAddress ip port)]
  | .other => vector

/-- -1 is `none`. -/
def turn_set_attrib_data (value : List UInt8) : Option (List Tlv.Record) :=
  if value.length > 2048 then none else some (vector ++ [(TURN_ATTR_TYPE_DATA, value)])

/-- `count_attrib_len_for_each` over the vector. -/
def count_attrib_len : ℕ :=
  vector.foldl (fun len r ↦ len + (r.2.length + 4 + (r.2.length + 4) % 4)) 0

/-- `write_attrib_to_send_buffer_for_each`. -/
def write_attrib (r : Tlv.Record) : List UInt8 :=
  beBytes 2 r.1 ++ (beBytes 2 r.2.length ++
    (r.2 ++ List.replicate ((r.2.length + 4) % 4) 0))

end Attributes

/-! ## The client -/

structure Header where
  msgtype : ℕ
  msglen : ℕ
  transaction_id : List.Vector UInt8 12

def Header.bytes (h : Header) : List UInt8 :=
  beBytes 2 h.msgtype ++ (beBytes 2 h.msglen ++ (magic_cookie ++ h.transaction_id.val))

structure Client where
  header : Header
  attribs : List Tlv.Record
  nonce : List UInt8
  auth_code : List.Vector UInt8 16

def Client.new : Client :=
  ⟨⟨0, 0, List.Vector.replicate 12 0⟩, [], [], List.Vector.replicate 16 0⟩

/-- The function of `Digest` that starts it with a key, and what it leads to: a null pointer in
`Digest`, which `Digest_Sha1`, the class of the client's digest, does not replace. -/
def Digest_Sha1.init_with_key : Option (List UInt8 → List UInt8 → List.Vector UInt8 20) := none

/-- The keyed digest of the protocol and the hash of the authentication code. -/
structure Crypto where
  digest : List UInt8 → List UInt8 → List.Vector UInt8 20
  md5 : List UInt8 → List.Vector UInt8 16

def generate_auth_code (c : Crypto) (username realm password : Option Text) :
    Option (List.Vector UInt8 16) := do
  let username ← username
  let realm ← realm
  let password ← password
  if username.length + realm.length + password.length + 2 > 1023 then none
  else return c.md5 (username ++ 58 :: (realm ++ 58 :: password))

namespace Client

variable (c : Crypto) (turn : Client)

def set_head (msgtype : ℕ) (transaction_id : List.Vector UInt8 12) : Client :=
  { turn with header := ⟨msgtype, 0, transaction_id⟩ }

/-- The digest is over what is in the vector, with a length that counts one more attribute. A call
of what is not there is `none`. -/
def compute_integrity (key : List.Vector UInt8 16) : Option (Client × List.Vector UInt8 20) := do
  let turn := { turn with header.msglen := count_attrib_len turn.attribs + 24 }
  let digest ← Digest_Sha1.init_with_key
  return (turn, digest key.val (turn.header.bytes ++ turn.attribs.flatMap write_attrib))

/-- The message that is sent. -/
def send : Client × List UInt8 :=
  let turn := { turn with header.msglen := count_attrib_len turn.attribs }
  (turn, turn.header.bytes ++ turn.attribs.flatMap write_attrib)

/-- The end of every request. -/
def finish (key : List.Vector UInt8 16) : Option (Client × Option (List UInt8)) := do
  let (turn, result) ← turn.compute_integrity key
  return { turn with attribs := turn_set_attrib_integrity turn.attribs result }.send.map id some

/-- The attributes of an earlier request are still in the vector. -/
def allocate_address (arg : Arg) (transaction_id : List.Vector UInt8 12) :
    Option (Client × Option (List UInt8)) :=
  if arg.nonce_len > 128 then some (turn, none)
  else
    let turn := turn.set_head (STUN_QUEST ||| TURN_METHOD_ALLOCATE) transaction_id
    if turn.nonce ≠ [] then
      let vector := turn_set_attrib_nonce turn.attribs turn.nonce
      let vector := turn_set_attrib_realm vector (arg.realm.getD [])
      let vector := turn_set_attrib_username vector (arg.user.getD [])
      let vector := turn_set_attrib_lifetime vector arg.lifetime
      let vector := turn_set_attrib_requested_family vector arg.family
      let vector := turn_set_attrib_requested_transport vector 17
      let turn := { turn with attribs := vector }
      match generate_auth_code c arg.user arg.realm arg.password with
      | none => some (turn, none)
      | some key => turn.finish key
    else some (turn.send.map id some)

def create_permission (arg : Arg) (transaction_id : List.Vector UInt8 12) :
    Option (Client × Option (List UInt8)) :=
  let turn := { turn with attribs := [] }
  let turn := turn.set_head (STUN_QUEST ||| TURN_METHOD_CREATEPERMISSION) transaction_id
  let vector := turn_set_attrib_nonce turn.attribs turn.nonce
  let vector := turn_set_attrib_realm vector (arg.realm.getD [])
  let vector := turn_set_attrib_username vector (arg.user.getD [])
  let vector := turn_set_attrib_xor_peer_address vector arg.addr
  { turn with attribs := vector }.finish turn.auth_code

def send_indication (arg : Arg) (value : List UInt8) (transaction_id : List.Vector UInt8 12) :
    Option (Client × Option (List UInt8)) :=
  let turn := { turn with attribs := [] }
  let turn := turn.set_head (STUN_INDICATION ||| TURN_METHOD_SEND) transaction_id
  let vector := turn_set_attrib_nonce turn.attribs turn.nonce
  let vector := turn_set_attrib_realm vector (arg.realm.getD [])
  let vector := turn_set_attrib_username vector (arg.user.getD [])
  match turn_set_attrib_data vector value with
  | none => some ({ turn with attribs := vector }, none)
  | some vector =>
    let vector := turn_set_attrib_xor_peer_address vector arg.addr
    { turn with attribs := vector }.finish turn.auth_code

end Client

/-- A request, or what comes in between: the nonce of an error response, and the code that the user
of the client has made. -/
inductive Event
  | allocate_address (arg : Arg) (transaction_id : List.Vector UInt8 12)
  | create_permission (arg : Arg) (transaction_id : List.Vector UInt8 12)
  | send_indication (arg : Arg) (value : List UInt8) (transaction_id : List.Vector UInt8 12)
  | nonce (value : List UInt8)
  | auth_code (code : List.Vector UInt8 16)

def Client.serve (c : Crypto) (turn : Client) : Event → Option (Client × Option (List UInt8))
  | .allocate_address arg tid => turn.allocate_address c arg tid
  | .create_permission arg tid => turn.create_permission arg tid
  | .send_indication arg value tid => turn.send_indication arg value tid
  | .nonce value => some ({ turn with nonce := value }, none)
  | .auth_code code => some ({ turn with auth_code := code }, none)

/-! ## What a message should be -/

/-- A text that is asked for, unless it is empty. -/
def askedText (type : ℕ) (value : List UInt8) : List Tlv.Record :=
  if value = [] then [] else [(type, value)]

/-- For a peer of another family there is no attribute to ask for it with. -/
def Addr.asked : Addr → Option Tlv.Record
  | .inet ip port => some (TURN_ATTR_TYPE_XOR_PEER_ADDRESS, peerAddress ip port)
  | .other => none

/-- The attributes that every request asks for. -/
def Arg.credentials (nonce : List UInt8) (arg : Arg) : List Tlv.Record :=
  askedText TURN_ATTR_TYPE_NONCE nonce ++
    (askedText TURN_ATTR_TYPE_REALM (arg.realm.getD []) ++
      askedText TURN_ATTR_TYPE_USERNAME (arg.user.getD []))

/-- The attributes that a request asks for, and the key of its digest. -/
def Event.asked (c : Crypto) (turn : Client) :
    Event → Option (List Tlv.Record × List.Vector UInt8 16)
  | .allocate_address arg _ => do
    let key ← generate_auth_code c arg.user arg.realm arg.password
    return (arg.credentials turn.nonce ++
      [(TURN_ATTR_TYPE_LIFETIME, beBytes 4 arg.lifetime.toNat),
        (TURN_ATTR_TYPE_REQUESTED_FAMILY, [arg.family, 0, 0, 0]),
        (TURN_ATTR_TYPE_REQUESTED_TRANSPORT, [17, 0, 0, 0])], key)
  | .create_permission arg _ => do
    let peer ← arg.addr.asked
    return (arg.credentials turn.nonce ++ [peer], turn.auth_code)
  | .send_indication arg value _ => do
    let peer ← arg.addr.asked
    return (arg.credentials turn.nonce ++ [(TURN_ATTR_TYPE_DATA, value), peer], turn.auth_code)
  | .nonce _ | .auth_code _ => none

/-- A message of the attributes that were asked for and the digest of what is in front of it. -/
structure WellFormed (c : Crypto) (key : List.Vector UInt8 16) (asked : List Tlv.Record)
    (message : List UInt8) : Prop where
  length : message.length = 20 + beNat (field message 2 2)
  walk : Tlv.walk message.length (message.drop 20) = some (asked ++
    [(TURN_ATTR_TYPE_INTEGRITY, (c.digest key.val (message.take (message.length - 24))).val)])

/-- The request returns, and what it sends is a message as it was asked for. -/
def Encoded (c : Crypto) (turn : Client) (e : Event) : Prop :=
  ∃ r ∈ turn.serve c e, ∀ message ∈ r.2, ∃ asked ∈ e.asked c turn,
    WellFormed c asked.2 asked.1 message

/-- The lengths and numbers that a request may have. -/
def Event.Allowed : Event → Prop
  | .allocate_address arg _ =>
    (arg.realm.getD []).length ≤ 128 ∧ (arg.user.getD []).length ≤ 128 ∧
      arg.lifetime.toNat < 2 ^ 31 ∧ (arg.family = 1 ∨ arg.family = 2)
  | .create_permission arg _ =>
    (arg.realm.getD []).length ≤ 128 ∧ (arg.user.getD []).length ≤ 128
  | .send_indication arg value _ =>
    (arg.realm.getD []).length ≤ 128 ∧ (arg.user.getD []).length ≤ 128 ∧ value.length ≤ 2048
  | .nonce value => value.length ≤ 128
  | .auth_code _ => True

/-- A request that is allowed. -/
structure Call where
  event : Event
  allowed : event.Allowed

/-- Where a call is not defined, the client stays as it is. -/
def Client.step (c : Crypto) (turn : Client) (e : Call) : Client :=
  ((turn.serve c e.event).map Prod.fst).getD turn

/-- An allocation that is given up before anything is sent. -/
def Event.Refused (c : Crypto) (turn : Client) : Event → Prop
  | .allocate_address arg _ =>
    128 < arg.nonce_len ∨
      turn.nonce ≠ [] ∧ generate_auth_code c arg.user arg.realm arg.password = none
  | .create_permission _ _ | .send_indication _ _ _ => False
  | .nonce _ | .auth_code _ => True

/-! ## Requests -/

/-- What a refused request has left in the vector starts with its nonce. -/
structure Client.Stale (turn : Client) : Prop where
  nonce : turn.nonce.length ≤ 128
  head : ∀ r ∈ turn.attribs.head?, r.1 = TURN_ATTR_TYPE_NONCE

theorem stale_new : Client.new.Stale where
  nonce := Nat.zero_le _
  head _ hr := nomatch hr

section Requests

variable {c : Crypto} {turn : Client}

theorem Header.length_bytes (h : Header) : h.bytes.length = 20 := by
  have htid : h.transaction_id.val.length = 12 := h.transaction_id.2
  simp only [Header.bytes, List.length_append, length_beBytes, htid]
  rfl

/-- The setters add to the end of the vector. -/
theorem prefix_text (v : List Tlv.Record) (type : ℕ) (value : List UInt8) :
    v <+: turn_set_attrib_text v type value := by
  rw [turn_set_attrib_text]
  split
  · exact List.prefix_rfl
  · exact List.prefix_append _ _

theorem prefix_lifetime (v : List Tlv.Record) (lifetime : UInt32) :
    v <+: turn_set_attrib_lifetime v lifetime := by
  rw [turn_set_attrib_lifetime]
  split
  · exact List.prefix_rfl
  · exact List.prefix_append _ _

theorem prefix_family (v : List Tlv.Record) (family : UInt8) :
    v <+: turn_set_attrib_requested_family v family := by
  rw [turn_set_attrib_requested_family]
  split
  · exact List.prefix_rfl
  · exact List.prefix_append _ _

theorem head_nonce (h : turn.Stale) (hnonce : turn.nonce ≠ []) {v : List Tlv.Record}
    (hkept : turn_set_attrib_nonce turn.attribs turn.nonce <+: v) :
    ∀ r ∈ v.head?, r.1 = TURN_ATTR_TYPE_NONCE := by
  have hlen : turn.nonce.length % 256 = turn.nonce.length :=
    Nat.mod_eq_of_lt (Nat.lt_of_le_of_lt h.nonce (by decide))
  have hset : turn_set_attrib_nonce turn.attribs turn.nonce =
      turn.attribs ++ [(TURN_ATTR_TYPE_NONCE, turn.nonce)] := by
    rw [turn_set_attrib_nonce, turn_set_attrib_text, hlen, List.take_length]
    exact if_neg fun hzero ↦ hnonce (List.length_eq_zero_iff.mp hzero)
  obtain ⟨rest, rfl⟩ := hkept
  rw [hset]
  cases hattribs : turn.attribs with
  | nil =>
    intro r hr
    cases hr
    rfl
  | cons r attribs =>
    have hhead := h.head
    rw [hattribs] at hhead
    exact hhead

theorem allocate_address_refused {arg : Arg} {tid : List.Vector UInt8 12} (h : turn.Stale)
    (hrefused : (Event.allocate_address arg tid).Refused c turn) :
    ∃ turn' : Client, turn.serve c (.allocate_address arg tid) = some (turn', none) ∧
      turn'.Stale := by
  change ∃ turn' : Client, turn.allocate_address c arg tid = some (turn', none) ∧ turn'.Stale
  rw [Client.allocate_address]
  by_cases hlong : arg.nonce_len > 128
  · exact ⟨turn, if_pos hlong, h⟩
  · obtain ⟨hnonce, hcode⟩ := hrefused.resolve_left hlong
    dsimp only [Client.set_head]
    rw [if_neg hlong, if_pos hnonce, hcode]
    refine ⟨_, rfl, h.nonce, head_nonce h hnonce ?_⟩
    exact (prefix_text _ _ _).trans ((prefix_text _ _ _).trans ((prefix_lifetime _ _).trans
      ((prefix_family _ _).trans (List.prefix_append _ _))))

/-- What is asked of an allocation has no nonce where there is none. -/
theorem asked_ne_nonce (hnonce : turn.nonce = []) {arg : Arg} {tid : List.Vector UInt8 12}
    {asked : List Tlv.Record × List.Vector UInt8 16}
    (h : asked ∈ (Event.allocate_address arg tid).asked c turn) :
    ∀ r ∈ asked.1, r.1 ≠ TURN_ATTR_TYPE_NONCE := by
  obtain ⟨key, -, heq⟩ := Option.bind_eq_some_iff.mp h
  have htext {type : ℕ} {value : List UInt8} {r : Tlv.Record} (hr : r ∈ askedText type value) :
      r.1 = type := by
    rw [askedText] at hr
    split at hr
    · exact (List.not_mem_nil hr).elim
    · rw [List.mem_singleton.mp hr]
  intro r hr
  rw [← Option.some.inj heq, Arg.credentials, hnonce, askedText, if_pos rfl, List.nil_append] at hr
  simp only [List.mem_append, List.mem_cons, List.not_mem_nil, or_false] at hr
  rcases hr with (hr | hr) | rfl | rfl | rfl
  · rw [htext hr]
    decide
  · rw [htext hr]
    decide
  · exact (by decide : TURN_ATTR_TYPE_LIFETIME ≠ TURN_ATTR_TYPE_NONCE)
  · exact (by decide : TURN_ATTR_TYPE_REQUESTED_FAMILY ≠ TURN_ATTR_TYPE_NONCE)
  · exact (by decide : TURN_ATTR_TYPE_REQUESTED_TRANSPORT ≠ TURN_ATTR_TYPE_NONCE)

/-- The message of a client without a nonce starts with no attribute that was asked for. -/
theorem send_not_wellFormed (h : turn.Stale) {key : List.Vector UInt8 16}
    {asked : List Tlv.Record} (hasked : ∀ r ∈ asked, r.1 ≠ TURN_ATTR_TYPE_NONCE) :
    ¬ WellFormed c key asked turn.send.2 := by
  rintro ⟨-, hwalk⟩
  have hdrop : turn.send.2.drop 20 = turn.attribs.flatMap write_attrib :=
    List.drop_left' (Header.length_bytes _)
  rw [hdrop] at hwalk
  cases hattribs : turn.attribs with
  | nil =>
    rw [hattribs, List.flatMap_nil, Tlv.walk] at hwalk
    exact List.append_ne_nil_of_right_ne_nil _ (List.cons_ne_nil _ _)
      (Option.some.inj hwalk).symm
  | cons r attribs =>
    have hr : r.1 = TURN_ATTR_TYPE_NONCE := h.head r (by rw [hattribs]; rfl)
    generalize hall : asked ++ _ = all at hwalk
    have hne : ∀ r ∈ all, r.1 ≠ TURN_ATTR_TYPE_NONCE := by
      have hseal : TURN_ATTR_TYPE_INTEGRITY ≠ TURN_ATTR_TYPE_NONCE := by decide
      rw [← hall]
      exact List.forall_mem_append.mpr ⟨hasked, List.forall_mem_singleton.mpr hseal⟩
    cases all with
    | nil => exact (List.append_ne_nil_of_right_ne_nil _ (List.cons_ne_nil _ _) hall).elim
    | cons first rest =>
      refine hne first List.mem_cons_self ((Tlv.walk_cons hwalk).trans ?_)
      rw [hattribs, List.flatMap_cons, write_attrib, hr, List.append_assoc,
        List.take_left' (length_beBytes 2 _)]
      rfl

theorem serve_encoded_iff (h : turn.Stale) {e : Event} (hallowed : e.Allowed) :
    Encoded c turn e ↔ e.Refused c turn := by
  cases e with
  | allocate_address arg tid =>
    constructor
    · rintro ⟨r, hr, hmessage⟩
      change turn.allocate_address c arg tid = some r at hr
      rw [Client.allocate_address] at hr
      by_contra hrefused
      rw [Event.Refused, not_or, not_and] at hrefused
      obtain ⟨hlong, hcode⟩ := hrefused
      dsimp only [Client.set_head] at hr
      rw [if_neg hlong] at hr
      by_cases hnonce : turn.nonce = []
      · rw [if_neg (not_not_intro hnonce)] at hr
        obtain rfl := Option.some.inj hr
        obtain ⟨asked, hasked, hformed⟩ := hmessage _ rfl
        have hstale : (turn.set_head (STUN_QUEST ||| TURN_METHOD_ALLOCATE) tid).Stale :=
          ⟨h.nonce, h.head⟩
        exact send_not_wellFormed hstale (asked_ne_nonce hnonce hasked) hformed
      · obtain ⟨key, hkey⟩ := Option.ne_none_iff_exists'.mp (hcode hnonce)
        rw [if_pos hnonce, hkey] at hr
        cases hr
    · intro hrefused
      obtain ⟨turn', hserve, -⟩ := allocate_address_refused h hrefused
      exact ⟨_, hserve, fun message hmessage ↦ nomatch hmessage⟩
  | create_permission arg tid =>
    refine iff_of_false ?_ id
    rintro ⟨r, hr, -⟩
    cases hr
  | send_indication arg value tid =>
    refine iff_of_false ?_ id
    rintro ⟨r, hr, -⟩
    change turn.send_indication arg value tid = some r at hr
    have hdata (v : List Tlv.Record) : turn_set_attrib_data v value =
        some (v ++ [(TURN_ATTR_TYPE_DATA, value)]) := if_neg (Nat.not_lt.mpr hallowed.2.2)
    rw [Client.send_indication] at hr
    dsimp only at hr
    rw [hdata] at hr
    cases hr
  | nonce value => exact iff_of_true ⟨_, rfl, fun message hmessage ↦ nomatch hmessage⟩ trivial
  | auth_code code => exact iff_of_true ⟨_, rfl, fun message hmessage ↦ nomatch hmessage⟩ trivial

theorem stale_step (h : turn.Stale) {e : Call} (hrefused : e.event.Refused c turn) :
    (turn.step c e).Stale := by
  obtain ⟨e, hallowed⟩ := e
  cases e with
  | allocate_address arg tid =>
    obtain ⟨turn', hserve, hstale⟩ := allocate_address_refused h hrefused
    rw [Client.step, hserve]
    exact hstale
  | create_permission arg tid => exact hrefused.elim
  | send_indication arg value tid => exact hrefused.elim
  | nonce value => exact ⟨hallowed, h.head⟩
  | auth_code code => exact ⟨h.nonce, h.head⟩

end Requests

/-- A run of a new client is encoded as it was asked for exactly as long as its requests are
refused: whatever is sent, or would be, is not. -/
theorem requests_encoded_iff (c : Crypto) (events : List Call) :
    Run.Steps (Client.step c) (fun turn e _ ↦ Encoded c turn e.event) .new events ↔
      Run.Steps (Client.step c) (fun turn e _ ↦ e.event.Refused c turn) .new events :=
  Run.steps_iff_of_invariant (I := Client.Stale) (fun _ e h ↦ serve_encoded_iff h e.allowed)
    (fun _ _ h hrefused ↦ stale_step h hrefused) stale_new

/-! ## A user name of one letter -/

def constCrypto : Crypto :=
  ⟨fun _ _ ↦ List.Vector.replicate 20 0, fun _ ↦ List.Vector.replicate 16 0⟩

def shortUser : Arg :=
  ⟨0, some [114], some [97], 600, 1, some [112], .inet (List.Vector.replicate 4 0) 0⟩

def permission : Call :=
  ⟨.create_permission shortUser (List.Vector.replicate 12 0), ⟨by decide, by decide⟩⟩

def allocation : Call :=
  ⟨.allocate_address shortUser (List.Vector.replicate 12 0),
    ⟨by decide, by decide, by decide, Or.inl rfl⟩⟩

/-- The permission calls a null pointer, and the allocation sends a header alone. -/
theorem not_encoded :
    (¬ Run.Steps (Client.step constCrypto)
      (fun turn e _ ↦ Encoded constCrypto turn e.event) .new [permission]) ∧
    ¬ Run.Steps (Client.step constCrypto)
      (fun turn e _ ↦ Encoded constCrypto turn e.event) .new [allocation] := by
  simp only [Run.steps_cons, Run.steps_nil, and_true]
  refine ⟨?_, ?_⟩
  · rintro ⟨r, hr, -⟩
    cases hr
  · rintro ⟨r, hr, hmessage⟩
    cases hr
    obtain ⟨asked, -, hformed⟩ := hmessage _ rfl
    have hwalk := hformed.walk
    change some [] = some _ at hwalk
    exact List.append_ne_nil_of_right_ne_nil _ (List.cons_ne_nil _ _) (Option.some.inj hwalk).symm

end Libobject.Turn
