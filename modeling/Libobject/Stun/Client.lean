import Mathlib.Data.List.DropRight
import Libobject.Core.OwnedMap
import Libobject.P2p.Signal
import Libobject.Stun.Probe

/-!
# The node on the side of the caller and the callee

A node keeps a session for each peer, under the id of the peer, and a session that exists is used
again. Its own address is found by a probe, and what is sent once the address is known depends on
the role of the session: the caller invites, the callee accepts.
-/

namespace Libobject.Stun

open Scan P2p

inductive Role
  | caller
  | callee
  deriving DecidableEq

/-- `STUN_SESSION_*`, as far as a handler sets it. -/
inductive SessionState
  | idle
  | connected
  | closed
  deriving DecidableEq

/-- `stun_session_t`. -/
structure StunSession where
  remote_id : Text
  probe : Probe
  peer_host : Text
  peer_port : ℤ
  peer_nat_type : ℤ
  role : Role
  state : SessionState
  connected : Bool
  send_punch : Bool
  data_received : Bool
  active : Bool
  deriving DecidableEq

/-- A node that is connected to the signalling server; `stun2` says whether a second server for
the probe is configured. -/
structure Client where
  stun_id : Text
  stun2 : Bool
  register_done : Bool
  sessions : OwnedMap strcmp StunSession

/-- Whether a new session gets its memory, its port and its socket, and whether the request of the
probe can be sent. -/
structure Resources where
  made : Bool
  probed : Bool
  deriving DecidableEq

/-- What is returned, the lines to the signalling server, what `create_session` returned if it was
called, and the peer of the session that a datagram came to. -/
structure Answer where
  ret : ℤ
  sent : List Text
  created : Option ℤ
  peer : Option Text
  deriving DecidableEq

def Answer.of (ret : ℤ) (sent : List Text) : Answer := ⟨ret, sent, none, none⟩

def NatType.number : NatType → ℤ
  | unknown => 0
  | cone => 2
  | symmetric => 3

def STUN_REJECT_NO_PORT : ℤ := 1

/-! ## Lines of the node -/

/-- `"%s %d %d"` of the own address. -/
def Probe.show (p : Probe) : Text :=
  p.own_host ++ 32 :: showInt p.own_port ++ 32 :: showInt p.nat_type.number

def INVITE (my remote : Text) (p : Probe) : Text :=
  ascii "INVITE " ++ my ++ 32 :: remote ++ 32 :: p.show

/-- What every reply to an invitation starts with. -/
def replyHead (my remote : Text) : Text := ascii "INVITE_REPLY " ++ my ++ 32 :: remote ++ [32]

def INVITE_REPLY_accept (my remote : Text) (p : Probe) : Text :=
  replyHead my remote ++ ascii "accept " ++ p.show

def INVITE_REPLY_reject (my remote : Text) (reason : ℤ) : Text :=
  replyHead my remote ++ ascii "reject " ++ showInt reason

def PUNCHOK (my remote : Text) : Text := ascii "PUNCHOK " ++ my ++ 32 :: remote

/-! ## Lines of the server -/

inductive CliKeyword
  | SIGNIN_REPLY
  | INVITE
  | INVITE_REPLY
  | CONNECTED
  deriving DecidableEq

def CliKeyword.key : CliKeyword → Text
  | SIGNIN_REPLY => ascii "SIGNIN_REPLY"
  | INVITE => ascii "INVITE"
  | INVITE_REPLY => ascii "INVITE_REPLY"
  | CONNECTED => ascii "CONNECTED"

/-- `g_stun_cli_sig_table`, in its order. -/
def g_stun_cli_sig_table : List CliKeyword := [.SIGNIN_REPLY, .INVITE, .INVITE_REPLY, .CONNECTED]

inductive Heard
  | signin_reply
  | invite (from_id : Text) (sess : P2p.Session)
  | accept (callee : Text) (sess : P2p.Session)
  | reject (callee rcaller : Text)
  | connected (peer : Text)
  | malformed
  | unknown
  deriving DecidableEq

/-- The fields that the handler reads with `sscanf`. -/
def CliKeyword.fields (line : Text) : CliKeyword → Option Heard
  | SIGNIN_REPLY => some .signin_reply
  | INVITE => do
    let (from_id, s) ← scanWord 31 (line.drop INVITE.key.length)
    return .invite from_id (← scanSession s)
  | INVITE_REPLY => do
    let ((callee, rcaller), s) ← scanPair (line.drop INVITE_REPLY.key.length)
    let (action, s) ← scanWord 15 s
    if action = ascii "accept" then return .accept callee (← scanSession s)
    else return .reject callee rcaller
  | CONNECTED => do
    let (peer, _) ← scanWord 31 (line.drop CONNECTED.key.length)
    return .connected peer

/-- The line without the line end, told by its keyword. It ends with the datagram: one without a
line end would run on into what the buffer held before. -/
def heard (buf : List UInt8) : Heard :=
  let line := cString (buf.rdropWhile (fun c ↦ c = 10 ∨ c = 13))
  match g_stun_cli_sig_table.find? (fun k ↦ keyMatches k.key line) with
  | none => .unknown
  | some k => (k.fields line).getD .malformed

/-! ## The functions of the node -/

/-- A new session; its key is the id as far as `remote_id` holds it. -/
def StunSession.new (remote_id : Text) (role : Role) : StunSession where
  remote_id := remote_id.take 31
  probe := ⟨[], 0, false, .unknown⟩
  peer_host := []
  peer_port := 0
  peer_nat_type := 0
  role := role
  state := .idle
  connected := false
  send_punch := true
  data_received := false
  active := true

namespace StunSession

def probing (s : StunSession) : StunSession :=
  { s with probe := { s.probe with own_host := [], own_port := 0, own_ready := false } }

def told (s : StunSession) (probe : Probe) : StunSession := { s with probe := probe }

def punched (s : StunSession) (host : Text) (port : ℤ) : StunSession :=
  { s with peer_host := host.take 63, peer_port := port, send_punch := true }

def reported (s : StunSession) : StunSession := { s with send_punch := false }

def rejected (s : StunSession) : StunSession :=
  { s with state := .closed, active := false, connected := false }

def linked (s : StunSession) : StunSession :=
  { s with state := .connected, connected := true, send_punch := false }

/-- The real source of a datagram of the peer is where the session sends to from then on. -/
def learned (s : StunSession) (host : Text) (port : ℤ) : StunSession :=
  if host = [] then { s with data_received := true }
  else { s with data_received := true, peer_host := host.take 63, peer_port := port }

end StunSession

namespace Client

variable (rb : Rebalance (Text × ℕ))

def get_session (c : Client) (remote_id : Text) : Option (Option (ℕ × StunSession)) := do
  match ← c.sessions.search remote_id with
  | none => return none
  | some a => return some (a, ← c.sessions.load a)

def store (c : Client) (a : ℕ) (s : StunSession) : Option Client :=
  (c.sessions.store a s).map fun sessions ↦ { c with sessions := sessions }

def close_session (c : Client) (remote_id : Text) : Option (Client × ℤ) := do
  match ← c.get_session remote_id with
  | none => return (c, 0)
  | some (a, _) => return ({ c with sessions := ← c.sessions.erase rb remote_id a }, 1)

def probe_session_addr (c : Client) (remote_id : Text) (probed : Bool) : Option (Client × ℤ) := do
  match ← c.get_session remote_id with
  | none => return (c, -1)
  | some (a, s) => return (← c.store a s.probing, if probed then 1 else -1)

/-- What is returned, and the session that the caller is told. -/
def create_session (c : Client) (remote_id : Text) (role : Role) (res : Resources) :
    Option (Client × ℤ × Option ℕ) := do
  match ← c.get_session remote_id with
  | some (a, _) =>
    let (c, ret) ← c.probe_session_addr remote_id res.probed
    if ret < 0 then return (c, -1, none) else return (c, 1, some a)
  | none =>
    if ¬ res.made then return (c, -1, none)
    else
      let a := c.sessions.heap.length
      let s := StunSession.new remote_id role
      let c := { c with sessions := ← c.sessions.insert rb s.remote_id s }
      let (c, ret) ← c.probe_session_addr remote_id res.probed
      if ret < 0 then
        let (c, _) ← c.close_session rb remote_id
        return (c, -1, none)
      else return (c, 1, some a)

def request_session (c : Client) (remote_id : Text) : Option (List Text) := do
  if c.stun_id = [] then return []
  match ← c.get_session remote_id with
  | none => return []
  | some (_, s) =>
    return if s.probe.own_ready then [INVITE c.stun_id s.remote_id s.probe] else []

def reply_session_request (c : Client) (remote_id : Text) (reason : ℤ) : Option (List Text) := do
  if c.stun_id = [] then return []
  if reason ≠ STUN_REJECT_NONE then return [INVITE_REPLY_reject c.stun_id remote_id reason]
  match ← c.get_session remote_id with
  | none => return []
  | some (_, s) =>
    return if s.probe.own_ready then [INVITE_REPLY_accept c.stun_id s.remote_id s.probe] else []

def punch_session (c : Client) (remote_id host : Text) (port : ℤ) : Option Client := do
  match ← c.get_session remote_id with
  | none => return c
  | some (a, s) => c.store a (s.punched host port)

/-- `sent` says whether the socket takes the datagram. -/
def send_session_data (c : Client) (remote_id : Text) (len : ℤ) (sent : Bool) :
    Option ℤ := do
  if len < 0 ∨ 1400 < len then return -1
  match ← c.get_session remote_id with
  | none => return -1
  | some (_, s) =>
    if ¬ s.active ∨ s.peer_host = [] then return -1
    else return if sent then 1 else -1

/-! ## What the node hears -/

def sig_request_session (c : Client) (from_id : Text) (sess : P2p.Session) (res : Resources) :
    Option (Client × Answer) := do
  let (c, ret, ns) ← c.create_session rb from_id .callee res
  match ns with
  | none => return (c, ⟨0, ← c.reply_session_request from_id STUN_REJECT_NO_PORT, some ret, none⟩)
  | some a =>
    let s ← c.sessions.load a
    let c ← c.store a { s with peer_nat_type := sess.sess_nat }
    return (← c.punch_session from_id sess.sess_host sess.sess_port, ⟨0, [], some ret, none⟩)

def sig_reply_accept (c : Client) (callee : Text) (sess : P2p.Session) :
    Option (Client × Answer) := do
  match ← c.get_session callee with
  | none => return (c, .of 1 [])
  | some (a, s) =>
    let c ← c.store a { s with peer_nat_type := sess.sess_nat }
    return (← c.punch_session callee sess.sess_host sess.sess_port, .of 1 [])

/-- A reply to another caller is not for this node. The session is marked; its owner closes it. -/
def sig_reply_reject (c : Client) (callee rcaller : Text) : Option (Client × Answer) := do
  if c.stun_id ≠ [] ∧ rcaller ≠ c.stun_id then return (c, .of 1 [])
  match ← c.get_session callee with
  | none => return (c, .of 1 [])
  | some (a, s) => return (← c.store a s.rejected, .of 1 [])

def sig_connected (c : Client) (peer : Text) : Option (Client × Answer) := do
  match ← c.get_session peer with
  | none => return (c, .of 0 [])
  | some (a, s) => return (← c.store a s.linked, .of 0 [])

def handle (c : Client) (m : Heard) (res : Resources) : Option (Client × Answer) :=
  match m with
  | .signin_reply => some ({ c with register_done := true }, .of 0 [])
  | .invite from_id sess => c.sig_request_session rb from_id sess res
  | .accept callee sess => c.sig_reply_accept callee sess
  | .reject callee rcaller => c.sig_reply_reject callee rcaller
  | .connected peer => c.sig_connected peer
  | .malformed => some (c, .of (-1) [])
  | .unknown => some (c, .of 1 [])

def stun_signal_callback (c : Client) (buf : List UInt8) (res : Resources) :
    Option (Client × Answer) := c.handle rb (heard buf) res

/-- The branch of `__on_session_recv` for a reply of a server, on the session at `a`. What the
reply tells is `got`; a socket that is closed receives nothing. -/
def on_binding_reply (c : Client) (a : ℕ) (got : Option (Text × ℤ)) : Option (Client × Answer) :=
  match c.sessions.load a with
  | none => some (c, .of 0 [])
  | some s =>
    match got with
    | none => some (c, ⟨0, [], none, some s.remote_id⟩)
    | some (host, port) => do
      let (probe, follow) := s.probe.got c.stun2 host port
      let c ← c.store a (s.told probe)
      let sent ← match follow with
        | .announce =>
          match s.role with
          | .caller => c.request_session s.remote_id
          | .callee => c.reply_session_request s.remote_id STUN_REJECT_NONE
        | .nothing | .probe_nat2 => some []
      return (c, ⟨0, sent, none, some s.remote_id⟩)

/-- The branch for a datagram of the peer; `keepalive` is its type. -/
def on_p2p_msg (c : Client) (a : ℕ) (keepalive : Bool) (host service : Text) :
    Option (Client × Answer) :=
  match c.sessions.load a with
  | none => some (c, .of 0 [])
  | some s => do
    let s := s.learned host (atoi service)
    if keepalive ∧ s.send_punch then
      return (← c.store a s.reported,
        ⟨0, [PUNCHOK c.stun_id s.remote_id], none, some s.remote_id⟩)
    else return (← c.store a s, ⟨0, [], none, some s.remote_id⟩)

end Client

/-- What can happen to a node. -/
inductive ClientEvent
  | signal (buf : List UInt8) (res : Resources)
  | binding (a : ℕ) (got : Option (Text × ℤ))
  | p2p (a : ℕ) (keepalive : Bool) (host service : Text)
  | create (remote_id : Text) (res : Resources)
  | close (remote_id : Text)
  | send (remote_id : Text) (len : ℤ) (sent : Bool)
  deriving DecidableEq

namespace Client

/-- One event; the owner of the node creates sessions as the caller. -/
def serve (rb : Rebalance (Text × ℕ)) (c : Client) : ClientEvent → Option (Client × Answer)
  | .signal buf res => c.stun_signal_callback rb buf res
  | .binding a got => c.on_binding_reply a got
  | .p2p a keepalive host service => c.on_p2p_msg a keepalive host service
  | .create remote_id res => do
    let (c, ret, _) ← c.create_session rb remote_id .caller res
    return (c, ⟨ret, [], some ret, none⟩)
  | .close remote_id => do
    let (c, ret) ← c.close_session rb remote_id
    return (c, .of ret [])
  | .send remote_id len sent => do
    return (c, .of (← c.send_session_data remote_id len sent) [])

end Client

end Libobject.Stun
