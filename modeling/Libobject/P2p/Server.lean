import Libobject.Core.OwnedMap
import Libobject.P2p.Signal

/-!
# The rendezvous server

The server keeps the nodes that have signed in, by their ids, and the calls that are being set up,
by a text made of the ids of caller and callee. A datagram comes with the address it was sent from
and is answered by datagrams to that address and to those on record.
-/

namespace Libobject.P2p

open Scan

structure StunNode where
  id : Text
  signal_host : Text
  signal_port : ℤ
  deriving DecidableEq

structure ServerCall where
  key : Text
  from_id : Text
  from_host : Text
  from_port : ℤ
  to_id : Text
  to_host : Text
  to_port : ℤ
  from_nat : ℤ
  to_nat : ℤ
  caller_ok : Bool
  callee_ok : Bool
  deriving DecidableEq

/-- The ordered pair of caller and callee. -/
def ServerCall.pair (c : ServerCall) : Text × Text := (c.from_id, c.to_id)

def call_key (caller callee : Text) : Text := caller ++ 124 :: callee

structure Server where
  stuns : OwnedMap strcmp StunNode
  pending : OwnedMap strcmp ServerCall

/-- A datagram, the address it was sent from, and whether the allocator has memory for it. -/
structure Task where
  buf : List UInt8
  remote_host : Text
  remote_service : Text
  mem : Bool
  deriving DecidableEq

def Task.line (t : Task) : Text := cString t.buf

/-- A datagram of the server. -/
structure Sent where
  host : Text
  service : Text
  text : Text
  deriving DecidableEq

structure Answer where
  ret : ℤ
  sent : List Sent
  deriving DecidableEq

/-- What a host becomes in a record of 64 bytes. -/
def record_host (host : Text) : Text := host.take 63

def server_reply (host service text : Text) : Sent := ⟨host, service, text.take 511⟩

/-- A reply to a port on record. -/
def reply_port (host : Text) (port : ℤ) (text : Text) : Sent :=
  server_reply host (showInt port) text

def Task.reply (t : Task) (text : Text) : Sent := server_reply t.remote_host t.remote_service text

def Task.node (t : Task) (id : Text) : StunNode :=
  ⟨id, record_host t.remote_host, atoi t.remote_service⟩

/-- A node that signs in again, from another address perhaps. -/
def Task.moved (t : Task) (n : StunNode) : StunNode :=
  { n with signal_host := record_host t.remote_host, signal_port := atoi t.remote_service }

/-- The call of an invitation, before the callee has said anything. -/
def Task.call (t : Task) (from_id to_id : Text) (sess : Session) : ServerCall where
  key := call_key from_id to_id
  from_id := from_id
  from_host := record_host t.remote_host
  from_port := atoi t.remote_service
  to_id := to_id
  to_host := []
  to_port := 0
  from_nat := sess.sess_nat
  to_nat := 0
  caller_ok := false
  callee_ok := false

/-- A datagram to the caller of a call. -/
def ServerCall.reply (c : ServerCall) (text : Text) : Sent :=
  reply_port c.from_host c.from_port text

def StunNode.reply (n : StunNode) (text : Text) : Sent :=
  reply_port n.signal_host n.signal_port text

def ServerCall.accepted (c : ServerCall) (sess : Session) : ServerCall :=
  { c with to_host := sess.sess_host, to_port := sess.sess_port, to_nat := sess.sess_nat }

namespace Server

variable (rb : Rebalance (Text × ℕ))

def empty : Server := ⟨.empty, .empty⟩

/-- The block that a search has found, with its address. -/
def findCall (s : Server) (key : Text) : Option (Option (ℕ × ServerCall)) := do
  match ← s.pending.search key with
  | none => return none
  | some a => return some (a, ← s.pending.load a)

def findNode (s : Server) (id : Text) : Option (Option (ℕ × StunNode)) := do
  match ← s.stuns.search id with
  | none => return none
  | some a => return some (a, ← s.stuns.load a)

def sig_signin (s : Server) (t : Task) (id : Text) : Option (Server × Answer) := do
  let stuns ← match ← s.findNode id with
    | none => if t.mem then s.stuns.insert rb id (t.node id) else some s.stuns
    | some (a, n) => s.stuns.store a (t.moved n)
  return (⟨stuns, s.pending⟩, ⟨0, [t.reply (SIGNIN_REPLY id)]⟩)

def sig_signout (s : Server) (id : Text) : Option (Server × Answer) := do
  match ← s.findNode id with
  | none => return (s, ⟨0, []⟩)
  | some (a, _) => return (⟨← s.stuns.erase rb id a, s.pending⟩, ⟨0, []⟩)

/-- A new call replaces the one that a search for its key finds. -/
def place (s : Server) (c : ServerCall) : Option Server := do
  let pending ← match ← s.findCall c.key with
    | none => some s.pending
    | some (a, _) => s.pending.erase rb c.key a
  return ⟨s.stuns, ← pending.insert rb c.key c⟩

def sig_invite (s : Server) (t : Task) (from_id to_id : Text) (sess : Session) :
    Option (Server × Answer) := do
  match ← s.findNode to_id with
  | none => return (s, ⟨1, [t.reply (INVITE_REPLY_reject to_id from_id STUN_REJECT_OFFLINE)]⟩)
  | some (_, callee) =>
    let s ← if t.mem then s.place rb (t.call from_id to_id sess) else some s
    return (s, ⟨1, [callee.reply (INVITE from_id sess)]⟩)

def sig_invite_reply_accept (s : Server) (to_id from_id : Text) (sess : Session) :
    Option (Server × Answer) := do
  match ← s.findCall (call_key from_id to_id) with
  | none => return (s, ⟨1, []⟩)
  | some (a, call) =>
    let pending ← s.pending.store a (call.accepted sess)
    return (⟨s.stuns, pending⟩, ⟨1, [call.reply (INVITE_REPLY_accept to_id from_id sess)]⟩)

def sig_invite_reply_reject (s : Server) (to_id from_id : Text) (reason : ℤ) :
    Option (Server × Answer) := do
  match ← s.findCall (call_key from_id to_id) with
  | none => return (s, ⟨1, []⟩)
  | some (a, call) =>
    let pending ← s.pending.erase rb (call_key from_id to_id) a
    return (⟨s.stuns, pending⟩, ⟨1, [call.reply (INVITE_REPLY_reject to_id from_id reason)]⟩)

/-- The report is the caller's if `p1|p2` is a call, and else the callee's if `p2|p1` is one. -/
def report (s : Server) (p1 p2 : Text) : Option (Option (ℕ × ServerCall)) := do
  match ← s.findCall (call_key p1 p2) with
  | some (a, call) => return some (a, { call with caller_ok := true })
  | none =>
    match ← s.findCall (call_key p2 p1) with
    | some (a, call) => return some (a, { call with callee_ok := true })
    | none => return none

/-- Both have reported: the call goes away and they are told. -/
def connect (s : Server) (a : ℕ) (call : ServerCall) : Option (Server × Answer) := do
  let callee ← s.findNode call.to_id
  let pending ← s.pending.erase rb call.key a
  return (⟨s.stuns, pending⟩, ⟨1, call.reply (CONNECTED call.to_id) ::
    (callee.map fun n ↦ n.2.reply (CONNECTED call.from_id)).toList⟩)

def sig_punchok (s : Server) (p1 p2 : Text) : Option (Server × Answer) := do
  match ← s.report p1 p2 with
  | none => return (s, ⟨1, []⟩)
  | some (a, call) =>
    let s' : Server := ⟨s.stuns, ← s.pending.store a call⟩
    if call.caller_ok && call.callee_ok then s'.connect rb a call
    else return (s', ⟨1, []⟩)

def serve (s : Server) (t : Task) : Signal → Option (Server × Answer)
  | .signin id => s.sig_signin rb t id
  | .signout id => s.sig_signout rb id
  | .invite from_id to_id sess => s.sig_invite rb t from_id to_id sess
  | .accept to_id from_id sess => s.sig_invite_reply_accept to_id from_id sess
  | .reject to_id from_id reason => s.sig_invite_reply_reject rb to_id from_id reason
  | .punchok p1 p2 => s.sig_punchok rb p1 p2
  | .malformed => some (s, ⟨-1, []⟩)
  | .unknown => some (s, ⟨1, []⟩)

/-- `__stun_server_callback` on a datagram of text; a Binding request is not one, and answering it
touches no record. -/
def stun_server_callback (s : Server) (t : Task) : Option (Server × Answer) :=
  s.serve rb t (signal hasAccept t.line)

end Server

end Libobject.P2p
