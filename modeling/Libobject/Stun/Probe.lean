import Libobject.Stun.Response

/-!
# The address probe of a session

The reply of the primary server tells the session its own address, the reply of the secondary
server what kind of translation lies between. Both go through the one response of the session.
-/

namespace Libobject.Stun

open Scan

/-- `STUN_NAT_TYPE_*`, without the open network that no reply tells. -/
inductive NatType
  | unknown
  | cone
  | symmetric
  deriving DecidableEq

structure Probe where
  own_host : Text
  own_port : ℤ
  own_ready : Bool
  nat_type : NatType
  deriving DecidableEq

/-- What follows a reply: the probe of the second server, or the announcement of the address, which
is `request_session` for the caller and `reply_session_request` for the callee. -/
inductive Follow
  | nothing
  | probe_nat2
  | announce
  deriving DecidableEq

structure Session where
  probe : Probe
  response : Response

/-- A reply told the address; `stun2` says whether a second server is configured. -/
def Probe.got (stun2 : Bool) (p : Probe) (host : Text) (port : ℤ) : Probe × Follow :=
  if p.own_ready then
    let nat_type :=
      if p.nat_type = .unknown then
        if port = p.own_port ∧ host = p.own_host then .cone else .symmetric
      else p.nat_type
    ({ p with nat_type := nat_type }, .announce)
  else
    ({ p with own_host := host, own_port := port, own_ready := true },
      if stun2 then .probe_nat2 else .announce)

/-- The first four bytes behind the type and the length are the magic cookie. -/
def IsStun (buf : List UInt8) : Prop := 20 ≤ buf.length ∧ field buf 4 4 = STUN_MAGIC_COOKIE

instance (buf : List UInt8) : Decidable (IsStun buf) := instDecidableAnd

/-- The attribute that the address is taken from. -/
def mapped_attr (attribs : Attribs) : Option MappedAddress :=
  match attribs.search STUN_ATR_TYPE_XOR_MAPPED_ADDR with
  | some attr => some attr
  | none => attribs.search STUN_ATR_TYPE_MAPPED_ADDR

/-- What the session takes from the response after `read` returned `ret`. -/
def Session.replied (stun2 : Bool) (s : Session) (ret : ℤ) (msgtype : Option ℕ) :
    (Option ℤ × Follow) × Session :=
  if ret < 0 ∨ msgtype ≠ some STUN_BINDRESP then ((some ret, .nothing), s)
  else
    match mapped_attr s.response.attribs with
    | none => ((some ret, .nothing), s)
    | some attr =>
      let (probe, follow) := s.probe.got stun2 attr.host (atoi attr.service)
      ((some ret, follow), { s with probe := probe })

/-- The branch of `__on_session_recv` for the replies of the servers. What is returned is what
`read` returned, if it was called. -/
def on_session_recv (rb : Rebalance (ℕ × MappedAddress)) (stun2 : Bool) (s : Session)
    (buf : List UInt8) : Option ((Option ℤ × Follow) × Session) :=
  if ¬ IsStun buf then some ((none, .nothing), s)
  else if min buf.length s.response.buffer.writable = 0 then some ((none, .nothing), s)
  else do
    let resp := { s.response with buffer := s.response.buffer.write buf }
    let ((ret, msgtype), resp) ← resp.read rb
    return { s with response := resp }.replied stun2 ret msgtype

end Libobject.Stun
