import Mathlib.Logic.Function.Basic
import Mathlib.Data.List.FinRange
import Mathlib.Data.Fintype.Pi
import Libobject.Vpn.Net

/-!
# The control plane of the tunnel

One endpoint: its links, its own tunnel address and the pool it gives addresses from. Everything
here runs on one event thread, so each callback is a function of the endpoint's state. Sessions
are named by numbers, and whether a session is connected is told to the callback that asks.
-/

namespace Libobject.Vpn

open Scan

abbrev Session := ℕ

/-- The fields of `vpn_cfg_t` that the control plane reads; an absent string is empty. -/
structure Cfg where
  peerId : Option Text
  tunnelIp : Text
  netmask : Text
  localNet : Text
  deriving DecidableEq

/-- The result codes of a notification. -/
inductive Code
  | ok
  | badPayload
  | badIp
  | badNet
  | noAddr
  deriving DecidableEq, Repr

def Code.toNat : Code → ℕ
  | ok => 0
  | badPayload => 1
  | badIp => 2
  | badNet => 3
  | noAddr => 4

structure Link where
  session : Option Session
  isDialer : Bool
  routeDone : Bool
  badRounds : ℕ
  notifyAcked : Bool
  notifyRetries : ℕ
  peerTunIp : BitVec 32
  peerNet : Option Net
  peerNetText : Text
  deriving DecidableEq

/-- A link slot after `memset`. -/
def Link.empty : Link := ⟨none, false, false, 0, false, 0, 0, none, []⟩

structure Ctx where
  cfg : Cfg
  tun : Bool
  nLinks : ℕ
  links : Slot → Link
  addrReady : Bool
  myTunIp : BitVec 32
  myTunIpText : Text
  pool : Option Net
  addrUsed : Slot → BitVec 32

def Ctx.dial (c : Ctx) : Bool := c.cfg.peerId.isSome

def Ctx.setLink (c : Ctx) (i : Slot) (l : Link) : Ctx :=
  { c with links := Function.update c.links i l }

/-! ## Links -/

def Link.open (s : Session) (isDialer : Bool) : Link :=
  { Link.empty with session := some s, isDialer := isDialer }

/-- The link of a session, taking the first empty slot for a new one. -/
def linkGet (c : Ctx) (s : Session) (isDialer : Bool) : Option (Ctx × Slot) :=
  match (List.finRange maxLinks).find? (fun i ↦ (c.links i).session = some s) with
  | some i => some (c, i)
  | none =>
    match (List.finRange maxLinks).find? (fun i ↦ (c.links i).session = none) with
    | some i => some ({ c.setLink i (Link.open s isDialer) with nLinks := c.nLinks + 1 }, i)
    | none => none

/-- Record the peer's address and network; an empty text is not given. -/
def linkSetPeerInfo (l : Link) (ip net : Text) : Link × Code :=
  let (l, code) :=
    if ip = [] then (l, Code.ok)
    else
      match ipv4Parse ip with
      | none => (l, Code.badIp)
      | some a => ({ l with peerTunIp := a }, Code.ok)
  if code = Code.ok ∧ net ≠ [] then
    match netParse net with
    | none => (l, Code.badNet)
    | some n =>
      if l.peerNetText ≠ [] ∧ l.peerNetText = net then (l, Code.ok)
      else
        ({ l with
            peerNetText := snprintf cidrMax net
            peerNet := some n
            routeDone := false }, Code.ok)
  else (l, code)

/-! ## The address pool -/

def poolInit (c : Ctx) : Ctx :=
  if c.cfg.tunnelIp = [] then { c with pool := none }
  else
    let text :=
      if 47 ∈ c.cfg.tunnelIp then snprintf 64 c.cfg.tunnelIp
      else snprintf 64 (c.cfg.tunnelIp ++ 47 :: showNat (netmaskLen c.cfg.netmask))
    match netParse text with
    | none => { c with pool := none }
    | some seg =>
      { c with myTunIp := (ipv4Parse c.cfg.tunnelIp).getD 0, pool := some seg }

/-- The first slot that is neither taken nor the endpoint's own address. -/
def freeSlot (c : Ctx) (n : Net) : Option Slot :=
  (List.finRange maxLinks).find? (fun i ↦ n.slotAddr i ≠ c.myTunIp ∧ c.addrUsed i = 0)

def poolAlloc (c : Ctx) : Ctx × BitVec 32 :=
  match c.pool with
  | none => (c, 0)
  | some n =>
    match freeSlot c n with
    | none => (c, 0)
    | some i =>
      ({ c with addrUsed := Function.update c.addrUsed i (n.slotAddr i) }, n.slotAddr i)

def poolFree (c : Ctx) (ip : BitVec 32) : Ctx :=
  if c.pool = none ∨ ip = 0 then c
  else
    match (List.finRange maxLinks).find? (fun i ↦ c.addrUsed i = ip) with
    | none => c
    | some i => { c with addrUsed := Function.update c.addrUsed i 0 }

def linkRelease (c : Ctx) (i : Slot) : Ctx :=
  if (c.links i).session = none then c
  else
    let c := poolFree c (c.links i).peerTunIp
    { c.setLink i Link.empty with nLinks := c.nLinks - 1 }

/-- The number of rounds after which an unusable link is recycled. -/
def linkBadRounds : ℕ := 5

/-- One slot of the sweep over the links that the peers opened. -/
def releaseDeadLink (conn : List Session) (c : Ctx) (i : Slot) : Ctx :=
  let l := c.links i
  match l.session with
  | none => c
  | some s =>
    if l.isDialer then c
    else if s ∈ conn then c.setLink i { l with badRounds := 0 }
    else
      let c := c.setLink i { l with badRounds := l.badRounds + 1 }
      if linkBadRounds ≤ l.badRounds + 1 then linkRelease c i else c

def releaseDeadLinks (c : Ctx) (conn : List Session) : Ctx :=
  (List.finRange maxLinks).foldl (releaseDeadLink conn) c

def Link.installRoute (l : Link) : Link :=
  if l.peerNet.isSome ∧ ¬l.routeDone then { l with routeDone := true } else l

def installLinkRoutes (c : Ctx) : Ctx :=
  if c.tun then { c with links := fun i ↦ (c.links i).installRoute } else c

/-! ## Control frames -/

/-- A frame: magic, type, reserved byte, payload length in host order, payload. -/
abbrev Frame := List UInt8

def ctrlMagic : List UInt8 := [0xFF, 86, 80, 78]

def ctrlHdrLen : ℕ := 8

def netNotify : UInt8 := 1

def netNotifyAck : UInt8 := 2

def Frame.type (f : Frame) : UInt8 := f.getD 4 0

def Frame.len (f : Frame) : ℕ := (f.getD 6 0).toNat + 256 * (f.getD 7 0).toNat

/-- The payload as the handlers read it, as a C string in a buffer of their own. -/
def Frame.payload (f : Frame) : Text := cString ((f.drop ctrlHdrLen).take f.len)

def ctrlFrame (type : UInt8) (payload : Text) : Frame :=
  ctrlMagic ++ [type, 0, UInt8.ofNat payload.length, 0] ++ payload

def sendCtrl (l : Link) (type : UInt8) (payload : Text) : Option (Session × Frame) :=
  match l.session with
  | none => none
  | some s =>
    if cidrMax ≤ payload.length then none
    else some (s, ctrlFrame type payload)

/-- The text of an acknowledgement that grants the link's address. -/
def ackText (c : Ctx) (l : Link) : Text :=
  let len := (c.pool.map Net.prefixLen).getD 0
  let given := snprintf 20 (ipv4Str l.peerTunIp len)
  let mine := snprintf 20 (ipv4Str c.myTunIp len)
  let codec := snprintf 4 (showNat Code.ok.toNat)
  match netParse c.cfg.localNet with
  | none => snprintf cidrMax (codec ++ 32 :: given ++ 32 :: mine)
  | some n => snprintf cidrMax (codec ++ 32 :: given ++ 32 :: mine ++ 32 :: snprintf 20 (netStr n))

/-- The first part of the reply: a link that is accepted and has no address is given one. -/
def assignAddr (c : Ctx) (i : Slot) (code : Code) : Ctx :=
  if code = Code.ok ∧ (c.links i).peerTunIp = 0 then
    let (c, ip) := poolAlloc c
    c.setLink i { c.links i with peerTunIp := ip }
  else c

def replyNotify (c : Ctx) (i : Slot) (code : Code) : Ctx × Option (Session × Frame) :=
  let c := assignAddr c i code
  let l := c.links i
  let code := if code = Code.ok ∧ l.peerTunIp = 0 then Code.noAddr else code
  if code = Code.ok then (c, sendCtrl l netNotifyAck (ackText c l))
  else (c, sendCtrl l netNotifyAck (snprintf cidrMax (showNat code.toNat)))

/-- What a notification says about the link that it came on. -/
def notifyRead (l : Link) (f : Frame) : Link × Code :=
  if cidrMax ≤ f.len ∨ f.length < ctrlHdrLen + f.len then (l, Code.badPayload)
  else if f.len = 0 then (l, Code.ok)
  else linkSetPeerInfo l [] f.payload

def handleNotify (c : Ctx) (i : Slot) (f : Frame) : Ctx × Option (Session × Frame) :=
  let (l, code) := notifyRead (c.links i) f
  replyNotify (c.setLink i l) i code

/-- What an acknowledgement says. A code without an address is `short`; an absent field is
empty. -/
inductive Ack
  | malformed
  | refused
  | short
  | granted (mine peer net : Text)
  deriving DecidableEq

def ackRead (f : Frame) : Ack :=
  if f.len = 0 ∨ cidrMax ≤ f.len ∨ f.length < ctrlHdrLen + f.len then Ack.malformed
  else
    match scanUnsigned f.payload with
    | none => Ack.refused
    | some (code, rest) =>
      if code ≠ 0 then Ack.refused
      else
        match scanWords [31, 31, 63] rest with
        | [] => Ack.short
        | mine :: more => Ack.granted mine (more.getD 0 []) (more.getD 1 [])

def onNotifyAck (c : Ctx) (i : Slot) (f : Frame) : Ctx :=
  let l := c.links i
  if l.notifyAcked then c
  else
    match ackRead f with
    | Ack.malformed => c
    | Ack.refused => c.setLink i { l with notifyAcked := true }
    | Ack.short => c
    | Ack.granted mine peer net =>
      let l := (linkSetPeerInfo { l with notifyAcked := true } peer net).1
      { c.setLink i l with
        myTunIpText := snprintf 32 mine
        myTunIp := (ipv4Parse mine).getD 0
        addrReady := true }

def handleCtrl (c : Ctx) (i : Slot) (f : Frame) : Ctx × Option (Session × Frame) :=
  if f.length < ctrlHdrLen then (c, none)
  else if f.type = netNotify then handleNotify c i f
  else if f.type = netNotifyAck then (onNotifyAck c i f, none)
  else (c, none)

/-- The frames that are not data packets. -/
def isCtrl (data : List UInt8) : Bool := ctrlHdrLen ≤ data.length && data.take 4 = ctrlMagic

def p2pRecv (c : Ctx) (s : Session) (data : List UInt8) : Ctx × Option (Session × Frame) :=
  if data = [] then (c, none)
  else
    match linkGet c s false with
    | none => (c, none)
    | some (c, i) => if isCtrl data then handleCtrl c i data else (c, none)

/-! ## The dialing side -/

def netNotifyMaxRetry : ℕ := 10

/-- The payload of a notification: the local network in its normal form. -/
def notifyText (cfg : Cfg) : Text :=
  match netParse cfg.localNet with
  | none => []
  | some n => snprintf cidrMax (netStr n)

/-- The links that a round of the address exchange notifies. -/
def Link.notifies (l : Link) (rounds : ℕ) (conn : List Session) : Bool :=
  l.isDialer && !l.notifyAcked && l.notifyRetries < netNotifyMaxRetry &&
    l.session.any (· ∈ conn) && (l.notifyRetries = 0 || rounds % 5 = 0)

/-- One round of the exchange and the frames it sends. -/
def exchangeAddr (c : Ctx) (rounds : ℕ) (conn : List Session) : Ctx × List (Session × Frame) :=
  if ¬c.dial ∨ c.addrReady then (c, [])
  else
    ({ c with
        links := fun i ↦
          let l := c.links i
          if l.notifies rounds conn then { l with notifyRetries := l.notifyRetries + 1 } else l },
      (List.finRange maxLinks).filterMap (fun i ↦
        if (c.links i).notifies rounds conn then
          sendCtrl (c.links i) netNotify (notifyText c.cfg)
        else none))

/-- Publish the configured device; `ip` is the address it is given. -/
def openTun (c : Ctx) : Ctx :=
  let ip := if c.myTunIpText ≠ [] then c.myTunIpText else c.cfg.tunnelIp
  if c.tun ∨ ip = [] then c else installLinkRoutes { c with tun := true }

/-! ## Runs -/

/-- What can happen to an endpoint. A session opened by the endpoint itself comes from `dial`;
`conn` lists the sessions that are connected at the time. -/
inductive Event
  | dial (s : Session)
  | recv (s : Session) (data : List UInt8)
  | tick (conn : List Session)
  | release (i : Slot)
  | exchange (rounds : ℕ) (conn : List Session)
  | openTun
  | closeTun

/-- The state in which the callbacks of an endpoint start to run. -/
def start (cfg : Cfg) : Ctx :=
  poolInit
    { cfg := cfg, tun := false, nLinks := 0, links := fun _ ↦ Link.empty, addrReady := false,
      myTunIp := 0, myTunIpText := [], pool := none, addrUsed := fun _ ↦ 0 }

def timer (c : Ctx) (conn : List Session) : Ctx :=
  if c.tun then installLinkRoutes (releaseDeadLinks c conn) else c

def step (c : Ctx) : Event → Ctx
  | Event.dial s =>
    if c.dial then
      match linkGet c s true with
      | none => c
      | some (c, _) => c
    else c
  | Event.recv s data => (p2pRecv c s data).1
  | Event.tick conn => timer c conn
  | Event.release i => linkRelease c i
  | Event.exchange rounds conn => (exchangeAddr c rounds conn).1
  | Event.openTun => Vpn.openTun c
  | Event.closeTun => { c with tun := false }

end Libobject.Vpn
