import Libobject.Lib.Scan

/-!
# Signals of the rendezvous

A signal is one datagram of text: a keyword and its fields. It is told by its first word, which a
blank or the end of the text must follow, and its fields are read with `sscanf`.
-/

namespace Libobject.P2p

open Scan

inductive Keyword
  | SIGNIN
  | SIGNOUT
  | INVITE
  | INVITE_REPLY
  | PUNCHOK
  deriving DecidableEq

def Keyword.key : Keyword → Text
  | SIGNIN => ascii "SIGNIN"
  | SIGNOUT => ascii "SIGNOUT"
  | INVITE => ascii "INVITE"
  | INVITE_REPLY => ascii "INVITE_REPLY"
  | PUNCHOK => ascii "PUNCHOK"

/-- `g_stun_sig_table`, in its order. -/
def g_stun_sig_table : List Keyword := [.SIGNIN, .SIGNOUT, .INVITE, .INVITE_REPLY, .PUNCHOK]

/-- The text starts with the key, and a blank or nothing follows it. -/
def keyMatches (key line : Text) : Bool :=
  key.isPrefixOf line && ((line.drop key.length).head?.all (· = 32))

/-- The entry that handles a datagram: its first 511 bytes are looked at. -/
def dispatch (line : Text) : Option Keyword :=
  g_stun_sig_table.find? fun k ↦ keyMatches k.key (line.take 511)

/-- The fields that an invitation and its acceptance have in common. -/
structure Session where
  sess_host : Text
  sess_port : ℤ
  sess_nat : ℤ
  deriving DecidableEq

/-- `"%63s %d %d"`, of which the last may be missing. -/
def scanSession (s : Text) : Option Session := do
  let (host, s) ← scanWord 63 s
  let (port, s) ← scanInt s
  return ⟨host, port, (scanInt s).elim 0 Prod.fst⟩

/-- `"%31s %31s"` and the text behind them. -/
def scanPair (s : Text) : Option ((Text × Text) × Text) := do
  let (p, s) ← scanWord 31 s
  let (q, s) ← scanWord 31 s
  return ((p, q), s)

def STUN_REJECT_NONE : ℤ := 0

def STUN_REJECT_OFFLINE : ℤ := 3

/-- `"reject %d"`, which may be missing. -/
def scanReason (s : Text) : ℤ :=
  match scanLiteral (ascii "reject") (skipSpace s) with
  | none => STUN_REJECT_NONE
  | some s => (scanInt s).elim STUN_REJECT_NONE Prod.fst

inductive Signal
  | signin (id : Text)
  | signout (id : Text)
  | invite (from_id to_id : Text) (sess : Session)
  | accept (to_id from_id : Text) (sess : Session)
  | reject (to_id from_id : Text) (reason : ℤ)
  | punchok (p1 p2 : Text)
  | malformed
  | unknown
  deriving DecidableEq

/-- The fields behind the keyword; `accepts` tells which replies are acceptances. -/
def Keyword.fields (accepts : Text → Bool) (line : Text) : Keyword → Option Signal
  | SIGNIN => do
    let (id, _) ← scanWord 31 (line.drop SIGNIN.key.length)
    return .signin id
  | SIGNOUT => do
    let (id, _) ← scanWord 31 (line.drop SIGNOUT.key.length)
    return .signout id
  | INVITE => do
    let ((from_id, to_id), s) ← scanPair (line.drop INVITE.key.length)
    return .invite from_id to_id (← scanSession s)
  | INVITE_REPLY => do
    let ((to_id, from_id), s) ← scanPair (line.drop INVITE_REPLY.key.length)
    if accepts line then
      return .accept to_id from_id (← scanSession (← scanLiteral (ascii "accept") (skipSpace s)))
    else return .reject to_id from_id (scanReason s)
  | PUNCHOK => do
    let ((p1, p2), _) ← scanPair (line.drop PUNCHOK.key.length)
    return .punchok p1 p2

def signal (accepts : Text → Bool) (line : Text) : Signal :=
  match dispatch line with
  | none => .unknown
  | some k => (k.fields accepts line).getD .malformed

/-- How the server tells an acceptance: the word stands anywhere in the datagram, with a blank on
both sides. -/
def hasAccept (line : Text) : Bool := strstr line (ascii " accept ")

/-- What makes a reply an acceptance: the word behind the two ids. -/
def saysAccept (line : Text) : Bool :=
  match scanPair (line.drop Keyword.INVITE_REPLY.key.length) with
  | none => false
  | some (_, s) => (skipSpace s).takeWhile (fun c ↦ !isSpace c) = ascii "accept"

/-! ## Texts of the server -/

def SIGNIN_REPLY (id : Text) : Text := ascii "SIGNIN_REPLY " ++ id ++ ascii "\n"

/-- `"%s %d %d\n"`. -/
def showSession (s : Session) : Text :=
  s.sess_host ++ 32 :: showInt s.sess_port ++ 32 :: showInt s.sess_nat ++ ascii "\n"

def INVITE (from_id : Text) (s : Session) : Text :=
  ascii "INVITE " ++ from_id ++ 32 :: showSession s

def INVITE_REPLY_accept (to_id from_id : Text) (s : Session) : Text :=
  ascii "INVITE_REPLY " ++ to_id ++ 32 :: from_id ++ ascii " accept " ++ showSession s

def INVITE_REPLY_reject (to_id from_id : Text) (reason : ℤ) : Text :=
  ascii "INVITE_REPLY " ++ to_id ++ 32 :: from_id ++ ascii " reject " ++ showInt reason ++
    ascii "\n"

def CONNECTED (id : Text) : Text := ascii "CONNECTED " ++ id ++ ascii "\n"

end Libobject.P2p
