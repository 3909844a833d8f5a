import Libobject.P2p.Rendezvous

/-!
# Agreement of a pair

Two nodes are connected when both have reported since one last invited the other, and both are
told so, once. The server is watched along a run: what each datagram said and what was sent for it.
-/

namespace Libobject.P2p

open Scan

/-- A datagram that was served. -/
structure Note where
  signal : Signal
  sent : List Sent
  deriving DecidableEq

/-- What was served, the latest first. -/
abbrev History := List Note

def Signal.invites (x y : Text) : Signal → Bool
  | .invite from_id to_id _ => (from_id, to_id) = (x, y) || (from_id, to_id) = (y, x)
  | _ => false

/-- The message to `x` that it is connected to `y`. -/
def told (addr : Text → Text × Text) (x y : Text) : Sent :=
  reply_port (record_host (addr x).1) (atoi (addr x).2) (CONNECTED y)

def Sent.isConnected (m : Sent) : Bool := (ascii "CONNECTED ").isPrefixOf m.text

/-- One of the two has reported, and for that both are told, one message to each. -/
def Note.connects (addr : Text → Text × Text) (x y : Text) (n : Note) : Bool :=
  (n.signal = .punchok x y || n.signal = .punchok y x) &&
    (n.sent = [told addr x y, told addr y x] || n.sent = [told addr y x, told addr x y])

namespace History

/-- What was served since the last invitation between the two. -/
def since (h : History) (x y : Text) : History := h.takeWhile fun n ↦ !n.signal.invites x y

def invited (h : History) (x y : Text) : Bool := h.any fun n ↦ n.signal.invites x y

/-- `x` has reported about `y` since the last invitation between them. -/
def reported (h : History) (x y : Text) : Bool :=
  (h.since x y).any fun n ↦ n.signal = .punchok x y

/-- How often the two have been told since. -/
def connections (addr : Text → Text × Text) (h : History) (x y : Text) : ℕ :=
  (h.since x y).countP (Note.connects addr x y)

end History

def Server.Pending (s : Server) (p : Text × Text) : Prop :=
  ∃ e ∈ s.pending.entries, ∃ c ∈ s.pending.load e.2, c.pair = p

instance (s : Server) (p : Text × Text) : Decidable (s.Pending p) :=
  inferInstanceAs (Decidable (∃ e ∈ s.pending.entries, ∃ c ∈ s.pending.load e.2, _))

/-- Two members of a pair have been told once if both have reported since one last invited the
other, and not at all otherwise; once both have, no call between them is pending. Nothing else is
ever said about a connection. -/
structure Agrees (addr : Text → Text × Text) (s : Server) (h : History) : Prop where
  once : ∀ x y, x ≠ y → h.connections addr x y =
    if h.invited x y && h.reported x y && h.reported y x then 1 else 0
  settled : ∀ x y, x ≠ y → h.reported x y = true → h.reported y x = true → ¬ s.Pending (x, y)
  only : ∀ n ∈ h, ∀ m ∈ n.sent, m.isConnected = true → ∃ x y, x ≠ y ∧ n.connects addr x y = true

/-- A signal from the node that it names as its author, at the address of that node. Ids have no
bar, and an invitation goes to a node that is signed in. -/
def PlaysAs (addr : Text → Text × Text) (s : Server) (t : Task) : Signal → Prop
  | .signin id => 124 ∉ id ∧ addr id = (t.remote_host, t.remote_service)
  | .invite from_id to_id _ => 124 ∉ from_id ∧ 124 ∉ to_id ∧
      addr from_id = (t.remote_host, t.remote_service) ∧ to_id ∈ s.stuns.entries.map Prod.fst
  | .accept to_id from_id _ => 124 ∉ to_id ∧ 124 ∉ from_id ∧
      addr to_id = (t.remote_host, t.remote_service)
  | .punchok p1 p2 => 124 ∉ p1 ∧ 124 ∉ p2 ∧ addr p1 = (t.remote_host, t.remote_service)
  | _ => False

def Plays (addr : Text → Text × Text) (s : Server) (t : Task) : Prop :=
  PlaysAs addr s t (signal hasAccept t.line)

/-- An invitation finds memory for its call, and no call the other way is pending. -/
def OneWayAs (s : Server) (t : Task) : Signal → Prop
  | .invite from_id to_id _ => from_id ≠ to_id → t.mem = true ∧ ¬ s.Pending (to_id, from_id)
  | _ => True

def OneWay (s : Server) (t : Task) : Prop := OneWayAs s t (signal hasAccept t.line)

instance decidablePlaysAs (addr : Text → Text × Text) (s : Server) (t : Task) :
    (sig : Signal) → Decidable (PlaysAs addr s t sig)
  | .signin _ => inferInstanceAs (Decidable (_ ∧ _))
  | .invite _ _ _ => inferInstanceAs (Decidable (_ ∧ _ ∧ _ ∧ _))
  | .accept _ _ _ => inferInstanceAs (Decidable (_ ∧ _ ∧ _))
  | .punchok _ _ => inferInstanceAs (Decidable (_ ∧ _ ∧ _))
  | .signout _ => inferInstanceAs (Decidable False)
  | .reject _ _ _ => inferInstanceAs (Decidable False)
  | .malformed => inferInstanceAs (Decidable False)
  | .unknown => inferInstanceAs (Decidable False)

instance (addr : Text → Text × Text) (s : Server) (t : Task) : Decidable (Plays addr s t) :=
  decidablePlaysAs addr s t _

instance decidableOneWayAs (s : Server) (t : Task) : (sig : Signal) → Decidable (OneWayAs s t sig)
  | .invite _ _ _ => inferInstanceAs (Decidable (_ → _ ∧ _))
  | .signin _ => inferInstanceAs (Decidable True)
  | .accept _ _ _ => inferInstanceAs (Decidable True)
  | .punchok _ _ => inferInstanceAs (Decidable True)
  | .signout _ => inferInstanceAs (Decidable True)
  | .reject _ _ _ => inferInstanceAs (Decidable True)
  | .malformed => inferInstanceAs (Decidable True)
  | .unknown => inferInstanceAs (Decidable True)

instance (s : Server) (t : Task) : Decidable (OneWay s t) := decidableOneWayAs s t _

/-- The server with its history; `none` once its behaviour is undefined. -/
def Server.watch (rb : Rebalance (Text × ℕ)) (st : Option Server × History) (t : Task) :
    Option Server × History :=
  match st.1.bind (·.stun_server_callback rb t) with
  | none => (none, st.2)
  | some (s, o) => (some s, ⟨signal hasAccept t.line, o.sent⟩ :: st.2)

/-! ## The window of a pair -/

namespace History

variable {addr : Text → Text × Text} {h : History} {n : Note} {x y : Text}

theorem invites_comm (sig : Signal) (x y : Text) : sig.invites x y = sig.invites y x := by
  cases sig <;> simp only [Signal.invites, Bool.or_comm]

theorem since_comm (h : History) (x y : Text) : h.since x y = h.since y x := by
  simp only [since, invites_comm _ x y]

theorem invited_comm (h : History) (x y : Text) : h.invited x y = h.invited y x := by
  simp only [invited, invites_comm _ x y]

theorem connects_comm (n : Note) (x y : Text) : n.connects addr x y = n.connects addr y x := by
  simp only [Note.connects, Bool.or_comm]

theorem connections_comm (h : History) (x y : Text) :
    h.connections addr x y = h.connections addr y x := by
  have hfun : Note.connects addr x y = Note.connects addr y x :=
    funext fun n ↦ connects_comm n x y
  rw [connections, connections, since_comm, hfun]

section NotInvites

variable (hn : n.signal.invites x y = false)

include hn

theorem since_cons : since (n :: h) x y = n :: h.since x y := by
  simp [since, hn]

theorem invited_cons : invited (n :: h) x y = h.invited x y := by
  simp [invited, hn]

theorem reported_cons :
    reported (n :: h) x y = (decide (n.signal = .punchok x y) || h.reported x y) := by
  simp only [reported, since_cons hn, List.any_cons]

theorem connections_cons :
    connections addr (n :: h) x y =
      h.connections addr x y + if n.connects addr x y then 1 else 0 := by
  rw [connections, since_cons hn, List.countP_cons, connections]

end NotInvites

section Invites

variable (hn : n.signal.invites x y = true)

include hn

theorem since_invite : since (n :: h) x y = [] := by
  simp [since, hn]

theorem invited_invite : invited (n :: h) x y = true := by
  simp [invited, hn]

theorem reported_invite : reported (n :: h) x y = false := by
  simp [reported, since_invite hn]

theorem connections_invite : connections addr (n :: h) x y = 0 := by
  simp [connections, since_invite hn]

end Invites

end History

/-! ## The phase of a pair -/

/-- Who has reported for the call of a pair: the caller, the callee. -/
def Rendezvous.flags (a : Rendezvous) (p : Text × Text) : Option (Bool × Bool) :=
  (a.calls p).map fun c ↦ (c.caller_ok, c.callee_ok)

/-- `x` has called `y`, and not both have reported. -/
structure Half (addr : Text → Text × Text) (h : History) (x y : Text) (f : Bool × Bool) :
    Prop where
  invited : h.invited x y = true
  caller : f.1 = h.reported x y
  callee : f.2 = h.reported y x
  open_ : (f.1 && f.2) = false
  silent : h.connections addr x y = 0

/-- Nothing is pending between the two: they were connected, or have not called each other. -/
structure Quiet (addr : Text → Text × Text) (h : History) (x y : Text) : Prop where
  both : h.invited x y = true → h.reported x y = true ∧ h.reported y x = true
  count : h.connections addr x y = if h.invited x y then 1 else 0

/-- At most one call is pending between the two. -/
def Phase (addr : Text → Text × Text) (F : Text × Text → Option (Bool × Bool)) (h : History)
    (x y : Text) : Prop :=
  (F (x, y) = none ∧ F (y, x) = none ∧ Quiet addr h x y) ∨
    (∃ f, F (x, y) = some f ∧ F (y, x) = none ∧ Half addr h x y f) ∨
      ∃ f, F (y, x) = some f ∧ F (x, y) = none ∧ Half addr h y x f

namespace Phase

variable {addr : Text → Text × Text} {F G : Text × Text → Option (Bool × Bool)} {h : History}
  {n : Note} {x y : Text}

theorem symm (hp : Phase addr F h x y) : Phase addr F h y x := by
  rcases hp with ⟨hxy, hyx, hq⟩ | hxy | hyx
  · refine Or.inl ⟨hyx, hxy, ?_, ?_⟩
    · intro hi
      exact (hq.both (h.invited_comm x y ▸ hi)).symm
    · rw [h.connections_comm y x, hq.count, h.invited_comm]
  · exact Or.inr (Or.inr hxy)
  · exact Or.inr (Or.inl hyx)

theorem empty (hF : ∀ p, F p = none) (x y : Text) : Phase addr F [] x y :=
  Or.inl ⟨hF _, hF _, by simp [History.invited], by simp [History.connections, History.since,
    History.invited]⟩

theorem frame (hp : Phase addr F h x y) (hi : n.signal.invites x y = false)
    (hxy : n.signal ≠ .punchok x y) (hyx : n.signal ≠ .punchok y x)
    (hG : G (x, y) = F (x, y)) (hG' : G (y, x) = F (y, x)) : Phase addr G (n :: h) x y := by
  have hi' : n.signal.invites y x = false := by rw [History.invites_comm, hi]
  have hrep : History.reported (n :: h) x y = h.reported x y := by
    simp [History.reported_cons hi, hxy]
  have hrep' : History.reported (n :: h) y x = h.reported y x := by
    simp [History.reported_cons hi', hyx]
  have hnot : n.connects addr x y = false := by simp [Note.connects, hxy, hyx]
  have hcount : History.connections addr (n :: h) x y = h.connections addr x y := by
    simp [History.connections_cons hi, hnot]
  have hinv : History.invited (n :: h) x y = h.invited x y := History.invited_cons hi
  rw [Phase, hG, hG']
  rcases hp with ⟨hFxy, hFyx, hq⟩ | ⟨f, hFxy, hFyx, hf⟩ | ⟨f, hFyx, hFxy, hf⟩
  · refine Or.inl ⟨hFxy, hFyx, ?_, ?_⟩
    · rw [hinv, hrep, hrep']
      exact hq.both
    · rw [hcount, hinv, hq.count]
  · refine Or.inr (Or.inl ⟨f, hFxy, hFyx, ?_, ?_, ?_, hf.open_, ?_⟩)
    · rw [hinv, hf.invited]
    · rw [hrep, hf.caller]
    · rw [hrep', hf.callee]
    · rw [hcount, hf.silent]
  · refine Or.inr (Or.inr ⟨f, hFyx, hFxy, ?_, ?_, ?_, hf.open_, ?_⟩)
    · rw [History.invited_comm, hinv, History.invited_comm, hf.invited]
    · rw [hrep', hf.caller]
    · rw [hrep, hf.callee]
    · rw [History.connections_comm, hcount, History.connections_comm, hf.silent]

theorem invite (hi : n.signal.invites x y = true) (hG : G (x, y) = some (false, false))
    (hG' : G (y, x) = none) : Phase addr G (n :: h) x y := by
  have hi' : n.signal.invites y x = true := by rw [History.invites_comm, hi]
  exact Or.inr (Or.inl ⟨(false, false), hG, hG', History.invited_invite hi,
    (History.reported_invite hi).symm, (History.reported_invite hi').symm, rfl,
    History.connections_invite hi⟩)

end Phase

section Report

variable {addr : Text → Text × Text} {F G : Text × Text → Option (Bool × Bool)} {h : History}
  {n : Note} {x y : Text} {f : Bool × Bool}

theorem reported_self (hn : n.signal = .punchok x y) : History.reported (n :: h) x y = true := by
  have hi : n.signal.invites x y = false := by rw [hn]; rfl
  simp [History.reported_cons hi, hn]

theorem reported_other (hne : x ≠ y) (hn : n.signal = .punchok x y) :
    History.reported (n :: h) y x = h.reported y x := by
  have hi : n.signal.invites y x = false := by rw [hn]; rfl
  simp [History.reported_cons hi, hn, hne]

theorem connections_report (hn : n.signal = .punchok x y) (u v : Text) :
    History.connections addr (n :: h) u v =
      h.connections addr u v + if n.connects addr u v then 1 else 0 :=
  History.connections_cons (by rw [hn]; rfl)

theorem invited_report (hn : n.signal = .punchok x y) (u v : Text) :
    History.invited (n :: h) u v = h.invited u v :=
  History.invited_cons (by rw [hn]; rfl)

theorem not_connects (hsent : n.sent = []) (u v : Text) : n.connects addr u v = false := by
  simp [Note.connects, hsent]

theorem Half.caller_reports (hf : Half addr h x y f) (hne : x ≠ y) (hn : n.signal = .punchok x y)
    (hsent : n.sent = []) (hopen : f.2 = false) : Half addr (n :: h) x y (true, f.2) where
  invited := by rw [invited_report hn, hf.invited]
  caller := (reported_self hn).symm
  callee := by rw [reported_other hne hn, hf.callee]
  open_ := by simp [hopen]
  silent := by simp [connections_report hn, not_connects hsent, hf.silent]

theorem Half.callee_reports (hf : Half addr h x y f) (hne : x ≠ y) (hn : n.signal = .punchok y x)
    (hsent : n.sent = []) (hopen : f.1 = false) : Half addr (n :: h) x y (f.1, true) where
  invited := by rw [invited_report hn, hf.invited]
  caller := by rw [reported_other hne.symm hn, hf.caller]
  callee := (reported_self hn).symm
  open_ := by simp [hopen]
  silent := by simp [connections_report hn, not_connects hsent, hf.silent]

theorem Half.closes {u v : Text} (hf : Half addr h x y f) (huv : u ≠ v)
    (hpair : (x, y) = (u, v) ∨ (x, y) = (v, u)) (hn : n.signal = .punchok u v)
    (hother : h.reported v u = true) (hconn : n.connects addr u v = true) :
    Quiet addr (n :: h) u v := by
  have hinv : h.invited u v = true := by
    rcases hpair with heq | heq <;> cases heq
    · exact hf.invited
    · rw [History.invited_comm, hf.invited]
  have hsilent : h.connections addr u v = 0 := by
    rcases hpair with heq | heq <;> cases heq
    · exact hf.silent
    · rw [History.connections_comm, hf.silent]
  refine ⟨fun _ ↦ ⟨reported_self hn, ?_⟩, ?_⟩
  · rw [reported_other huv hn, hother]
  · rw [connections_report hn, invited_report hn, hsilent, hconn, hinv]
    rfl

theorem Quiet.reports (hq : Quiet addr h x y) (hne : x ≠ y) (hn : n.signal = .punchok x y)
    (hsent : n.sent = []) : Quiet addr (n :: h) x y where
  both hi := by
    rw [invited_report hn] at hi
    exact ⟨reported_self hn, by rw [reported_other hne hn, (hq.both hi).2]⟩
  count := by
    rw [connections_report hn, not_connects hsent, invited_report hn, hq.count]
    rfl

end Report

/-! ## The records of nodes without bars -/

/-- What the records say of the nodes that play, besides the phases of their pairs. -/
structure Recorded (addr : Text → Text × Text) (a : Rendezvous) : Prop where
  node : ∀ id n, a.nodes id = some n →
    n.signal_host = record_host (addr id).1 ∧ n.signal_port = atoi (addr id).2
  call : ∀ p c, a.calls p = some c → c.pair = p ∧ 124 ∉ p.1 ∧
    c.from_host = record_host (addr p.1).1 ∧ c.from_port = atoi (addr p.1).2 ∧
      (a.nodes p.2).isSome ∧ (p.1 = p.2 → c.callee_ok = false)

theorem call_key_inj {x y u v : Text} (hx : 124 ∉ x) (hu : 124 ∉ u)
    (h : call_key x y = call_key u v) : (x, y) = (u, v) := by
  induction x generalizing u with
  | nil =>
    cases u with
    | nil => simpa [call_key] using h
    | cons d u =>
      obtain ⟨rfl, -⟩ := List.cons.inj h
      exact (hu List.mem_cons_self).elim
  | cons c x ih =>
    cases u with
    | nil =>
      obtain ⟨rfl, -⟩ := List.cons.inj h
      exact (hx List.mem_cons_self).elim
    | cons d u =>
      obtain ⟨rfl, hrest⟩ := List.cons.inj h
      have hxu := ih (fun hm ↦ hx (List.mem_cons_of_mem _ hm))
        (fun hm ↦ hu (List.mem_cons_of_mem _ hm)) hrest
      simpa using hxu

namespace Shows

variable {s : Server} {a : Rendezvous} {addr : Text → Text × Text} {t : Task}

theorem pending_iff (h : Shows s a) (p : Text × Text) :
    s.Pending p ↔ (a.calls p).isSome = true := by
  obtain ⟨-, g, hrep, hkeyed⟩ := h
  rw [Option.isSome_iff_exists]
  constructor
  · rintro ⟨e, he, c, hc, hpair⟩
    obtain ⟨d, hload, hg⟩ := hrep.value e he
    rw [Option.mem_def, hload, Option.some.injEq] at hc
    subst hc
    refine ⟨d, (hkeyed.pair p d).mpr ⟨?_, hpair⟩⟩
    rw [← hpair, ServerCall.pair, (hkeyed.key _ d hg).2, hg]
  · rintro ⟨c, hc⟩
    obtain ⟨hg, hpair⟩ := (hkeyed.pair p c).mp hc
    obtain ⟨b, hb⟩ := hrep.entry _ c hg
    obtain ⟨d, hload, hd⟩ := hrep.value _ hb
    rw [hg, Option.some.injEq] at hd
    exact ⟨_, hb, c, by rw [Option.mem_def, hload, hd], hpair⟩

theorem own (h : Shows s a) (hrec : Recorded addr a) {x y : Text} (hx : 124 ∉ x) :
    s.Own (x, y) := by
  intro e he c hc hkey
  obtain ⟨-, g, hrep, hkeyed⟩ := h
  obtain ⟨d, hload, hg⟩ := hrep.value e he
  rw [Option.mem_def, hload, Option.some.injEq] at hc
  subst hc
  have hcalls : a.calls d.pair = some d := by
    apply (hkeyed.pair d.pair d).mpr
    refine ⟨?_, rfl⟩
    rw [ServerCall.pair, (hkeyed.key _ d hg).2, hg]
  have hbar : 124 ∉ d.from_id := (hrec.call _ d hcalls).2.1
  exact call_key_inj hbar hx ((hkeyed.key _ d hg).2.trans hkey)

theorem finds (h : Shows s a) (hrec : Recorded addr a) (hplays : Plays addr s t) :
    s.Finds t (signal hasAccept t.line) := by
  rw [Plays] at hplays
  cases hsig : signal hasAccept t.line with
  | signin id => trivial
  | invite from_id to_id sess =>
    rw [hsig] at hplays
    exact fun _ _ ↦ h.own hrec hplays.1
  | accept to_id from_id sess =>
    rw [hsig] at hplays
    exact h.own hrec hplays.2.1
  | punchok p1 p2 =>
    rw [hsig] at hplays
    exact ⟨h.own hrec hplays.1, Or.inr (h.own hrec hplays.2.1)⟩
  | signout id => trivial
  | reject to_id from_id reason =>
    rw [hsig] at hplays
    exact hplays.elim
  | malformed => trivial
  | unknown => trivial

end Shows

/-! ## One datagram -/

/-- What holds along a run: the records are those of the nodes that play, and every pair is in a
phase. -/
structure Settled (addr : Text → Text × Text) (a : Rendezvous) (h : History) : Prop where
  recorded : Recorded addr a
  phase : ∀ x y, x ≠ y → Phase addr a.flags h x y
  only : ∀ n ∈ h, ∀ m ∈ n.sent, m.isConnected = true → ∃ x y, x ≠ y ∧ n.connects addr x y = true

section Step

variable {addr : Text → Text × Text} {a b : Rendezvous} {h : History} {n : Note} {t : Task}

theorem not_isConnected {host service text : Text} {c : UInt8} (htext : text.head? = some c)
    (hc : c ≠ 67) : (server_reply host service text).isConnected = false := by
  obtain ⟨rest, rfl⟩ := List.head?_eq_some_iff.mp htext
  have hkey : ascii "CONNECTED " = 67 :: ascii "ONNECTED " := by decide
  rw [Sent.isConnected, server_reply, hkey, List.take_succ_cons, List.isPrefixOf_cons_cons,
    beq_eq_false_iff_ne.mpr hc.symm, Bool.false_and]

theorem head_append {w : Text} {c : UInt8} (h : w.head? = some c) (rest : Text) :
    (w ++ rest).head? = some c := by
  rw [List.head?_append, h, Option.some_or]

theorem head_INVITE_REPLY_accept (to_id from_id : Text) (sess : Session) :
    (INVITE_REPLY_accept to_id from_id sess).head? = some 73 := by
  simp only [INVITE_REPLY_accept, List.append_assoc]
  exact head_append (by decide) _

theorem only_cons (honly : ∀ m ∈ h, ∀ d ∈ m.sent, d.isConnected = true →
      ∃ x y, x ≠ y ∧ m.connects addr x y = true)
    (hn : (∀ d ∈ n.sent, d.isConnected = false) ∨ ∃ x y, x ≠ y ∧ n.connects addr x y = true) :
    ∀ m ∈ n :: h, ∀ d ∈ m.sent, d.isConnected = true →
      ∃ x y, x ≠ y ∧ m.connects addr x y = true := by
  intro m hm d hd hconn
  rcases List.mem_cons.mp hm with rfl | hm
  · rcases hn with hno | hsome
    · rw [hno d hd] at hconn
      cases hconn
    · exact hsome
  · exact honly m hm d hd hconn

theorem Settled.still (hset : Settled addr a h) (hrec : Recorded addr b)
    (hflags : ∀ p, b.flags p = a.flags p) (hinv : ∀ x y, n.signal.invites x y = false)
    (hrep : ∀ x y, n.signal ≠ .punchok x y) (hsent : ∀ d ∈ n.sent, d.isConnected = false) :
    Settled addr b (n :: h) where
  recorded := hrec
  phase x y hne :=
    (hset.phase x y hne).frame (hinv x y) (hrep x y) (hrep y x) (hflags _) (hflags _)
  only := only_cons hset.only (Or.inl hsent)

theorem Recorded.setCall (hrec : Recorded addr a) {p : Text × Text} {o : Option ServerCall}
    (ho : ∀ c, o = some c → c.pair = p ∧ 124 ∉ p.1 ∧ c.from_host = record_host (addr p.1).1 ∧
      c.from_port = atoi (addr p.1).2 ∧ (a.nodes p.2).isSome ∧ (p.1 = p.2 → c.callee_ok = false)) :
    Recorded addr (a.setCall p o) where
  node := hrec.node
  call q c hc := by
    by_cases hq : q = p
    · subst hq
      exact ho c ((Rendezvous.setCall_self a q o).symm.trans hc)
    · rw [Rendezvous.setCall_of_ne hq] at hc
      exact hrec.call q c hc

theorem flags_setCall_self (a : Rendezvous) (p : Text × Text) (o : Option ServerCall) :
    (a.setCall p o).flags p = o.map fun c ↦ (c.caller_ok, c.callee_ok) := by
  rw [Rendezvous.flags, Rendezvous.setCall_self]

theorem flags_setCall_of_ne (a : Rendezvous) {p q : Text × Text} (hq : q ≠ p)
    (o : Option ServerCall) : (a.setCall p o).flags q = a.flags q := by
  rw [Rendezvous.flags, Rendezvous.setCall_of_ne hq, Rendezvous.flags]

theorem Settled.signin (hset : Settled addr a h) {id : Text}
    (haddr : addr id = (t.remote_host, t.remote_service)) :
    Settled addr (a.respond t (.signin id)).1
      (⟨.signin id, (a.respond t (.signin id)).2.sent⟩ :: h) := by
  refine hset.still ⟨?_, ?_⟩ (fun _ ↦ rfl) (fun _ _ ↦ rfl) (by simp) ?_
  · intro id' n hn
    by_cases hid : id' = id
    · subst hid
      have hhost : record_host t.remote_host = record_host (addr id').1 := by rw [haddr]
      have hport : atoi t.remote_service = atoi (addr id').2 := by rw [haddr]
      simp only [Rendezvous.respond, Rendezvous.setNode, Function.update_self] at hn
      split at hn
      · split at hn
        · cases hn
          exact ⟨hhost, hport⟩
        · cases hn
      · cases hn
        exact ⟨hhost, hport⟩
    · simp only [Rendezvous.respond, Rendezvous.setNode, Function.update_of_ne hid] at hn
      exact hset.recorded.node id' n hn
  · intro p c hc
    obtain ⟨hpair, hbar, hhost, hport, hnode, hself⟩ := hset.recorded.call p c hc
    refine ⟨hpair, hbar, hhost, hport, ?_, hself⟩
    by_cases hid : p.2 = id
    · obtain ⟨n, hn⟩ := Option.isSome_iff_exists.mp hnode
      rw [hid] at hn ⊢
      simp [Rendezvous.respond, Rendezvous.setNode, hn]
    · simpa [Rendezvous.respond, Rendezvous.setNode, Function.update_of_ne hid] using hnode
  · intro d hd
    obtain rfl := List.mem_singleton.mp hd
    rw [SIGNIN_REPLY, List.append_assoc]
    exact not_isConnected (c := 83) (head_append (by decide) _) (by decide)

theorem Settled.accept (hset : Settled addr a h) (to_id from_id : Text) (sess : Session) :
    Settled addr (a.respond t (.accept to_id from_id sess)).1
      (⟨.accept to_id from_id sess, (a.respond t (.accept to_id from_id sess)).2.sent⟩ :: h) := by
  cases hcall : a.calls (from_id, to_id) with
  | none =>
    have hsame : a.respond t (.accept to_id from_id sess) = (a, ⟨1, []⟩) := by
      simp only [Rendezvous.respond, hcall]
    rw [hsame]
    exact hset.still hset.recorded (fun _ ↦ rfl) (fun _ _ ↦ rfl) (by simp) (by simp)
  | some c =>
    have hset' : a.respond t (.accept to_id from_id sess) =
        (a.setCall (from_id, to_id) (some (c.accepted sess)),
          ⟨1, [c.reply (INVITE_REPLY_accept to_id from_id sess)]⟩) := by
      simp only [Rendezvous.respond, hcall]
    rw [hset']
    refine hset.still (hset.recorded.setCall ?_) ?_ (fun _ _ ↦ rfl) (by simp) ?_
    · intro d hd
      cases hd
      exact hset.recorded.call _ c hcall
    · intro p
      by_cases hp : p = (from_id, to_id)
      · rw [hp, flags_setCall_self, Rendezvous.flags, hcall]
        rfl
      · exact flags_setCall_of_ne a hp _
    · intro d hd
      obtain rfl := List.mem_singleton.mp hd
      exact not_isConnected (c := 73) (head_INVITE_REPLY_accept to_id from_id sess) (by decide)

theorem Settled.invite (hset : Settled addr a h) {from_id to_id : Text} {sess : Session}
    (hbar : 124 ∉ from_id) (haddr : addr from_id = (t.remote_host, t.remote_service))
    (hnode : (a.nodes to_id).isSome)
    (hone : from_id ≠ to_id → t.mem = true ∧ a.calls (to_id, from_id) = none) :
    Settled addr (a.respond t (.invite from_id to_id sess)).1
      (⟨.invite from_id to_id sess, (a.respond t (.invite from_id to_id sess)).2.sent⟩ :: h) := by
  obtain ⟨callee, hcallee⟩ := Option.isSome_iff_exists.mp hnode
  have hrespond : a.respond t (.invite from_id to_id sess) =
      (if t.mem then a.setCall (from_id, to_id) (some (t.call from_id to_id sess)) else a,
        ⟨1, [callee.reply (P2p.INVITE from_id sess)]⟩) := by
    simp only [Rendezvous.respond, hcallee]
  have hrec : Recorded addr (a.setCall (from_id, to_id) (some (t.call from_id to_id sess))) := by
    apply hset.recorded.setCall
    intro c hc
    cases hc
    have hhost : record_host t.remote_host = record_host (addr from_id).1 := by rw [haddr]
    have hport : atoi t.remote_service = atoi (addr from_id).2 := by rw [haddr]
    exact ⟨rfl, hbar, hhost, hport, hnode, fun _ ↦ rfl⟩
  rw [hrespond]
  refine ⟨?_, ?_, only_cons hset.only (Or.inl ?_)⟩
  · show Recorded addr (ite _ _ _)
    split
    · exact hrec
    · exact hset.recorded
  · intro x y hne
    show Phase addr (ite _ _ _ : Rendezvous).flags _ x y
    by_cases hi : (Signal.invite from_id to_id sess).invites x y = true
    · -- the invitation is between the two
      have hends : (from_id, to_id) = (x, y) ∨ (from_id, to_id) = (y, x) := by
        simpa [Signal.invites] using hi
      have hopen : ∀ {u v : Text}, u ≠ v → (from_id, to_id) = (u, v) → ∀ {sent : List Sent},
          Phase addr (if t.mem then a.setCall (from_id, to_id) (some (t.call from_id to_id sess))
            else a).flags (⟨.invite from_id to_id sess, sent⟩ :: h) u v := by
        rintro u v huv heq sent
        cases heq
        obtain ⟨hmem, hback⟩ := hone huv
        rw [if_pos hmem]
        refine Phase.invite (by simp [Signal.invites]) (flags_setCall_self _ _ _) ?_
        rw [flags_setCall_of_ne _ (by simp [huv.symm]), Rendezvous.flags, hback, Option.map_none]
      rcases hends with heq | heq
      · exact hopen hne heq
      · exact (hopen hne.symm heq).symm
    · have hi' : (Signal.invite from_id to_id sess).invites x y = false := by simpa using hi
      have hends : ¬ ((from_id, to_id) = (x, y) ∨ (from_id, to_id) = (y, x)) := by
        simpa only [Signal.invites, Bool.or_eq_true, decide_eq_true_eq] using hi
      have hother : (x, y) ≠ (from_id, to_id) ∧ (y, x) ≠ (from_id, to_id) :=
        ⟨fun heq ↦ hends (Or.inl heq.symm), fun heq ↦ hends (Or.inr heq.symm)⟩
      refine (hset.phase x y hne).frame hi' (by simp) (by simp) ?_ ?_
      · split
        · exact flags_setCall_of_ne a hother.1 _
        · rfl
      · split
        · exact flags_setCall_of_ne a hother.2 _
        · rfl
  · intro d hd
    obtain rfl := List.mem_singleton.mp hd
    rw [P2p.INVITE, List.append_assoc]
    exact not_isConnected (c := 73) (head_append (by decide) _) (by decide)

theorem connected_eq (hrec : Recorded addr a) {x y : Text} {c : ServerCall}
    (hc : a.calls (x, y) = some c) {d : ServerCall} (hpair : d.pair = c.pair)
    (hhost : d.from_host = c.from_host) (hport : d.from_port = c.from_port) :
    a.connected d = [told addr x y, told addr y x] := by
  obtain ⟨hcp, -, hch, hcport, hnode, -⟩ := hrec.call _ c hc
  obtain ⟨n, hn⟩ := Option.isSome_iff_exists.mp hnode
  obtain ⟨hnh, hnp⟩ := hrec.node _ n hn
  obtain ⟨rfl, rfl⟩ := Prod.mk.inj (hpair.trans hcp)
  have hcaller : d.reply (CONNECTED d.to_id) = told addr d.from_id d.to_id := by
    rw [ServerCall.reply, told, hhost, hport, hch, hcport]
  have hcallee : n.reply (CONNECTED d.from_id) = told addr d.to_id d.from_id := by
    rw [StunNode.reply, told, hnh, hnp]
  have hnode' : a.nodes d.to_id = some n := hn
  rw [Rendezvous.connected, hnode', hcaller, Option.map_some, hcallee, Option.toList_some]

/-- A report that belongs to the call of `x` to `y` and makes `d` of it. -/
structure Belongs (a : Rendezvous) (p1 p2 x y : Text) (c d : ServerCall) : Prop where
  call : a.calls (x, y) = some c
  reported : a.reported p1 p2 = some d
  pair : d.pair = c.pair
  host : d.from_host = c.from_host
  port : d.from_port = c.from_port

variable {p1 p2 x y : Text} {c d : ServerCall}

theorem Belongs.both (hb : Belongs a p1 p2 x y c d) (hrec : Recorded addr a)
    (hboth : (d.caller_ok && d.callee_ok) = true) :
    a.respond t (.punchok p1 p2) =
      (a.setCall (x, y) none, ⟨1, [told addr x y, told addr y x]⟩) := by
  have hpair : d.pair = (x, y) := hb.pair.trans (hrec.call _ c hb.call).1
  simp only [Rendezvous.respond, hb.reported, hboth, if_true, hpair,
    connected_eq hrec hb.call hb.pair hb.host hb.port]

theorem Belongs.first (hb : Belongs a p1 p2 x y c d) (hrec : Recorded addr a)
    (hboth : (d.caller_ok && d.callee_ok) = false) :
    a.respond t (.punchok p1 p2) = (a.setCall (x, y) (some d), ⟨1, []⟩) := by
  have hpair : d.pair = (x, y) := hb.pair.trans (hrec.call _ c hb.call).1
  simp only [Rendezvous.respond, hb.reported, hboth, hpair, Bool.false_eq_true, if_false]

theorem Settled.report_frame (hset : Settled addr a h) {u v : Text} (huv : u ≠ v)
    (hpair : (p1, p2) = (x, y) ∨ (p1, p2) = (y, x)) {o : Option ServerCall} {sent : List Sent}
    (hxy : (u, v) ≠ (x, y)) (hyx : (v, u) ≠ (x, y)) :
    Phase addr (a.setCall (x, y) o).flags (⟨.punchok p1 p2, sent⟩ :: h) u v := by
  have hne : ∀ {w z : Text}, (w, z) ≠ (x, y) → (z, w) ≠ (x, y) →
      (Signal.punchok p1 p2) ≠ .punchok w z := by
    rintro w z hwz hzw heq
    cases heq
    rcases hpair with heq | heq
    · exact hwz heq
    · exact hzw (by rw [Prod.mk.injEq] at heq ⊢; exact heq.symm)
  exact (hset.phase u v huv).frame rfl (hne hxy hyx) (hne hyx hxy)
    (flags_setCall_of_ne a hxy o) (flags_setCall_of_ne a hyx o)

theorem Settled.of_report (hset : Settled addr a h)
    (hpair : (p1, p2) = (x, y) ∨ (p1, p2) = (y, x)) {o : Option ServerCall} {sent : List Sent}
    (hrec : Recorded addr (a.setCall (x, y) o))
    (hphase : x ≠ y → Phase addr (a.setCall (x, y) o).flags (⟨.punchok p1 p2, sent⟩ :: h) x y)
    (hsent : (∀ m ∈ sent, m.isConnected = false) ∨
      ∃ u v, u ≠ v ∧ Note.connects addr u v ⟨.punchok p1 p2, sent⟩ = true) :
    Settled addr (a.setCall (x, y) o) (⟨.punchok p1 p2, sent⟩ :: h) where
  recorded := hrec
  phase u v huv := by
    by_cases hxy : (u, v) = (x, y)
    · cases hxy
      exact hphase huv
    · by_cases hyx : (v, u) = (x, y)
      · cases hyx
        exact (hphase huv.symm).symm
      · exact hset.report_frame huv hpair hxy hyx
  only := only_cons hset.only hsent

theorem Settled.report (hset : Settled addr a h) (hb : Belongs a p1 p2 x y c d)
    (hpair : (p1, p2) = (x, y) ∨ (p1, p2) = (y, x)) (hself : x = y → d.callee_ok = false)
    (hboth : x ≠ y → (d.caller_ok && d.callee_ok) = true → Quiet addr
      (⟨.punchok p1 p2, [told addr x y, told addr y x]⟩ :: h) x y)
    (hfirst : x ≠ y → (d.caller_ok && d.callee_ok) = false → Half addr
      (⟨.punchok p1 p2, []⟩ :: h) x y (d.caller_ok, d.callee_ok))
    (hback : x ≠ y → a.calls (y, x) = none) :
    Settled addr (a.respond t (.punchok p1 p2)).1
      (⟨.punchok p1 p2, (a.respond t (.punchok p1 p2)).2.sent⟩ :: h) := by
  have hflag : ∀ (o : Option ServerCall), x ≠ y → (a.setCall (x, y) o).flags (y, x) = none := by
    intro o hne
    rw [flags_setCall_of_ne a (by simp [hne.symm]), Rendezvous.flags, hback hne, Option.map_none]
  cases hdone : (d.caller_ok && d.callee_ok) with
  | true =>
    have hne : x ≠ y := by
      intro heq
      rw [hself heq, Bool.and_false] at hdone
      cases hdone
    rw [hb.both hset.recorded hdone]
    refine hset.of_report hpair (hset.recorded.setCall (by simp)) (fun _ ↦ ?_) (Or.inr ?_)
    · exact Or.inl ⟨flags_setCall_self a _ _, hflag none hne, hboth hne hdone⟩
    · refine ⟨x, y, hne, ?_⟩
      rcases hpair with heq | heq <;> cases heq <;> simp [Note.connects]
  | false =>
    rw [hb.first hset.recorded hdone]
    refine hset.of_report hpair (hset.recorded.setCall ?_) (fun hne ↦ ?_) (Or.inl (by simp))
    · intro e he
      cases he
      obtain ⟨hcp, hbar, hhost, hport, hnode, -⟩ := hset.recorded.call _ c hb.call
      exact ⟨hb.pair.trans hcp, hbar, hb.host.trans hhost, hb.port.trans hport, hnode, hself⟩
    · exact Or.inr (Or.inl ⟨_, flags_setCall_self a _ _, hflag _ hne, hfirst hne hdone⟩)

theorem Settled.report_none (hset : Settled addr a h) (h12 : a.calls (p1, p2) = none)
    (h21 : a.calls (p2, p1) = none) :
    Settled addr (a.respond t (.punchok p1 p2)).1
      (⟨.punchok p1 p2, (a.respond t (.punchok p1 p2)).2.sent⟩ :: h) := by
  have hrespond : a.respond t (.punchok p1 p2) = (a.setCall (p1, p2) none, ⟨1, []⟩) := by
    have hsame : a.setCall (p1, p2) none = a := by
      rw [Rendezvous.setCall, ← h12, Function.update_eq_self]
    simp only [Rendezvous.respond, Rendezvous.reported, h12, h21, Option.map_none, hsame]
  rw [hrespond]
  refine hset.of_report (Or.inl rfl) (hset.recorded.setCall (by simp)) (fun hne ↦ ?_)
    (Or.inl (by simp))
  have hF : a.flags (p1, p2) = none := by rw [Rendezvous.flags, h12, Option.map_none]
  have hF' : a.flags (p2, p1) = none := by rw [Rendezvous.flags, h21, Option.map_none]
  have hq : Quiet addr h p1 p2 := by
    rcases hset.phase p1 p2 hne with ⟨-, -, hq⟩ | ⟨f, hf, -⟩ | ⟨f, hf, -⟩
    · exact hq
    · rw [hF] at hf
      cases hf
    · rw [hF'] at hf
      cases hf
  refine Or.inl ⟨flags_setCall_self a _ _, ?_, hq.reports hne rfl rfl⟩
  rw [flags_setCall_of_ne a (by simp [hne.symm]), hF']

theorem Settled.half (hset : Settled addr a h) (hne : x ≠ y) (hc : a.calls (x, y) = some c) :
    a.calls (y, x) = none ∧ Half addr h x y (c.caller_ok, c.callee_ok) := by
  have hF : a.flags (x, y) = some (c.caller_ok, c.callee_ok) := by
    rw [Rendezvous.flags, hc, Option.map_some]
  rcases hset.phase x y hne with ⟨hnone, -⟩ | ⟨f, hf, hback, hhalf⟩ | ⟨f, -, hnone, -⟩
  · rw [hF] at hnone
    cases hnone
  · rw [hF, Option.some.injEq] at hf
    exact ⟨Option.map_eq_none_iff.mp hback, hf ▸ hhalf⟩
  · rw [hF] at hnone
    cases hnone

theorem Settled.punchok (hset : Settled addr a h) (p1 p2 : Text) :
    Settled addr (a.respond t (.punchok p1 p2)).1
      (⟨.punchok p1 p2, (a.respond t (.punchok p1 p2)).2.sent⟩ :: h) := by
  cases h12 : a.calls (p1, p2) with
  | some c =>
    have hb : Belongs a p1 p2 p1 p2 c { c with caller_ok := true } :=
      ⟨h12, by simp only [Rendezvous.reported, h12], rfl, rfl, rfl⟩
    refine hset.report hb (Or.inl rfl) ?_ (fun hne hdone ↦ ?_) (fun hne hopen ↦ ?_)
      (fun hne ↦ (hset.half hne h12).1)
    · exact (hset.recorded.call _ c h12).2.2.2.2.2
    · obtain ⟨-, hhalf⟩ := hset.half hne h12
      have hother : h.reported p2 p1 = true := hhalf.callee.symm.trans (by simpa using hdone)
      exact hhalf.closes hne (Or.inl rfl) rfl hother (by simp [Note.connects])
    · obtain ⟨-, hhalf⟩ := hset.half hne h12
      exact hhalf.caller_reports hne rfl rfl (by simpa using hopen)
  | none =>
    cases h21 : a.calls (p2, p1) with
    | none => exact hset.report_none h12 h21
    | some c =>
      have hb : Belongs a p1 p2 p2 p1 c { c with callee_ok := true } :=
        ⟨h21, by simp only [Rendezvous.reported, h12, h21, Option.map_some], rfl, rfl, rfl⟩
      have hne : p2 ≠ p1 := by
        rintro rfl
        rw [h12] at h21
        cases h21
      obtain ⟨hback, hhalf⟩ := hset.half hne h21
      refine hset.report hb (Or.inr rfl) (fun heq ↦ (hne heq).elim) (fun _ hdone ↦ ?_)
        (fun _ hopen ↦ ?_) (fun _ ↦ hback)
      · have hother : h.reported p2 p1 = true := hhalf.caller.symm.trans (by simpa using hdone)
        have hq := hhalf.closes hne.symm (Or.inr rfl) (n := ⟨.punchok p1 p2,
          [told addr p2 p1, told addr p1 p2]⟩) rfl hother (by simp [Note.connects])
        refine ⟨fun hi ↦ (hq.both (by rwa [History.invited_comm])).symm, ?_⟩
        rw [History.connections_comm, hq.count, History.invited_comm]
      · exact hhalf.callee_reports hne rfl rfl (by simpa using hopen)

end Step

/-! ## Runs -/

theorem Settled.agrees {addr : Text → Text × Text} {s : Server} {a : Rendezvous} {h : History}
    (hset : Settled addr a h) (hshows : Shows s a) : Agrees addr s h where
  once x y hne := by
    rcases hset.phase x y hne with ⟨-, -, hq⟩ | ⟨f, -, -, hf⟩ | ⟨f, -, -, hf⟩
    · rw [hq.count]
      cases hi : h.invited x y with
      | false => simp
      | true => simp [(hq.both hi).1, (hq.both hi).2]
    · rw [hf.silent, ← hf.caller, ← hf.callee, Bool.and_assoc, hf.open_, Bool.and_false]
      rfl
    · rw [History.connections_comm, hf.silent, ← hf.caller, ← hf.callee, Bool.and_assoc,
        Bool.and_comm f.2, hf.open_, Bool.and_false]
      rfl
  settled x y hne hx hy hpending := by
    obtain ⟨c, hc⟩ := Option.isSome_iff_exists.mp ((hshows.pending_iff _).mp hpending)
    obtain ⟨-, hhalf⟩ := hset.half hne hc
    have hopen := hhalf.open_
    rw [hhalf.caller, hhalf.callee, hx, hy] at hopen
    cases hopen
  only := hset.only

theorem settled_empty (addr : Text → Text × Text) : Settled addr .empty [] where
  recorded := ⟨by simp [Rendezvous.empty], by simp [Rendezvous.empty]⟩
  phase x y _ := Phase.empty (fun _ ↦ rfl) x y
  only := by simp

theorem Settled.respond {addr : Text → Text × Text} {s : Server} {a : Rendezvous} {h : History}
    {t : Task} (hset : Settled addr a h) (hshows : Shows s a) (hplays : Plays addr s t)
    (hone : OneWay s t) :
    Settled addr (a.respond t (signal hasAccept t.line)).1
      (⟨signal hasAccept t.line, (a.respond t (signal hasAccept t.line)).2.sent⟩ :: h) := by
  rw [Plays] at hplays
  rw [OneWay] at hone
  cases hsig : signal hasAccept t.line with
  | signin id =>
    rw [hsig] at hplays
    exact hset.signin hplays.2
  | invite from_id to_id sess =>
    rw [hsig] at hplays hone
    obtain ⟨hbar, -, haddr, hin⟩ := hplays
    have hnode : (a.nodes to_id).isSome := by
      obtain ⟨e, he, rfl⟩ := List.mem_map.mp hin
      obtain ⟨n, -, hn⟩ := hshows.1.value e he
      rw [hn]
      rfl
    refine hset.invite hbar haddr hnode fun hne ↦ ?_
    obtain ⟨hmem, hback⟩ := hone hne
    exact ⟨hmem, by simpa [hshows.pending_iff] using hback⟩
  | accept to_id from_id sess => exact hset.accept to_id from_id sess
  | punchok p1 p2 => exact hset.punchok p1 p2
  | signout id =>
    rw [hsig] at hplays
    exact hplays.elim
  | reject to_id from_id reason =>
    rw [hsig] at hplays
    exact hplays.elim
  | malformed =>
    rw [hsig] at hplays
    exact hplays.elim
  | unknown =>
    rw [hsig] at hplays
    exact hplays.elim

theorem Server.watch_spec (rb : Rebalance (Text × ℕ)) {addr : Text → Text × Text} {s : Server}
    {a : Rendezvous} {h : History} {t : Task} (hshows : Shows s a) (hset : Settled addr a h)
    (hplays : Plays addr s t) (hone : OneWay s t) :
    ∃ s' a' h', watch rb (some s, h) t = (some s', h') ∧ Shows s' a' ∧ Settled addr a' h' := by
  obtain ⟨s', hserve, hshows'⟩ := s.serve_spec rb hshows (hshows.finds hset.recorded hplays)
  exact ⟨s', _, _, by simp [watch, stun_server_callback, hserve], hshows',
    hset.respond hshows hplays hone⟩

/-- Nodes that never invite each other at the same time are connected in agreement. -/
theorem agrees_one_way (rb : Rebalance (Text × ℕ)) (addr : Text → Text × Text) {ts : List Task}
    (h : Run.Steps (Server.watch rb) (fun st t _ ↦ ∀ s ∈ st.1, Plays addr s t ∧ OneWay s t)
      (some .empty, []) ts) :
    Run.Steps (Server.watch rb) (fun _ _ st ↦ ∃ s ∈ st.1, Agrees addr s st.2)
      (some .empty, []) ts := by
  let I : Option Server × History → Prop := fun st ↦
    ∃ s a, st.1 = some s ∧ Shows s a ∧ Settled addr a st.2
  refine (Run.Steps.of_invariant (I := I) ⟨_, _, rfl, shows_empty, settled_empty addr⟩ ?_ h).2
  rintro ⟨_, h⟩ t ⟨s, a, rfl, hshows, hset⟩ hcond
  obtain ⟨hplays, hone⟩ := hcond s rfl
  obtain ⟨s', a', h', hwatch, hshows', hset'⟩ := Server.watch_spec rb hshows hset hplays hone
  rw [hwatch]
  exact ⟨⟨s', a', rfl, hshows', hset'⟩, s', rfl, hset'.agrees hshows'⟩

def exampleAddr (id : Text) : Text × Text := (ascii "10.0.0." ++ id, ascii "5000")

def exampleTask (id : Text) (line : String) : Task :=
  ⟨ascii line, (exampleAddr id).1, (exampleAddr id).2, true⟩

/-- One calls the other, twice, and they report in turn. -/
def oneCall : List Task :=
  [exampleTask (ascii "1") "SIGNIN 1", exampleTask (ascii "2") "SIGNIN 2",
    exampleTask (ascii "1") "INVITE 1 2 1.2.3.4 7000", exampleTask (ascii "2") "PUNCHOK 2 1",
    exampleTask (ascii "1") "INVITE 1 2 1.2.3.4 7001",
    exampleTask (ascii "2") "INVITE_REPLY 2 1 accept 1.2.3.5 7000",
    exampleTask (ascii "1") "PUNCHOK 1 2", exampleTask (ascii "2") "PUNCHOK 2 1"]

theorem agrees_one_call :
    Run.Steps (Server.watch (.small _)) (fun _ _ st ↦ ∃ s ∈ st.1, Agrees exampleAddr s st.2)
      (some .empty, []) oneCall :=
  agrees_one_way (.small _) exampleAddr (by decide)

/-- Each calls the other, and the report of each is put into its own call. -/
def crossingCalls : List Task :=
  [exampleTask (ascii "1") "SIGNIN 1", exampleTask (ascii "2") "SIGNIN 2",
    exampleTask (ascii "1") "INVITE 1 2 1.2.3.4 7000",
    exampleTask (ascii "2") "INVITE 2 1 1.2.3.5 7000",
    exampleTask (ascii "1") "PUNCHOK 1 2", exampleTask (ascii "2") "PUNCHOK 2 1"]

theorem not_agrees_crossing_calls :
    Run.Steps (Server.watch (.small _)) (fun st t _ ↦ ∀ s ∈ st.1, Plays exampleAddr s t)
        (some .empty, []) crossingCalls ∧
      ¬ Run.Steps (Server.watch (.small _)) (fun _ _ st ↦ ∃ s ∈ st.1, Agrees exampleAddr s st.2)
        (some .empty, []) crossingCalls := by
  refine ⟨by decide, fun h ↦ ?_⟩
  obtain ⟨-, -, -, -, -, ⟨s, -, hagrees⟩, -⟩ := h
  have honce := hagrees.once (ascii "1") (ascii "2") (by decide)
  exact absurd honce (by decide)

end Libobject.P2p
