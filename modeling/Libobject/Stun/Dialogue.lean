import Libobject.Lib.Refine
import Libobject.Stun.Client

/-!
# What a node owes its peers

The dialogue with a peer says who asked last, whether the link is up, whether the node may use it
and whether it knows where the peer is. An invitation must be answered by replies to its sender, a
link that is up must stay up until it is rejected or closed, and a session that was created must
take data once the peer can be reached.
-/

namespace Libobject.Stun

open Scan P2p

/-- `answering`: the last probe was started by an invitation; `awaiting`: no server has replied to
it yet. -/
structure Dialogue where
  answering : Bool
  awaiting : Bool
  connected : Bool
  usable : Bool
  reachable : Bool
  deriving DecidableEq

abbrev Dialogues := Text → Option Dialogue

/-- What a node shows after an event: its answer, and which links are up. -/
structure Observation where
  answer : Answer
  up : Text → Bool

namespace Dialogue

/-- A session was created or used again. -/
def begun (answering : Bool) (d : Option Dialogue) : Dialogue where
  answering := answering
  awaiting := true
  connected := d.elim false connected
  usable := true
  reachable := answering || d.elim false reachable

def probing (d : Dialogue) : Dialogue := { d with awaiting := true }

def told (d : Dialogue) : Dialogue := { d with awaiting := false }

def reached (d : Dialogue) : Dialogue := { d with reachable := true }

def rejected (d : Dialogue) : Dialogue := { d with usable := false, connected := false }

def linked (d : Dialogue) : Dialogue := { d with connected := true }

end Dialogue

namespace Dialogues

variable (a : Dialogues)

def change (p : Text) (g : Dialogue → Dialogue) : Dialogues := Function.update a p ((a p).map g)

/-- What `create_session` did to the dialogue. -/
def attempted (p : Text) (answering : Bool) (ret : ℤ) : Dialogues :=
  if 0 ≤ ret then Function.update a p (some (.begun answering (a p))) else a.change p .probing

/-- `my` is the id of the node. -/
def hear (my : Text) (created : ℤ) : Heard → Dialogues
  | .invite from_id _ => a.attempted from_id true created
  | .accept callee _ => a.change callee .reached
  | .reject callee rcaller => if my ≠ [] ∧ rcaller ≠ my then a else a.change callee .rejected
  | .connected peer => a.change peer .linked
  | .signin_reply | .malformed | .unknown => a

def next (my : Text) (e : ClientEvent) (o : Observation) : Dialogues :=
  match e with
  | .signal buf _ => a.hear my (o.answer.created.getD (-1)) (heard buf)
  | .binding _ got =>
    match o.answer.peer with
    | none => a
    | some p => if got = none then a else a.change p .told
  | .p2p _ _ host _ =>
    match o.answer.peer with
    | none => a
    | some p => if host = [] then a else a.change p .reached
  | .create p _ => a.attempted p false o.answer.ret
  | .close p => Function.update a p none
  | .send .. => a

end Dialogues

/-- The lines that a node owes for what it hears: it refuses an invitation that it cannot take. -/
def HeardWell (my : Text) (created : ℤ) (sent : List Text) : Heard → Prop
  | .invite from_id _ =>
    sent = if 0 ≤ created ∨
      my = [] then [] else [INVITE_REPLY_reject my from_id STUN_REJECT_NO_PORT]
  | _ => sent = []

/-- What a node owes at an event. -/
def Owes (my : Text) (stun2 : Bool) (a : Dialogues) (e : ClientEvent) (o : Observation) : Prop :=
  match e with
  | .signal buf _ => HeardWell my (o.answer.created.getD (-1)) o.answer.sent (heard buf)
  | .binding _ got => ∀ p ∈ o.answer.peer, ∀ d ∈ a p, d.answering →
      if got = none ∨ my = [] ∨ d.awaiting ∧ stun2 then o.answer.sent = []
      else ∃ q : Probe, o.answer.sent = [INVITE_REPLY_accept my p q]
  | .send p len sent => ∀ d ∈ a p, d.usable → d.reachable → 0 ≤ len → len ≤ 1400 → sent →
      0 ≤ o.answer.ret
  | .p2p .. | .create .. | .close _ => True

def dialogues (my : Text) (stun2 : Bool) : Spec Dialogues ClientEvent Observation where
  ok a e o := Owes my stun2 a e o ∧
    ∀ p, ∀ d ∈ a.next my e o p, d.connected → o.up p
  next a e o := a.next my e o

namespace Client

def up (c : Client) (p : Text) : Bool :=
  match c.get_session p with
  | some (some (_, s)) => s.connected && s.state = .connected
  | _ => false

def call (rb : Rebalance (Text × ℕ)) (c : Client) (e : ClientEvent) :
    Option (Client × Observation) :=
  (c.serve rb e).map fun r ↦ (r.1, ⟨r.2, r.1.up⟩)

/-- The session with a peer. -/
def session (c : Client) (p : Text) : Option StunSession := (c.get_session p).join.map Prod.snd

/-- An invitation comes from a peer with which there is no session, or a session as the callee that
is in use. -/
def FitsHeard (c : Client) : Heard → Prop
  | .invite from_id _ => ∀ s ∈ c.session from_id, s.role = .callee ∧ s.active
  | _ => True

instance (c : Client) (m : Heard) : Decidable (c.FitsHeard m) := by
  cases m <;> (unfold FitsHeard; infer_instance)

/-- A session is created under an id that fits in its record, and one that exists is in use. -/
def Fits (c : Client) : ClientEvent → Prop
  | .signal buf _ => c.FitsHeard (heard buf)
  | .create remote_id _ => remote_id.length ≤ 31 ∧ ∀ s ∈ c.session remote_id, s.active
  | _ => True

instance (c : Client) (e : ClientEvent) : Decidable (c.Fits e) := by
  cases e <;> (unfold Fits; infer_instance)

end Client

/-! ## Sessions behind the table -/

/-- The node has its id and its configuration, and its sessions are those of the function. -/
structure Client.Shows (c : Client) (my : Text) (stun2 : Bool) (f : Text → Option StunSession) :
    Prop where
  my : c.stun_id = my
  stun2 : c.stun2 = stun2
  sessions : c.sessions.Represents f
  ids : ∀ p s, f p = some s → s.remote_id = p

namespace Client.Shows

variable {c : Client} {my : Text} {stun2 : Bool} {f : Text → Option StunSession} {p : Text}
  {s : StunSession} {b : ℕ}

theorem get_session_cases (h : c.Shows my stun2 f) (p : Text) :
    (c.get_session p = some none ∧ f p = none) ∨
      ∃ b s, c.get_session p = some (some (b, s)) ∧ c.sessions.search p = some (some b) ∧
        (p, b) ∈ c.sessions.entries ∧ f p = some s := by
  rcases h.sessions.search p with ⟨hs, hp⟩ | ⟨b, s, hs, hmem, hload, hp⟩
  · exact Or.inl ⟨by simp [get_session, hs], hp⟩
  · exact Or.inr ⟨b, s, by simp [get_session, hs, hload], hs, hmem, hp⟩

theorem session_eq (h : c.Shows my stun2 f) (p : Text) : c.session p = f p := by
  rcases h.get_session_cases p with ⟨hget, hp⟩ | ⟨b, s, hget, -, -, hp⟩
  · simp [session, hget, hp]
  · simp [session, hget, hp]

theorem up_eq (h : c.Shows my stun2 f) (hp : f p = some s) :
    c.up p = (s.connected && s.state = .connected) := by
  rcases h.get_session_cases p with ⟨-, hnone⟩ | ⟨b, s', hget, -, -, hs⟩
  · rw [hp] at hnone
    cases hnone
  · rw [hp, Option.some.injEq] at hs
    simp [up, hget, hs]

theorem store (h : c.Shows my stun2 f) (hmem : (p, b) ∈ c.sessions.entries)
    (hid : s.remote_id = p) :
    ∃ c', c.store b s = some c' ∧ c'.Shows my stun2 (Function.update f p (some s)) ∧
      c'.sessions.entries = c.sessions.entries := by
  obtain ⟨m, hm, hrep⟩ := h.sessions.store hmem s
  refine ⟨{ c with sessions := m }, by rw [Client.store, hm]; rfl, ⟨h.my, h.stun2, hrep, ?_⟩, ?_⟩
  · intro q t hq
    by_cases hqp : q = p
    · subst hqp
      rw [Function.update_self, Option.some.injEq] at hq
      rwa [← hq]
    · rw [Function.update_of_ne hqp] at hq
      exact h.ids q t hq
  · rw [OwnedMap.store] at hm
    split at hm
    · obtain rfl := Option.some.inj hm
      rfl
    · cases hm

theorem probe_session_addr_some (h : c.Shows my stun2 f) (hp : f p = some s) (probed : Bool) :
    ∃ c', c.probe_session_addr p probed = some (c', if probed then 1 else -1) ∧
      c'.Shows my stun2 (Function.update f p (some s.probing)) ∧
        c'.sessions.entries = c.sessions.entries := by
  rcases h.get_session_cases p with ⟨-, hnone⟩ | ⟨b, s', hget, -, hmem, hs⟩
  · rw [hp] at hnone
    cases hnone
  · obtain rfl : s = s' := Option.some.inj (hp.symm.trans hs)
    have hid : s.probing.remote_id = p := h.ids p s hp
    obtain ⟨c', hstore, hshows, hentries⟩ := h.store hmem hid
    refine ⟨c', ?_, hshows, hentries⟩
    simp [probe_session_addr, hget, hstore]

theorem close_session (rb : Rebalance (Text × ℕ)) (h : c.Shows my stun2 f) (p : Text) :
    ∃ c' ret, c.close_session rb p = some (c', ret) ∧
      c'.Shows my stun2 (Function.update f p none) := by
  rcases h.get_session_cases p with ⟨hget, hp⟩ | ⟨b, s, hget, hs, -, hp⟩
  · refine ⟨c, 0, by simp [Client.close_session, hget], ?_⟩
    rw [← hp, Function.update_eq_self]
    exact h
  · obtain ⟨m, hm, hrep⟩ := h.sessions.erase rb hs
    refine ⟨{ c with sessions := m }, 1, by simp [Client.close_session, hget, hm],
      ⟨h.my, h.stun2, hrep, ?_⟩⟩
    intro q t hq
    by_cases hqp : q = p
    · rw [hqp, Function.update_self] at hq
      cases hq
    · rw [Function.update_of_ne hqp] at hq
      exact h.ids q t hq

theorem create_session (rb : Rebalance (Text × ℕ)) (h : c.Shows my stun2 f)
    (hlen : p.length ≤ 31) (role : Role) (res : Resources) :
    ∃ c' ret ns f', c.create_session rb p role res = some (c', ret, ns) ∧ c'.Shows my stun2 f' ∧
      ((ret = 1 ∧ ∃ b s, ns = some b ∧ (p, b) ∈ c'.sessions.entries ∧
          f' = Function.update f p (some s.probing) ∧
            (f p = some s ∨ f p = none ∧ s = .new p role)) ∨
        (ret = -1 ∧ ns = none ∧
          (f p = none ∧ f' = f ∨ ∃ s,
          f p = some s ∧ f' = Function.update f p (some s.probing)))) := by
  obtain ⟨made, probed⟩ := res
  rcases h.get_session_cases p with ⟨hget, hp⟩ | ⟨b, s, hget, -, hmem, hp⟩
  · cases made with
    | false =>
      refine ⟨c, -1, none, f, ?_, h, Or.inr ⟨rfl, rfl, Or.inl ⟨hp, rfl⟩⟩⟩
      simp [Client.create_session, hget]
    | true =>
      have hkey : (StunSession.new p role).remote_id = p := List.take_of_length_le hlen
      obtain ⟨m, hm, hrep⟩ := h.sessions.insert rb hp (StunSession.new p role)
      have hnew : (p, c.sessions.heap.length) ∈ m.entries := OwnedMap.mem_insert hm
      have hshows : ({ c with sessions := m } : Client).Shows my stun2
          (Function.update f p (some (.new p role))) := by
        refine ⟨h.my, h.stun2, hrep, ?_⟩
        intro q t hq
        by_cases hqp : q = p
        · subst hqp
          rw [Function.update_self, Option.some.injEq] at hq
          rwa [← hq]
        · rw [Function.update_of_ne hqp] at hq
          exact h.ids q t hq
      obtain ⟨c₁, hprobe, hshows₁, hentries⟩ :=
        hshows.probe_session_addr_some (Function.update_self p _ f) probed
      rw [Function.update_idem] at hshows₁
      cases probed with
      | true =>
        refine ⟨c₁, 1, some c.sessions.heap.length, _, ?_, hshows₁,
          Or.inl ⟨rfl, _, _, rfl, ?_, rfl, Or.inr ⟨hp, rfl⟩⟩⟩
        · simp [Client.create_session, hget, hkey, hm, hprobe]
        · rw [hentries]
          exact hnew
      | false =>
        obtain ⟨c₂, ret, hclose, hshows₂⟩ := hshows₁.close_session rb p
        rw [Function.update_idem] at hshows₂
        have hsame : Function.update f p none = f := by rw [← hp, Function.update_eq_self]
        refine ⟨c₂, -1, none, f, ?_, hsame ▸ hshows₂, Or.inr ⟨rfl, rfl, Or.inl ⟨hp, rfl⟩⟩⟩
        simp [Client.create_session, hget, hkey, hm, hprobe, hclose]
  · obtain ⟨c₁, hprobe, hshows, hentries⟩ := h.probe_session_addr_some hp probed
    cases probed with
    | true =>
      refine ⟨c₁, 1, some b, _, ?_, hshows, Or.inl ⟨rfl, b, s, rfl, ?_, rfl, Or.inl hp⟩⟩
      · simp [Client.create_session, hget, hprobe]
      · rw [hentries]
        exact hmem
    | false =>
      refine ⟨c₁, -1, none, _, ?_, hshows, Or.inr ⟨rfl, rfl, Or.inr ⟨s, hp, rfl⟩⟩⟩
      simp [Client.create_session, hget, hprobe]

theorem punch_session (h : c.Shows my stun2 f) (hp : f p = some s) (host : Text) (port : ℤ) :
    ∃ c', c.punch_session p host port = some c' ∧
      c'.Shows my stun2 (Function.update f p (some (s.punched host port))) := by
  rcases h.get_session_cases p with ⟨-, hnone⟩ | ⟨b, s', hget, -, hmem, hs⟩
  · rw [hp] at hnone
    cases hnone
  · obtain rfl : s = s' := Option.some.inj (hp.symm.trans hs)
    have hid : (s.punched host port).remote_id = p := h.ids p s hp
    obtain ⟨c', hstore, hshows, -⟩ := h.store hmem hid
    exact ⟨c', by simp [Client.punch_session, hget, hstore], hshows⟩

end Client.Shows

/-! ## The dialogue that a session has -/

structure Dialogue.Tracks (d : Dialogue) (s : StunSession) : Prop where
  answering : d.answering → s.role = .callee
  awaiting : d.awaiting = !s.probe.own_ready
  connected : d.connected → s.connected ∧ s.state = .connected
  usable : d.usable → s.active
  reachable : d.reachable → s.peer_host ≠ []

/-- Every session has the dialogue with its peer, and no other peer has one. -/
def Dialogues.Follows (a : Dialogues) (f : Text → Option StunSession) : Prop :=
  ∀ p, Option.Rel Dialogue.Tracks (a p) (f p)

/-- What is kept between two events. -/
def Client.Keeps (my : Text) (stun2 : Bool) (c : Client) (a : Dialogues) : Prop :=
  ∃ f, c.Shows my stun2 f ∧ a.Follows f

namespace Dialogues.Follows

variable {a : Dialogues} {f : Text → Option StunSession} {p : Text} {s s' : StunSession}

theorem absent (h : a.Follows f) (hp : f p = none) : a p = none := by
  have hrel := h p
  rw [hp] at hrel
  cases hap : a p with
  | none => rfl
  | some d =>
    rw [hap] at hrel
    cases hrel

theorem present (h : a.Follows f) (hp : f p = some s) :
    ∃ d, a p = some d ∧ d.Tracks s := by
  have hrel := h p
  rw [hp] at hrel
  cases hap : a p with
  | none =>
    rw [hap] at hrel
    cases hrel
  | some d =>
    rw [hap] at hrel
    cases hrel with
    | some htracks => exact ⟨d, rfl, htracks⟩

theorem update (h : a.Follows f) {d : Option Dialogue} {t : Option StunSession}
    (hrel : Option.Rel Dialogue.Tracks d t) :
    Dialogues.Follows (Function.update a p d) (Function.update f p t) := by
  intro q
  by_cases hqp : q = p
  · subst hqp
    rw [Function.update_self, Function.update_self]
    exact hrel
  · rw [Function.update_of_ne hqp, Function.update_of_ne hqp]
    exact h q

theorem change (h : a.Follows f) (hp : f p = some s) {g : Dialogue → Dialogue}
    (hg : ∀ d : Dialogue, d.Tracks s → (g d).Tracks s') :
    (a.change p g).Follows (Function.update f p (some s')) := by
  obtain ⟨d, hd, htracks⟩ := h.present hp
  rw [Dialogues.change, hd, Option.map_some]
  exact h.update (.some (hg d htracks))

theorem change_none (h : a.Follows f) (hp : f p = none) (g : Dialogue → Dialogue) :
    a.change p g = a := by
  rw [Dialogues.change, h.absent hp, Option.map_none, ← h.absent hp, Function.update_eq_self]

end Dialogues.Follows

/-! ## What is heard -/

/-- What `sscanf` guarantees of the fields. -/
def Heard.Sound : Heard → Prop
  | invite from_id sess => from_id.length ≤ 31 ∧ sess.sess_host ≠ []
  | accept _ sess => sess.sess_host ≠ []
  | _ => True

theorem sess_host_ne_nil {s : Text} {sess : P2p.Session} (h : scanSession s = some sess) :
    sess.sess_host ≠ [] := by
  simp only [scanSession, Option.bind_eq_bind, Option.bind_eq_some_iff, Option.pure_def,
    Option.some.injEq] at h
  obtain ⟨⟨host, rest⟩, hword, ⟨port, rest'⟩, -, rfl⟩ := h
  exact (scanWord_spec hword).1

theorem fields_sound {k : CliKeyword} {line : Text} {m : Heard} (h : k.fields line = some m) :
    m.Sound := by
  cases k with
  | SIGNIN_REPLY =>
    obtain rfl := Option.some.inj h
    trivial
  | INVITE =>
    simp only [CliKeyword.fields, Option.bind_eq_bind, Option.bind_eq_some_iff, Option.pure_def,
      Option.some.injEq] at h
    obtain ⟨⟨from_id, rest⟩, hword, sess, hsess, rfl⟩ := h
    exact ⟨(scanWord_spec hword).2, sess_host_ne_nil hsess⟩
  | INVITE_REPLY =>
    simp only [CliKeyword.fields, Option.bind_eq_bind, Option.bind_eq_some_iff,
      Option.pure_def] at h
    obtain ⟨⟨⟨callee, rcaller⟩, rest⟩, -, ⟨action, rest'⟩, -, h⟩ := h
    split at h
    · obtain ⟨sess, hsess, hm⟩ := Option.bind_eq_some_iff.mp h
      obtain rfl := Option.some.inj hm
      exact sess_host_ne_nil hsess
    · obtain rfl := Option.some.inj h
      trivial
  | CONNECTED =>
    simp only [CliKeyword.fields, Option.bind_eq_bind, Option.bind_eq_some_iff, Option.pure_def,
      Option.some.injEq] at h
    obtain ⟨-, -, rfl⟩ := h
    trivial

theorem heard_sound (buf : List UInt8) : (heard buf).Sound := by
  rw [heard]
  cases g_stun_cli_sig_table.find? _ with
  | none => trivial
  | some k =>
    cases hfields : k.fields (cString (buf.rdropWhile fun c ↦ c = 10 ∨ c = 13)) with
    | none => simp only [hfields, Option.getD_none, Heard.Sound]
    | some m =>
      simp only [hfields, Option.getD_some]
      exact fields_sound hfields

/-! ## One event -/

namespace Dialogue.Tracks

variable {d : Dialogue} {s : StunSession}

theorem probing (h : d.Tracks s) : d.probing.Tracks s.probing where
  answering := h.answering
  awaiting := rfl
  connected := h.connected
  usable := h.usable
  reachable := h.reachable

theorem linked (h : d.Tracks s) : d.linked.Tracks s.linked where
  answering := h.answering
  awaiting := h.awaiting
  connected _ := ⟨rfl, rfl⟩
  usable := h.usable
  reachable := h.reachable

theorem rejected (h : d.Tracks s) : d.rejected.Tracks s.rejected where
  answering := h.answering
  awaiting := h.awaiting
  connected := by simp [Dialogue.rejected]
  usable := by simp [Dialogue.rejected]
  reachable := h.reachable

theorem punched (h : d.Tracks s) {host : Text} (hhost : host ≠ []) (port nat : ℤ) :
    d.reached.Tracks ({ s with peer_nat_type := nat }.punched host port) where
  answering := h.answering
  awaiting := h.awaiting
  connected := h.connected
  usable := h.usable
  reachable _ := by simp [StunSession.punched, hhost]

theorem begun_create {a : Dialogues} {f : Text → Option StunSession} {p : Text}
    (h : a.Follows f) (hs : f p = some s ∧ s.active ∨ f p = none ∧ s = .new p .caller) :
    (Dialogue.begun false (a p)).Tracks s.probing := by
  rcases hs with ⟨hp, hactive⟩ | ⟨hp, rfl⟩
  · obtain ⟨d, hd, htracks⟩ := h.present hp
    rw [hd]
    exact ⟨by simp [Dialogue.begun], rfl, htracks.connected, fun _ ↦ hactive, htracks.reachable⟩
  · rw [h.absent hp]
    exact ⟨by simp [Dialogue.begun], rfl, by simp [Dialogue.begun], fun _ ↦ rfl,
      by simp [Dialogue.begun]⟩

theorem begun_answer {a : Dialogues} {f : Text → Option StunSession} {p : Text}
    (h : a.Follows f)
    (hs : f p = some s ∧ s.role = .callee ∧ s.active ∨ f p = none ∧ s = .new p .callee)
    {host : Text} (hhost : host ≠ []) (port nat : ℤ) :
    (Dialogue.begun true (a p)).Tracks
      ({ s.probing with peer_nat_type := nat }.punched host port) := by
  have hpeer : ({ s.probing with peer_nat_type := nat }.punched host port).peer_host ≠ [] := by
    simp [StunSession.punched, hhost]
  rcases hs with ⟨hp, hrole, hactive⟩ | ⟨hp, rfl⟩
  · obtain ⟨d, hd, htracks⟩ := h.present hp
    rw [hd]
    exact ⟨fun _ ↦ hrole, rfl, htracks.connected, fun _ ↦ hactive, fun _ ↦ hpeer⟩
  · rw [h.absent hp]
    exact ⟨fun _ ↦ rfl, rfl, by simp [Dialogue.begun], fun _ ↦ rfl, fun _ ↦ hpeer⟩

end Dialogue.Tracks

section Events

variable {c : Client} {my : Text} {stun2 : Bool} {a : Dialogues} {f : Text → Option StunSession}
  (rb : Rebalance (Text × ℕ))

theorem Dialogues.Follows.failed {f' : Text → Option StunSession} {p : Text} {answering : Bool}
    (h : a.Follows f)
    (hf : f p = none ∧ f' = f ∨ ∃ s, f p = some s ∧ f' = Function.update f p (some s.probing)) :
    (a.attempted p answering (-1)).Follows f' := by
  rw [Dialogues.attempted, if_neg (by decide)]
  rcases hf with ⟨hp, rfl⟩ | ⟨s, hp, rfl⟩
  · rwa [h.change_none hp]
  · exact h.change hp fun d hd ↦ hd.probing

theorem create_spec (hshows : c.Shows my stun2 f) (hfollows : a.Follows f) {p : Text}
    (hlen : p.length ≤ 31) (hactive : ∀ s ∈ c.session p, s.active) (res : Resources) :
    ∃ c' ret ns, c.create_session rb p .caller res = some (c', ret, ns) ∧
      c'.Keeps my stun2 (a.attempted p false ret) := by
  obtain ⟨c', ret, ns, f', hcreate, hshows', hret⟩ := hshows.create_session rb hlen .caller res
  refine ⟨c', ret, ns, hcreate, f', hshows', ?_⟩
  rcases hret with ⟨rfl, b, s, -, -, rfl, hs⟩ | ⟨rfl, -, hf⟩
  · rw [Dialogues.attempted, if_pos (by decide)]
    apply hfollows.update
    apply Option.Rel.some
    apply Dialogue.Tracks.begun_create hfollows
    rcases hs with hp | hnew
    · rw [hshows.session_eq, hp] at hactive
      exact Or.inl ⟨hp, hactive s rfl⟩
    · exact Or.inr hnew
  · exact hfollows.failed hf

theorem sig_request_session_spec (hshows : c.Shows my stun2 f) (hfollows : a.Follows f)
    {from_id : Text} {sess : P2p.Session} (hlen : from_id.length ≤ 31)
    (hhost : sess.sess_host ≠ [])
    (hfits : ∀ s ∈ c.session from_id, s.role = .callee ∧ s.active) (res : Resources) :
    ∃ c' ret sent, c.sig_request_session rb from_id sess res =
        some (c', ⟨0, sent, some ret, none⟩) ∧
      (sent = if 0 ≤ ret ∨ my = [] then []
        else [INVITE_REPLY_reject my from_id STUN_REJECT_NO_PORT]) ∧
      c'.Keeps my stun2 (a.attempted from_id true ret) := by
  obtain ⟨c', ret, ns, f', hcreate, hshows', hret⟩ := hshows.create_session rb hlen .callee res
  rcases hret with ⟨rfl, b, s, rfl, hmem, rfl, hs⟩ | ⟨rfl, rfl, hf⟩
  · obtain ⟨t, hload, ht⟩ := hshows'.sessions.value _ hmem
    rw [Function.update_self, Option.some.injEq] at ht
    subst ht
    have hid : s.probing.remote_id = from_id :=
      hshows'.ids from_id _ (Function.update_self from_id _ f)
    obtain ⟨c₁, hstore, hshows₁, -⟩ := hshows'.store (s := { s.probing with
      peer_nat_type := sess.sess_nat }) hmem hid
    rw [Function.update_idem] at hshows₁
    obtain ⟨c₂, hpunch, hshows₂⟩ :=
      hshows₁.punch_session (Function.update_self from_id _ f) sess.sess_host sess.sess_port
    rw [Function.update_idem] at hshows₂
    refine ⟨c₂, 1, [], ?_, by simp, _, hshows₂, ?_⟩
    · simp [Client.sig_request_session, hcreate, hload, hstore, hpunch]
    · rw [Dialogues.attempted, if_pos (by decide)]
      apply hfollows.update
      apply Option.Rel.some
      apply Dialogue.Tracks.begun_answer hfollows _ hhost
      rcases hs with hp | hnew
      · rw [hshows.session_eq, hp] at hfits
        exact Or.inl ⟨hp, hfits s rfl⟩
      · exact Or.inr hnew
  · refine ⟨c', -1, if my = [] then [] else
      [INVITE_REPLY_reject my from_id STUN_REJECT_NO_PORT], ?_, by simp, f', hshows',
      hfollows.failed hf⟩
    have hreply : c'.reply_session_request from_id STUN_REJECT_NO_PORT = some (if my = [] then []
        else [INVITE_REPLY_reject my from_id STUN_REJECT_NO_PORT]) := by
      rw [Client.reply_session_request, hshows'.my]
      split
      · rfl
      · rfl
    simp [Client.sig_request_session, hcreate, hreply]

theorem sig_reply_accept_spec (hshows : c.Shows my stun2 f) (hfollows : a.Follows f)
    (callee : Text) {sess : P2p.Session} (hhost : sess.sess_host ≠ []) :
    ∃ c', c.sig_reply_accept callee sess = some (c', .of 1 []) ∧
      c'.Keeps my stun2 (a.change callee .reached) := by
  rcases hshows.get_session_cases callee with ⟨hget, hp⟩ | ⟨b, s, hget, -, hmem, hp⟩
  · refine ⟨c, by simp [Client.sig_reply_accept, hget], f, hshows, ?_⟩
    rwa [hfollows.change_none hp]
  · have hid : s.remote_id = callee := hshows.ids callee s hp
    obtain ⟨c₁, hstore, hshows₁, -⟩ := hshows.store (s := { s with
      peer_nat_type := sess.sess_nat }) hmem hid
    obtain ⟨c₂, hpunch, hshows₂⟩ :=
      hshows₁.punch_session (Function.update_self callee _ f) sess.sess_host sess.sess_port
    rw [Function.update_idem] at hshows₂
    refine ⟨c₂, by simp [Client.sig_reply_accept, hget, hstore, hpunch], _, hshows₂, ?_⟩
    exact hfollows.change hp fun d hd ↦ hd.punched hhost sess.sess_port sess.sess_nat

theorem sig_reply_reject_spec (hshows : c.Shows my stun2 f) (hfollows : a.Follows f)
    (callee rcaller : Text) :
    ∃ c', c.sig_reply_reject callee rcaller = some (c', .of 1 []) ∧
      c'.Keeps my stun2 (if my ≠ [] ∧ rcaller ≠ my then a else a.change callee .rejected) := by
  by_cases hother : my ≠ [] ∧ rcaller ≠ my
  · refine ⟨c, by simp [Client.sig_reply_reject, hshows.my, hother], f, hshows, ?_⟩
    rwa [if_pos hother]
  · rw [if_neg hother]
    have hmine : ¬ (c.stun_id ≠ [] ∧ rcaller ≠ c.stun_id) := by rwa [hshows.my]
    rcases hshows.get_session_cases callee with ⟨hget, hp⟩ | ⟨b, s, hget, -, hmem, hp⟩
    · refine ⟨c, ?_, f, hshows, ?_⟩
      · simp only [Client.sig_reply_reject, if_neg hmine, hget, Option.bind_eq_bind,
          Option.bind_some]
        rfl
      · rwa [hfollows.change_none hp]
    · have hid : s.rejected.remote_id = callee := hshows.ids callee s hp
      obtain ⟨c', hstore, hshows', -⟩ := hshows.store hmem hid
      refine ⟨c', ?_, _, hshows', hfollows.change hp fun d hd ↦ hd.rejected⟩
      simp only [Client.sig_reply_reject, if_neg hmine, hget, hstore, Option.bind_eq_bind,
        Option.bind_some]
      rfl

theorem sig_connected_spec (hshows : c.Shows my stun2 f) (hfollows : a.Follows f) (peer : Text) :
    ∃ c', c.sig_connected peer = some (c', .of 0 []) ∧
      c'.Keeps my stun2 (a.change peer .linked) := by
  rcases hshows.get_session_cases peer with ⟨hget, hp⟩ | ⟨b, s, hget, -, hmem, hp⟩
  · refine ⟨c, by simp [Client.sig_connected, hget], f, hshows, ?_⟩
    rwa [hfollows.change_none hp]
  · have hid : s.linked.remote_id = peer := hshows.ids peer s hp
    obtain ⟨c', hstore, hshows', -⟩ := hshows.store hmem hid
    exact ⟨c', by simp [Client.sig_connected, hget, hstore], _, hshows',
      hfollows.change hp fun d hd ↦ hd.linked⟩

theorem handle_spec (hshows : c.Shows my stun2 f) (hfollows : a.Follows f) {m : Heard}
    (hsound : m.Sound) (hfits : c.FitsHeard m) (res : Resources) :
    ∃ c' ans, c.handle rb m res = some (c', ans) ∧
      HeardWell my (ans.created.getD (-1)) ans.sent m ∧
        c'.Keeps my stun2 (a.hear my (ans.created.getD (-1)) m) := by
  cases m with
  | signin_reply =>
    exact ⟨_, _, rfl, rfl, f, ⟨hshows.my, hshows.stun2, hshows.sessions, hshows.ids⟩, hfollows⟩
  | invite from_id sess =>
    obtain ⟨c', ret, sent, hsig, hsent, hkeeps⟩ :=
      sig_request_session_spec rb hshows hfollows hsound.1 hsound.2 hfits res
    exact ⟨c', _, hsig, hsent, hkeeps⟩
  | accept callee sess =>
    obtain ⟨c', hsig, hkeeps⟩ := sig_reply_accept_spec hshows hfollows callee hsound
    exact ⟨c', _, hsig, rfl, hkeeps⟩
  | reject callee rcaller =>
    obtain ⟨c', hsig, hkeeps⟩ := sig_reply_reject_spec hshows hfollows callee rcaller
    exact ⟨c', _, hsig, rfl, hkeeps⟩
  | connected peer =>
    obtain ⟨c', hsig, hkeeps⟩ := sig_connected_spec hshows hfollows peer
    exact ⟨c', _, hsig, rfl, hkeeps⟩
  | malformed => exact ⟨c, _, rfl, rfl, f, hshows, hfollows⟩
  | unknown => exact ⟨c, _, rfl, rfl, f, hshows, hfollows⟩

theorem Client.Shows.at_address (hshows : c.Shows my stun2 f) {b : ℕ} {s : StunSession}
    (hload : c.sessions.load b = some s) :
    (s.remote_id, b) ∈ c.sessions.entries ∧ f s.remote_id = some s := by
  obtain ⟨p, hmem⟩ := hshows.sessions.owned b s hload
  obtain ⟨t, ht, hp⟩ := hshows.sessions.value _ hmem
  obtain rfl : s = t := Option.some.inj (hload.symm.trans ht)
  have hid : s.remote_id = p := hshows.ids p s hp
  rw [hid]
  exact ⟨hmem, hp⟩

theorem Probe.got_cases (p : Probe) (stun2 : Bool) (host : Text) (port : ℤ) :
    (p.got stun2 host port).1.own_ready = true ∧
      (p.got stun2 host port).2 =
        if p.own_ready = false ∧ stun2 = true then .probe_nat2 else .announce := by
  rw [Probe.got]
  cases hready : p.own_ready <;> simp

theorem Client.Shows.announced (hshows : c.Shows my stun2 f) {p : Text} {s : StunSession}
    (hp : f p = some s) (hready : s.probe.own_ready = true) :
    c.request_session p = some (if my = [] then [] else [INVITE my p s.probe]) ∧
      c.reply_session_request p STUN_REJECT_NONE =
        some (if my = [] then [] else [INVITE_REPLY_accept my p s.probe]) := by
  have hid := hshows.ids p s hp
  rcases hshows.get_session_cases p with ⟨-, hnone⟩ | ⟨b, t, hget, -, -, ht⟩
  · rw [hp] at hnone
    cases hnone
  · obtain rfl : s = t := Option.some.inj (hp.symm.trans ht)
    refine ⟨?_, ?_⟩
    · rw [Client.request_session, hshows.my]
      split
      · rfl
      · simp [hget, hready, hid]
    · rw [Client.reply_session_request, hshows.my]
      split
      · rfl
      · simp [hget, hready, hid]

theorem owes_binding (hfollows : a.Follows f) {s : StunSession} (hp : f s.remote_id = some s)
    {b : ℕ} {addr : Text × ℤ} {sent : List Text} {up : Text → Bool}
    (h : s.role = .callee → if my = [] ∨ s.probe.own_ready = false ∧ stun2 = true then sent = []
      else ∃ q : Probe, sent = [INVITE_REPLY_accept my s.remote_id q]) :
    Owes my stun2 a (.binding b (some addr)) ⟨⟨0, sent, none, some s.remote_id⟩, up⟩ := by
  intro p hpeer d hd hans
  obtain rfl : s.remote_id = p := Option.some.inj hpeer
  obtain ⟨d', hd', htracks⟩ := hfollows.present hp
  obtain rfl : d = d' := Option.some.inj (hd.symm.trans hd')
  have hsent := h (htracks.answering hans)
  have hawaiting := htracks.awaiting
  simpa [hawaiting] using hsent

theorem on_binding_reply_spec (hshows : c.Shows my stun2 f) (hfollows : a.Follows f) (b : ℕ)
    (got : Option (Text × ℤ)) :
    ∃ c' ans, c.on_binding_reply b got = some (c', ans) ∧ ∀ up,
      Owes my stun2 a (.binding b got) ⟨ans, up⟩ ∧
        c'.Keeps my stun2 (a.next my (.binding b got) ⟨ans, up⟩) := by
  cases hload : c.sessions.load b with
  | none =>
    refine ⟨c, .of 0 [], by rw [Client.on_binding_reply, hload],
      fun up ↦ ⟨?_, f, hshows, hfollows⟩⟩
    intro p hp
    cases hp
  | some s =>
    obtain ⟨hmem, hp⟩ := hshows.at_address hload
    cases got with
    | none =>
      refine ⟨c, ⟨0, [], none, some s.remote_id⟩, by rw [Client.on_binding_reply, hload],
        fun up ↦ ⟨?_, f, hshows, hfollows⟩⟩
      intro p _ d _ _
      rw [if_pos (Or.inl rfl)]
    | some addr =>
      obtain ⟨host, port⟩ := addr
      obtain ⟨hready, hfollow⟩ := s.probe.got_cases stun2 host port
      rcases hgot : s.probe.got stun2 host port with ⟨probe, follow⟩
      rw [hgot] at hready hfollow
      have hready : probe.own_ready = true := hready
      have hid : (s.told probe).remote_id = s.remote_id := rfl
      obtain ⟨c', hstore, hshows', -⟩ := hshows.store hmem hid
      obtain ⟨hrequest, hreply⟩ :=
        hshows'.announced (Function.update_self s.remote_id _ f) hready
      have hprobe : (s.told probe).probe = probe := rfl
      rw [hprobe] at hrequest hreply
      have hkeeps : c'.Keeps my stun2 (a.change s.remote_id .told) := by
        refine ⟨_, hshows', hfollows.change hp fun d hd ↦ ?_⟩
        exact ⟨hd.answering, by simp [Dialogue.told, hprobe, hready], hd.connected,
          hd.usable, hd.reachable⟩
      -- the second reply is awaited, or the address is announced as the role demands
      by_cases hsecond : s.probe.own_ready = false ∧ stun2 = true
      · rw [if_pos hsecond] at hfollow
        refine ⟨c', ⟨0, [], none, some s.remote_id⟩, ?_,
          fun up ↦ ⟨owes_binding hfollows hp fun _ ↦ ?_, hkeeps⟩⟩
        · simp [Client.on_binding_reply, hload, hshows.stun2, hgot, hstore, hfollow]
        · rw [if_pos (Or.inr hsecond)]
      · rw [if_neg hsecond] at hfollow
        cases hrole : s.role with
        | caller =>
          refine ⟨c', ⟨0, if my = [] then [] else [INVITE my s.remote_id probe], none,
            some s.remote_id⟩, ?_, fun up ↦ ⟨owes_binding hfollows hp fun hcallee ↦ ?_, hkeeps⟩⟩
          · simp [Client.on_binding_reply, hload, hshows.stun2, hgot, hstore, hfollow, hrole,
              hrequest]
          · rw [hrole] at hcallee
            cases hcallee
        | callee =>
          refine ⟨c', ⟨0, if my = [] then [] else [INVITE_REPLY_accept my s.remote_id probe], none,
            some s.remote_id⟩, ?_, fun up ↦ ⟨owes_binding hfollows hp fun _ ↦ ?_, hkeeps⟩⟩
          · simp [Client.on_binding_reply, hload, hshows.stun2, hgot, hstore, hfollow, hrole,
              hreply]
          · by_cases hmy : my = []
            · simp [hmy]
            · have hnone : ¬ (my = [] ∨ s.probe.own_ready = false ∧ stun2 = true) :=
                not_or.mpr ⟨hmy, hsecond⟩
              rw [if_neg hmy, if_neg hnone]
              exact ⟨_, rfl⟩

theorem on_p2p_msg_spec (hshows : c.Shows my stun2 f) (hfollows : a.Follows f) (b : ℕ)
    (keepalive : Bool) (host service : Text) :
    ∃ c' ans, c.on_p2p_msg b keepalive host service = some (c', ans) ∧ ∀ up,
      c'.Keeps my stun2 (a.next my (.p2p b keepalive host service) ⟨ans, up⟩) := by
  cases hload : c.sessions.load b with
  | none =>
    exact ⟨c, .of 0 [], by rw [Client.on_p2p_msg, hload], fun up ↦ ⟨f, hshows, hfollows⟩⟩
  | some s =>
    obtain ⟨hmem, hp⟩ := hshows.at_address hload
    have hlearned : ∀ d : Dialogue, d.Tracks s →
        (if host = [] then d else d.reached).Tracks (s.learned host (atoi service)) := by
      intro d hd
      by_cases hhost : host = []
      · rw [if_pos hhost, StunSession.learned, if_pos hhost]
        exact ⟨hd.answering, hd.awaiting, hd.connected, hd.usable, hd.reachable⟩
      · rw [if_neg hhost, StunSession.learned, if_neg hhost]
        exact ⟨hd.answering, hd.awaiting, hd.connected, hd.usable, fun _ ↦ by simp [hhost]⟩
    -- the dialogues after the session has become `t`
    have hnext : ∀ (t : StunSession) (c' : Client),
        (∀ d : Dialogue, d.Tracks s → (if host = [] then d else d.reached).Tracks t) →
        c'.Shows my stun2 (Function.update f s.remote_id (some t)) →
        ∀ ret sent up, c'.Keeps my stun2 (a.next my (.p2p b keepalive host service)
          ⟨⟨ret, sent, none, some s.remote_id⟩, up⟩) := by
      intro t c' ht hshows' ret sent up
      refine ⟨_, hshows', ?_⟩
      by_cases hhost : host = []
      · simp only [hhost, if_true] at ht
        have hsame : a.change s.remote_id id = a := by
          rw [Dialogues.change, Option.map_id_fun, id, Function.update_eq_self]
        have hchange := hfollows.change hp (g := id) ht
        rw [hsame] at hchange
        simpa [Dialogues.next, hhost] using hchange
      · simp only [if_neg hhost] at ht
        simpa [Dialogues.next, hhost] using hfollows.change hp ht
    have hid : (s.learned host (atoi service)).remote_id = s.remote_id := by
      rw [StunSession.learned]
      split <;> rfl
    by_cases hpunch : keepalive = true ∧ (s.learned host (atoi service)).send_punch = true
    · have hid' : (s.learned host (atoi service)).reported.remote_id = s.remote_id := hid
      obtain ⟨c', hstore, hshows', -⟩ := hshows.store hmem hid'
      refine ⟨c', ⟨0, [PUNCHOK my s.remote_id], none, some s.remote_id⟩, ?_,
        hnext _ c' (fun d hd ↦ ?_) hshows' _ _⟩
      · simp [Client.on_p2p_msg, hload, hpunch.1, hpunch.2, hstore, hshows.my, hid]
      · have htracks := hlearned d hd
        exact ⟨htracks.answering, htracks.awaiting, htracks.connected, htracks.usable,
          htracks.reachable⟩
    · obtain ⟨c', hstore, hshows', -⟩ := hshows.store hmem hid
      refine ⟨c', ⟨0, [], none, some s.remote_id⟩, ?_, hnext _ c' hlearned hshows' _ _⟩
      simp [Client.on_p2p_msg, hload, hpunch, hstore, hid]

theorem send_session_data_spec (hshows : c.Shows my stun2 f) (hfollows : a.Follows f) (p : Text)
    (len : ℤ) (sent : Bool) :
    ∃ ret, c.send_session_data p len sent = some ret ∧
      ∀ d ∈ a p, d.usable → d.reachable → 0 ≤ len → len ≤ 1400 → sent → 0 ≤ ret := by
  by_cases hlen : len < 0 ∨ 1400 < len
  · refine ⟨-1, by simp [Client.send_session_data, hlen], ?_⟩
    intro d _ _ _ hlo hhi
    omega
  · rcases hshows.get_session_cases p with ⟨hget, hp⟩ | ⟨b, s, hget, -, hmem, hp⟩
    · refine ⟨-1, by simp [Client.send_session_data, hlen, hget], ?_⟩
      intro d hd
      rw [hfollows.absent hp] at hd
      cases hd
    · obtain ⟨d', hd', htracks⟩ := hfollows.present hp
      by_cases hrefused : s.active = false ∨ s.peer_host = []
      · refine ⟨-1, by simp [Client.send_session_data, hlen, hget, hrefused], ?_⟩
        intro d hd husable hreachable
        obtain rfl : d = d' := Option.some.inj (hd.symm.trans hd')
        rcases hrefused with hactive | hpeer
        · rw [htracks.usable husable] at hactive
          cases hactive
        · exact (htracks.reachable hreachable hpeer).elim
      · refine ⟨if sent then 1 else -1, ?_, ?_⟩
        · simp [Client.send_session_data, hlen, hget, hrefused]
        · intro d _ _ _ _ _ hsent
          rw [if_pos hsent]
          decide

theorem Client.Keeps.serve (h : c.Keeps my stun2 a) {e : ClientEvent} (hfits : c.Fits e) :
    ∃ c' ans, c.serve rb e = some (c', ans) ∧ ∀ up, Owes my stun2 a e ⟨ans, up⟩ ∧
      c'.Keeps my stun2 (a.next my e ⟨ans, up⟩) := by
  obtain ⟨f, hshows, hfollows⟩ := h
  cases e with
  | signal buf res =>
    obtain ⟨c', ans, hhandle, howes, hkeeps⟩ :=
      handle_spec rb hshows hfollows (heard_sound buf) hfits res
    exact ⟨c', ans, hhandle, fun up ↦ ⟨howes, hkeeps⟩⟩
  | binding b got => exact on_binding_reply_spec hshows hfollows b got
  | p2p b keepalive host service =>
    obtain ⟨c', ans, hmsg, hkeeps⟩ := on_p2p_msg_spec hshows hfollows b keepalive host service
    exact ⟨c', ans, hmsg, fun up ↦ ⟨trivial, hkeeps up⟩⟩
  | create p res =>
    obtain ⟨c', ret, ns, hcreate, hkeeps⟩ := create_spec rb hshows hfollows hfits.1 hfits.2 res
    refine ⟨c', ⟨ret, [], some ret, none⟩, ?_, fun up ↦ ⟨trivial, hkeeps⟩⟩
    simp [Client.serve, hcreate]
  | close p =>
    obtain ⟨c', ret, hclose, hshows'⟩ := hshows.close_session rb p
    refine ⟨c', .of ret [], ?_, fun up ↦ ⟨trivial, _, hshows', hfollows.update .none⟩⟩
    simp [Client.serve, hclose]
  | send p len sent =>
    obtain ⟨ret, hsend, howes⟩ := send_session_data_spec hshows hfollows p len sent
    refine ⟨c, .of ret [], ?_, fun up ↦ ⟨howes, f, hshows, hfollows⟩⟩
    simp [Client.serve, hsend]

theorem Client.Keeps.up (h : c.Keeps my stun2 a) {p : Text} {d : Dialogue} (hd : d ∈ a p)
    (hconnected : d.connected) : c.up p = true := by
  obtain ⟨f, hshows, hfollows⟩ := h
  cases hp : f p with
  | none =>
    rw [hfollows.absent hp] at hd
    cases hd
  | some s =>
    obtain ⟨d', hd', htracks⟩ := hfollows.present hp
    obtain rfl : d = d' := Option.some.inj (hd.symm.trans hd')
    obtain ⟨hs, hstate⟩ := htracks.connected hconnected
    simp [hshows.up_eq hp, hs, hstate]

end Events

/-! ## Runs -/

/-- A node that is connected and has no session. -/
def Client.new (my : Text) (stun2 : Bool) : Client := ⟨my, stun2, false, .empty⟩

/-- On every run in which invitations come to callees and sessions are created or used again while
they are in use, the node owes no peer anything: invitations are answered by replies to their
sender, links stay up, and sessions take data once the peer can be reached. -/
theorem refines_dialogues (rb : Rebalance (Text × ℕ)) {my : Text} {stun2 : Bool}
    {es : List ClientEvent}
    (hrun : Refine.Within (Client.call rb) (dialogues my stun2) Client.Fits (.new my stun2)
      (fun _ ↦ none) es) :
    Refine.Refines (Client.call rb) (dialogues my stun2) (.new my stun2) (fun _ ↦ none) es := by
  have hnew : (Client.new my stun2).Keeps my stun2 (fun _ ↦ none) := by
    refine ⟨fun _ ↦ none, ⟨rfl, rfl, OwnedMap.represents_empty, ?_⟩, fun _ ↦ .none⟩
    intro p s hp
    cases hp
  have hstep : ∀ (c : Client) (a : Dialogues) e, c.Keeps my stun2 a → c.Fits e →
      ∃ c' o, c.call rb e = some (c', o) ∧ (dialogues my stun2).ok a e o ∧
        c'.Keeps my stun2 ((dialogues my stun2).next a e o) := by
    intro c a e hkeeps hfits
    obtain ⟨c', ans, hserve, hans⟩ := hkeeps.serve rb hfits
    obtain ⟨howes, hkeeps'⟩ := hans c'.up
    refine ⟨c', ⟨ans, c'.up⟩, by rw [Client.call, hserve, Option.map_some], ⟨howes, ?_⟩, hkeeps'⟩
    intro p d hd hconnected
    exact hkeeps'.up hd hconnected
  exact (Refine.refines_of_simulation hstep hnew hrun).2

/-- One call that is set up, its invitation accepted and its link used. -/
theorem refines_dialogues_call :
    Refine.Refines (Client.call (.small _)) (dialogues (ascii "alice") false)
      (.new (ascii "alice") false) (fun _ ↦ none)
      [.create (ascii "bob") ⟨true, true⟩, .binding 0 (some (ascii "10.0.0.1", 5000)),
        .signal (ascii "INVITE_REPLY bob alice accept 10.0.0.2 7000 2\n") ⟨true, true⟩,
        .p2p 0 true (ascii "10.0.0.2") (ascii "7000"),
        .signal (ascii "CONNECTED bob\n") ⟨true, true⟩, .send (ascii "bob") 100 true,
        .signal (ascii "INVITE carol 10.0.0.3 7100 2\n") ⟨true, true⟩,
        .binding 1 (some (ascii "10.0.0.1", 5001))] :=
  refines_dialogues _ (by decide)

/-- What is sent for an invitation are replies to its sender. -/
def OnlyReplies (my : Text) (a : Dialogues) (e : ClientEvent) (o : Observation) : Prop :=
  match e with
  | .binding .. => ∀ p ∈ o.answer.peer, ∀ d ∈ a p, d.answering →
      ∀ line ∈ o.answer.sent, (replyHead my p).isPrefixOf line
  | _ => True

instance (my : Text) (a : Dialogues) (e : ClientEvent) (o : Observation) :
    Decidable (OnlyReplies my a e o) := by
  cases e <;> (unfold OnlyReplies; infer_instance)

theorem onlyReplies_of_owes {my : Text} {stun2 : Bool} {a : Dialogues} {e : ClientEvent}
    {o : Observation} (h : Owes my stun2 a e o) : OnlyReplies my a e o := by
  cases e with
  | binding b got =>
    intro p hp d hd hans line hline
    have howes := h p hp d hd hans
    split at howes
    · rw [howes] at hline
      cases hline
    · obtain ⟨q, hq⟩ := howes
      rw [hq, List.mem_singleton] at hline
      rw [hline, INVITE_REPLY_accept, List.append_assoc, List.isPrefixOf_iff_prefix]
      exact List.prefix_append _ _
  | signal | p2p | create | close | send => trivial

/-- An invitation of a peer that the node is inviting itself is answered by an invitation. -/
theorem not_refines_dialogues :
    ¬ Refine.Refines (Client.call (.small _)) (dialogues (ascii "alice") false)
      (.new (ascii "alice") false) (fun _ ↦ none)
      [.create (ascii "bob") ⟨true, true⟩,
        .signal (ascii "INVITE bob 10.0.0.2 7000 2\n") ⟨true, true⟩,
        .binding 0 (some (ascii "10.0.0.1", 5000))] := by
  intro h
  have hweak : ∀ a e o, (dialogues (ascii "alice") false).ok a e o →
      OnlyReplies (ascii "alice") a e o := fun _ _ _ hok ↦ onlyReplies_of_owes hok.1
  have hreplies := Refine.Refines.mono hweak h
  revert hreplies
  decide

end Libobject.Stun
