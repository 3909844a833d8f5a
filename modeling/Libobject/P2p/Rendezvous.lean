import Libobject.Lib.Refine
import Libobject.P2p.Server

/-!
# The rendezvous of pairs

What the server is for: it keeps one record for each id and one call for each ordered pair of ids,
and a datagram acts on the call of the pair that it names. The server keeps the calls under texts
that two pairs may share, and tells the kind of a reply by a search through the whole datagram.
-/

namespace Libobject.P2p

open Scan

/-- The nodes by their ids and the calls by their pairs of caller and callee. -/
structure Rendezvous where
  nodes : Text → Option StunNode
  calls : Text × Text → Option ServerCall

namespace Rendezvous

def empty : Rendezvous := ⟨fun _ ↦ none, fun _ ↦ none⟩

def setNode (a : Rendezvous) (id : Text) (n : Option StunNode) : Rendezvous :=
  { a with nodes := Function.update a.nodes id n }

def setCall (a : Rendezvous) (p : Text × Text) (c : Option ServerCall) : Rendezvous :=
  { a with calls := Function.update a.calls p c }

/-- The call that a report of `p1` about `p2` belongs to, with the report in it. -/
def reported (a : Rendezvous) (p1 p2 : Text) : Option ServerCall :=
  match a.calls (p1, p2) with
  | some c => some { c with caller_ok := true }
  | none => (a.calls (p2, p1)).map fun c ↦ { c with callee_ok := true }

def connected (a : Rendezvous) (c : ServerCall) : List Sent :=
  c.reply (CONNECTED c.to_id) ::
    ((a.nodes c.to_id).map fun n ↦ n.reply (CONNECTED c.from_id)).toList

/-- What becomes of the records and what is answered. -/
def respond (a : Rendezvous) (t : Task) : Signal → Rendezvous × Answer
  | .signin id =>
    (a.setNode id (match a.nodes id with
      | none => if t.mem then some (t.node id) else none
      | some n => some (t.moved n)), ⟨0, [t.reply (SIGNIN_REPLY id)]⟩)
  | .signout id => (a.setNode id none, ⟨0, []⟩)
  | .invite from_id to_id sess =>
    match a.nodes to_id with
    | none => (a, ⟨1, [t.reply (INVITE_REPLY_reject to_id from_id STUN_REJECT_OFFLINE)]⟩)
    | some callee =>
      (if t.mem then a.setCall (from_id, to_id) (some (t.call from_id to_id sess)) else a,
        ⟨1, [callee.reply (INVITE from_id sess)]⟩)
  | .accept to_id from_id sess =>
    match a.calls (from_id, to_id) with
    | none => (a, ⟨1, []⟩)
    | some c => (a.setCall (from_id, to_id) (some (c.accepted sess)),
        ⟨1, [c.reply (INVITE_REPLY_accept to_id from_id sess)]⟩)
  | .reject to_id from_id reason =>
    match a.calls (from_id, to_id) with
    | none => (a, ⟨1, []⟩)
    | some c => (a.setCall (from_id, to_id) none,
        ⟨1, [c.reply (INVITE_REPLY_reject to_id from_id reason)]⟩)
  | .punchok p1 p2 =>
    match a.reported p1 p2 with
    | none => (a, ⟨1, []⟩)
    | some c =>
      if c.caller_ok && c.callee_ok then (a.setCall c.pair none, ⟨1, a.connected c⟩)
      else (a.setCall c.pair (some c), ⟨1, []⟩)
  | .malformed => (a, ⟨-1, []⟩)
  | .unknown => (a, ⟨1, []⟩)

end Rendezvous

namespace Rendezvous

variable {a : Rendezvous} {p : Text × Text}

theorem setCall_self (a : Rendezvous) (p : Text × Text) (c : Option ServerCall) :
    (a.setCall p c).calls p = c := by
  rw [setCall]
  exact Function.update_self p c a.calls

theorem setCall_of_ne {q : Text × Text} (h : p ≠ q) (c : Option ServerCall) :
    (a.setCall q c).calls p = a.calls p := by
  rw [setCall]
  exact Function.update_of_ne h c a.calls

end Rendezvous

/-! ## The server's records -/

/-- The calls under their texts are the calls of the pairs: a text leads to a call of its own key,
and to the call of a pair if that has the pair. -/
structure Keyed (g : Text → Option ServerCall) (calls : Text × Text → Option ServerCall) :
    Prop where
  key : ∀ k c, g k = some c → c.key = k ∧ call_key c.from_id c.to_id = k
  pair : ∀ p c, calls p = some c ↔ g (call_key p.1 p.2) = some c ∧ c.pair = p

/-- The records of the server are those of the rendezvous, each of them once, and no other block
is live. -/
def Shows (s : Server) (a : Rendezvous) : Prop :=
  s.stuns.Represents a.nodes ∧ ∃ g, s.pending.Represents g ∧ Keyed g a.calls

/-- No call of another pair stands under the key of this one. -/
def Server.Own (s : Server) (p : Text × Text) : Prop :=
  ∀ e ∈ s.pending.entries, ∀ c ∈ s.pending.load e.2, e.1 = call_key p.1 p.2 → c.pair = p

instance (s : Server) (p : Text × Text) : Decidable (s.Own p) :=
  inferInstanceAs (Decidable (∀ e ∈ s.pending.entries, ∀ c ∈ s.pending.load e.2, _ → _))

namespace Keyed

variable {g : Text → Option ServerCall} {calls : Text × Text → Option ServerCall}
  {p : Text × Text}

theorem lookup (h : Keyed g calls) (hown : ∀ c, g (call_key p.1 p.2) = some c → c.pair = p) :
    calls p = g (call_key p.1 p.2) := by
  ext c
  rw [h.pair]
  exact ⟨And.left, fun hc ↦ ⟨hc, hown c hc⟩⟩

theorem update (h : Keyed g calls) (hown : ∀ c, g (call_key p.1 p.2) = some c → c.pair = p)
    {o : Option ServerCall} (ho : ∀ c, o = some c → c.key = call_key p.1 p.2 ∧ c.pair = p) :
    Keyed (Function.update g (call_key p.1 p.2) o) (Function.update calls p o) where
  key k c hc := by
    by_cases hk : k = call_key p.1 p.2
    · subst hk
      rw [Function.update_self] at hc
      obtain ⟨hkey, hpair⟩ := ho c hc
      exact ⟨hkey, by rw [← hpair]; rfl⟩
    · rw [Function.update_of_ne hk] at hc
      exact h.key k c hc
  pair q c := by
    by_cases hq : q = p
    · subst hq
      rw [Function.update_self, Function.update_self]
      exact ⟨fun hc ↦ ⟨hc, (ho c hc).2⟩, And.left⟩
    · rw [Function.update_of_ne hq]
      by_cases hk : call_key q.1 q.2 = call_key p.1 p.2
      · rw [hk, Function.update_self, h.pair, hk]
        -- whatever stands under the shared key belongs to `p`
        constructor
        · rintro ⟨hc, hpair⟩
          exact (hq (hpair.symm.trans (hown c hc))).elim
        · rintro ⟨hc, hpair⟩
          exact (hq (hpair.symm.trans (ho c hc).2)).elim
      · rw [Function.update_of_ne hk]
        exact h.pair q c

end Keyed

namespace Server

variable {s : Server} {a : Rendezvous} {g : Text → Option ServerCall} {t : Task}
  {rb : Rebalance (Text × ℕ)} {p : Text × Text}

theorem Own.pair (h : s.Own p) (hrep : s.pending.Represents g) {c : ServerCall}
    (hc : g (call_key p.1 p.2) = some c) : c.pair = p := by
  obtain ⟨b, hb⟩ := hrep.entry _ c hc
  obtain ⟨d, hload, hd⟩ := hrep.value _ hb
  rw [hc, Option.some.injEq] at hd
  exact h _ hb c (by rw [Option.mem_def, hload, hd]) rfl

theorem findCall_cases (hrep : s.pending.Represents g) (k : Text) :
    (s.findCall k = some none ∧ g k = none) ∨
      ∃ b c, s.findCall k = some (some (b, c)) ∧ s.pending.search k = some (some b) ∧
        (k, b) ∈ s.pending.entries ∧ g k = some c := by
  rcases hrep.search k with ⟨hs, hk⟩ | ⟨b, c, hs, hmem, hload, hk⟩
  · exact Or.inl ⟨by simp [findCall, hs], hk⟩
  · exact Or.inr ⟨b, c, by simp [findCall, hs, hload], hs, hmem, hk⟩

theorem findNode_cases {f : Text → Option StunNode} (hrep : s.stuns.Represents f) (id : Text) :
    (s.findNode id = some none ∧ f id = none) ∨
      ∃ b n, s.findNode id = some (some (b, n)) ∧ s.stuns.search id = some (some b) ∧
        (id, b) ∈ s.stuns.entries ∧ f id = some n := by
  rcases hrep.search id with ⟨hs, hk⟩ | ⟨b, n, hs, hmem, hload, hk⟩
  · exact Or.inl ⟨by simp [findNode, hs], hk⟩
  · exact Or.inr ⟨b, n, by simp [findNode, hs, hload], hs, hmem, hk⟩

/-! ## One signal -/

theorem sig_signin_spec (h : Shows s a) (t : Task) (id : Text) :
    ∃ s', s.sig_signin rb t id = some (s', (a.respond t (.signin id)).2) ∧
      Shows s' (a.respond t (.signin id)).1 := by
  obtain ⟨hnodes, hcalls⟩ := h
  rcases findNode_cases hnodes id with ⟨hfind, hid⟩ | ⟨b, n, hfind, -, hmem, hid⟩
  · by_cases hmemory : t.mem = true
    · obtain ⟨m, hm, hrep⟩ := hnodes.insert rb hid (t.node id)
      refine ⟨⟨m, s.pending⟩, by simp [sig_signin, hfind, hmemory, hm, Rendezvous.respond], ?_,
        hcalls⟩
      simpa [Rendezvous.respond, Rendezvous.setNode, hid, hmemory] using hrep
    · refine ⟨s, by simp [sig_signin, hfind, hmemory, Rendezvous.respond], ?_, hcalls⟩
      have hsame : Function.update a.nodes id none = a.nodes := by
        rw [← hid, Function.update_eq_self]
      simpa [Rendezvous.respond, Rendezvous.setNode, hid, hmemory, hsame] using hnodes
  · obtain ⟨m, hm, hrep⟩ := hnodes.store hmem (t.moved n)
    refine ⟨⟨m, s.pending⟩, by simp [sig_signin, hfind, hm, Rendezvous.respond], ?_, hcalls⟩
    simpa [Rendezvous.respond, Rendezvous.setNode, hid] using hrep

theorem sig_signout_spec (h : Shows s a) (t : Task) (id : Text) :
    ∃ s', s.sig_signout rb id = some (s', (a.respond t (.signout id)).2) ∧
      Shows s' (a.respond t (.signout id)).1 := by
  obtain ⟨hnodes, hcalls⟩ := h
  rcases findNode_cases hnodes id with ⟨hfind, hid⟩ | ⟨b, n, hfind, hs, -, hid⟩
  · refine ⟨s, by simp [sig_signout, hfind, Rendezvous.respond], ?_, hcalls⟩
    have hsame : Function.update a.nodes id none = a.nodes := by
      rw [← hid, Function.update_eq_self]
    simpa [Rendezvous.respond, Rendezvous.setNode, hsame] using hnodes
  · obtain ⟨m, hm, hrep⟩ := hnodes.erase rb hs
    exact ⟨⟨m, s.pending⟩, by simp [sig_signout, hfind, hm, Rendezvous.respond], hrep, hcalls⟩

theorem place_spec (rb : Rebalance (Text × ℕ)) (h : Shows s a) {c : ServerCall}
    (hkey : c.key = call_key c.from_id c.to_id)
    (hown : s.Own c.pair) :
    ∃ s', s.place rb c = some s' ∧ Shows s' (a.setCall c.pair (some c)) := by
  obtain ⟨hnodes, g, hrep, hkeyed⟩ := h
  have hpair : call_key c.pair.1 c.pair.2 = c.key := hkey.symm
  have hupdate := hkeyed.update (fun d hd ↦ hown.pair hrep hd) (o := some c) (by
    intro d hd
    cases hd
    exact ⟨hkey, rfl⟩)
  rw [hpair] at hupdate
  rcases findCall_cases hrep c.key with ⟨hfind, hnone⟩ | ⟨b, d, hfind, hs, -, -⟩
  · obtain ⟨m, hm, hrep'⟩ := hrep.insert rb hnone c
    exact ⟨⟨s.stuns, m⟩, by simp [place, hfind, hm], hnodes, _, hrep', hupdate⟩
  · obtain ⟨m, hm, hrep'⟩ := hrep.erase rb hs
    obtain ⟨m', hm', hrep''⟩ := hrep'.insert rb (Function.update_self c.key none g) c
    rw [Function.update_idem] at hrep''
    exact ⟨⟨s.stuns, m'⟩, by simp [place, hfind, hm, hm'], hnodes, _, hrep'', hupdate⟩

theorem sig_invite_spec (h : Shows s a) {from_id to_id : Text} (sess : Session)
    (hown : (a.nodes to_id).isSome → t.mem = true → s.Own (from_id, to_id)) :
    ∃ s', s.sig_invite rb t from_id to_id sess =
        some (s', (a.respond t (.invite from_id to_id sess)).2) ∧
      Shows s' (a.respond t (.invite from_id to_id sess)).1 := by
  rcases findNode_cases h.1 to_id with ⟨hfind, hid⟩ | ⟨b, n, hfind, -, -, hid⟩
  · exact ⟨s, by simp [sig_invite, hfind, Rendezvous.respond, hid],
      by simpa [Rendezvous.respond, hid] using h⟩
  · by_cases hmemory : t.mem = true
    · obtain ⟨s', hs', hshows⟩ := place_spec rb (c := t.call from_id to_id sess) h rfl
        (hown (by simp [hid]) hmemory)
      refine ⟨s', by simp [sig_invite, hfind, hmemory, hs', Rendezvous.respond, hid], ?_⟩
      simpa [Rendezvous.respond, hid, hmemory, ServerCall.pair, Task.call] using hshows
    · exact ⟨s, by simp [sig_invite, hfind, hmemory, Rendezvous.respond, hid],
        by simpa [Rendezvous.respond, hid, hmemory] using h⟩

theorem sig_invite_reply_accept_spec (h : Shows s a) {to_id from_id : Text} (sess : Session)
    (hown : s.Own (from_id, to_id)) :
    ∃ s', s.sig_invite_reply_accept to_id from_id sess =
        some (s', (a.respond t (.accept to_id from_id sess)).2) ∧
      Shows s' (a.respond t (.accept to_id from_id sess)).1 := by
  obtain ⟨hnodes, g, hrep, hkeyed⟩ := h
  have hcall := hkeyed.lookup (p := (from_id, to_id)) fun c hc ↦ hown.pair hrep hc
  rcases findCall_cases hrep (call_key from_id to_id) with ⟨hfind, hnone⟩ | ⟨b, c, hfind, -, hmem,
    hc⟩
  · rw [hnone] at hcall
    exact ⟨s, by simp [sig_invite_reply_accept, hfind, Rendezvous.respond, hcall],
      by simpa [Rendezvous.respond, hcall] using ⟨hnodes, g, hrep, hkeyed⟩⟩
  · obtain ⟨m, hm, hrep'⟩ := hrep.store hmem (c.accepted sess)
    have hpair : c.pair = (from_id, to_id) := hown.pair hrep hc
    have hupdate := hkeyed.update (p := (from_id, to_id)) (fun d hd ↦ hown.pair hrep hd)
      (o := some (c.accepted sess)) (by
        intro d hd
        cases hd
        exact ⟨(hkeyed.key _ c hc).1, hpair⟩)
    rw [hc] at hcall
    refine ⟨⟨s.stuns, m⟩, by simp [sig_invite_reply_accept, hfind, hm, Rendezvous.respond, hcall],
      ?_⟩
    simpa [Rendezvous.respond, hcall, Rendezvous.setCall] using ⟨hnodes, _, hrep', hupdate⟩

theorem sig_invite_reply_reject_spec (h : Shows s a) {to_id from_id : Text} (reason : ℤ)
    (hown : s.Own (from_id, to_id)) :
    ∃ s', s.sig_invite_reply_reject rb to_id from_id reason =
        some (s', (a.respond t (.reject to_id from_id reason)).2) ∧
      Shows s' (a.respond t (.reject to_id from_id reason)).1 := by
  obtain ⟨hnodes, g, hrep, hkeyed⟩ := h
  have hcall := hkeyed.lookup (p := (from_id, to_id)) fun c hc ↦ hown.pair hrep hc
  rcases findCall_cases hrep (call_key from_id to_id) with ⟨hfind, hnone⟩ | ⟨b, c, hfind, hs, -, hc⟩
  · rw [hnone] at hcall
    exact ⟨s, by simp [sig_invite_reply_reject, hfind, Rendezvous.respond, hcall],
      by simpa [Rendezvous.respond, hcall] using ⟨hnodes, g, hrep, hkeyed⟩⟩
  · obtain ⟨m, hm, hrep'⟩ := hrep.erase rb hs
    have hupdate := hkeyed.update (p := (from_id, to_id)) (fun d hd ↦ hown.pair hrep hd)
      (o := none) (by simp)
    rw [hc] at hcall
    refine ⟨⟨s.stuns, m⟩, by simp [sig_invite_reply_reject, hfind, hm, Rendezvous.respond, hcall],
      ?_⟩
    simpa [Rendezvous.respond, hcall, Rendezvous.setCall] using ⟨hnodes, _, hrep', hupdate⟩

theorem report_spec (hrep : s.pending.Represents g) (hkeyed : Keyed g a.calls) {p1 p2 : Text}
    (hown : s.Own (p1, p2))
    (hback : call_key p1 p2 ∈ s.pending.entries.map Prod.fst ∨ s.Own (p2, p1)) :
    (s.report p1 p2 = some none ∧ a.reported p1 p2 = none) ∨
      ∃ b c d, s.report p1 p2 = some (some (b, c)) ∧ a.reported p1 p2 = some c ∧
        (c.key, b) ∈ s.pending.entries ∧ g c.key = some d ∧ d.key = c.key ∧ d.pair = c.pair := by
  have hcall := hkeyed.lookup (p := (p1, p2)) fun c hc ↦ hown.pair hrep hc
  rcases findCall_cases hrep (call_key p1 p2) with ⟨hfind, hnone⟩ | ⟨b, c, hfind, -, hmem, hc⟩
  · rw [hnone] at hcall
    have hown' : s.Own (p2, p1) := by
      refine hback.resolve_left fun hin ↦ ?_
      obtain ⟨e, he, hek⟩ := List.mem_map.mp hin
      obtain ⟨c, -, hc⟩ := hrep.value e he
      rw [hek, hnone] at hc
      cases hc
    have hcall' := hkeyed.lookup (p := (p2, p1)) fun c hc ↦ hown'.pair hrep hc
    rcases findCall_cases hrep (call_key p2 p1) with ⟨hfind', hnone'⟩ | ⟨b, c, hfind', -, hmem, hc⟩
    · rw [hnone'] at hcall'
      exact Or.inl ⟨by simp [report, hfind, hfind'], by simp [Rendezvous.reported, hcall, hcall']⟩
    · obtain ⟨hkey, -⟩ := hkeyed.key _ c hc
      rw [hc] at hcall'
      refine Or.inr ⟨b, { c with callee_ok := true }, c, by simp [report, hfind, hfind'],
        by simp [Rendezvous.reported, hcall, hcall'], ?_, ?_, rfl, rfl⟩
      · exact hkey.symm ▸ hmem
      · exact hkey.symm ▸ hc
  · obtain ⟨hkey, -⟩ := hkeyed.key _ c hc
    rw [hc] at hcall
    refine Or.inr ⟨b, { c with caller_ok := true }, c, by simp [report, hfind],
      by simp [Rendezvous.reported, hcall], ?_, ?_, rfl, rfl⟩
    · exact hkey.symm ▸ hmem
    · exact hkey.symm ▸ hc

theorem connect_spec (rb : Rebalance (Text × ℕ)) (hnodes : s.stuns.Represents a.nodes)
    (hrep : s.pending.Represents g) {b : ℕ} {c : ServerCall} (hmem : (c.key, b) ∈ s.pending.entries)
    (hc : g c.key = some c) :
    ∃ m, s.connect rb b c = some (⟨s.stuns, m⟩, ⟨1, a.connected c⟩) ∧
      m.Represents (Function.update g c.key none) := by
  have hs : s.pending.search c.key = some (some b) := by
    rcases hrep.search c.key with ⟨-, hnone⟩ | ⟨b', d, hs, hmem', -, -⟩
    · rw [hc] at hnone
      cases hnone
    · have heq := hrep.addr_eq hmem hmem' rfl
      cases heq
      exact hs
  obtain ⟨m, hm, hrep'⟩ := hrep.erase rb hs
  refine ⟨m, ?_, hrep'⟩
  rcases findNode_cases hnodes c.to_id with ⟨hfind, hid⟩ | ⟨i, n, hfind, -, -, hid⟩
  · simp [connect, hfind, hm, Rendezvous.connected, hid]
  · simp [connect, hfind, hm, Rendezvous.connected, hid]

theorem sig_punchok_spec (h : Shows s a) {p1 p2 : Text} (hown : s.Own (p1, p2))
    (hback : call_key p1 p2 ∈ s.pending.entries.map Prod.fst ∨ s.Own (p2, p1)) :
    ∃ s', s.sig_punchok rb p1 p2 = some (s', (a.respond t (.punchok p1 p2)).2) ∧
      Shows s' (a.respond t (.punchok p1 p2)).1 := by
  obtain ⟨hnodes, g, hrep, hkeyed⟩ := h
  rcases report_spec hrep hkeyed hown hback with ⟨hr, ha⟩ | ⟨b, c, d, hr, ha, hmem, hg, hdk, hdp⟩
  · exact ⟨s, by simp [sig_punchok, hr, Rendezvous.respond, ha],
      by simpa [Rendezvous.respond, ha] using ⟨hnodes, g, hrep, hkeyed⟩⟩
  · obtain ⟨m, hm, hrep'⟩ := hrep.store hmem c
    have hkey : call_key c.pair.1 c.pair.2 = c.key := by
      rw [← hdp]
      exact (hkeyed.key _ d hg).2
    have hupdate : ∀ o : Option ServerCall, (∀ e, o = some e → e = c) →
        Keyed (Function.update g c.key o) (Function.update a.calls c.pair o) := by
      intro o ho
      rw [← hkey]
      refine hkeyed.update (fun e he ↦ ?_) (fun e he ↦ ?_)
      · rw [hkey, hg, Option.some.injEq] at he
        rw [← he, hdp]
      · rw [ho e he]
        exact ⟨hkey.symm, rfl⟩
    by_cases hboth : (c.caller_ok && c.callee_ok) = true
    · have hmem' : (c.key, b) ∈ (⟨s.stuns, m⟩ : Server).pending.entries := by
        obtain ⟨b', hb'⟩ := hrep'.entry c.key c (Function.update_self _ _ _)
        rw [OwnedMap.store] at hm
        split at hm
        · cases hm
          exact hmem
        · cases hm
      obtain ⟨m', hm', hrep''⟩ := connect_spec (s := ⟨s.stuns, m⟩) (a := a) rb hnodes hrep' hmem'
        (Function.update_self _ _ _)
      rw [Function.update_idem] at hrep''
      refine ⟨⟨s.stuns, m'⟩, ?_, ?_⟩
      · simp only [sig_punchok, hr, Option.bind_eq_bind, Option.bind_some, hm, hboth, if_true, hm',
          Rendezvous.respond, ha]
      · simp only [Rendezvous.respond, ha, hboth, if_true]
        exact ⟨hnodes, _, hrep'', hupdate none (by simp)⟩
    · refine ⟨⟨s.stuns, m⟩, ?_, ?_⟩
      · simp only [sig_punchok, hr, Option.bind_eq_bind, Option.bind_some, hm, if_neg hboth,
          Rendezvous.respond, ha]
        rfl
      · simp only [Rendezvous.respond, ha, if_neg hboth]
        exact ⟨hnodes, _, hrep', hupdate (some c) (by simp [eq_comm])⟩

/-! ## Runs -/

/-- No call of another pair stands where the server looks for the call of the pair that the signal
names. -/
def Finds (s : Server) (t : Task) : Signal → Prop
  | .invite from_id to_id _ =>
    to_id ∈ s.stuns.entries.map Prod.fst → t.mem = true → s.Own (from_id, to_id)
  | .accept to_id from_id _ => s.Own (from_id, to_id)
  | .reject to_id from_id _ => s.Own (from_id, to_id)
  | .punchok p1 p2 =>
    s.Own (p1, p2) ∧ (call_key p1 p2 ∈ s.pending.entries.map Prod.fst ∨ s.Own (p2, p1))
  | _ => True

instance decidableFinds (s : Server) (t : Task) : (sig : Signal) → Decidable (s.Finds t sig)
  | .invite from_id to_id _ => inferInstanceAs (Decidable (_ → _ → s.Own (from_id, to_id)))
  | .accept to_id from_id _ => inferInstanceAs (Decidable (s.Own (from_id, to_id)))
  | .reject to_id from_id _ => inferInstanceAs (Decidable (s.Own (from_id, to_id)))
  | .punchok p1 p2 => inferInstanceAs (Decidable (s.Own (p1, p2) ∧ _))
  | .signin _ => inferInstanceAs (Decidable True)
  | .signout _ => inferInstanceAs (Decidable True)
  | .malformed => inferInstanceAs (Decidable True)
  | .unknown => inferInstanceAs (Decidable True)

theorem serve_spec (rb : Rebalance (Text × ℕ)) (h : Shows s a) {sig : Signal}
    (hfinds : s.Finds t sig) :
    ∃ s', s.serve rb t sig = some (s', (a.respond t sig).2) ∧ Shows s' (a.respond t sig).1 := by
  cases sig with
  | signin id => exact sig_signin_spec h t id
  | signout id => exact sig_signout_spec h t id
  | invite from_id to_id sess =>
    refine sig_invite_spec h sess fun hid ↦ hfinds ?_
    obtain ⟨n, hn⟩ := Option.isSome_iff_exists.mp hid
    obtain ⟨b, hb⟩ := h.1.entry to_id n hn
    exact List.mem_map.mpr ⟨_, hb, rfl⟩
  | accept to_id from_id sess => exact sig_invite_reply_accept_spec h sess hfinds
  | reject to_id from_id reason => exact sig_invite_reply_reject_spec h reason hfinds
  | punchok p1 p2 => exact sig_punchok_spec h hfinds.1 hfinds.2
  | malformed => exact ⟨s, rfl, h⟩
  | unknown => exact ⟨s, rfl, h⟩

/-- The datagram is read as what it says, and the call that is found is the pair's own. -/
def Apart (s : Server) (t : Task) : Prop :=
  signal hasAccept t.line = signal saysAccept t.line ∧ s.Finds t (signal saysAccept t.line)

instance (s : Server) (t : Task) : Decidable (s.Apart t) := inferInstanceAs (Decidable (_ ∧ _))

/-- What is seen of a call: the answer and the records behind it. -/
def call (rb : Rebalance (Text × ℕ)) (s : Server) (t : Task) :
    Option (Server × Answer × Server) :=
  (s.stun_server_callback rb t).map fun r ↦ (r.1, r.2, r.1)

end Server

namespace Rendezvous

def next (a : Rendezvous) (t : Task) : Rendezvous := (a.respond t (signal saysAccept t.line)).1

def Allowed (a : Rendezvous) (t : Task) (o : Answer × Server) : Prop :=
  o.1 = (a.respond t (signal saysAccept t.line)).2 ∧ Shows o.2 (a.next t)

def spec : Spec Rendezvous Task (Answer × Server) := ⟨Allowed, fun a t _ ↦ a.next t⟩

end Rendezvous

theorem shows_empty : Shows .empty .empty := by
  refine ⟨OwnedMap.represents_empty, fun _ ↦ none, OwnedMap.represents_empty, ?_, ?_⟩
  · simp
  · simp [Rendezvous.empty]

theorem Server.call_spec (rb : Rebalance (Text × ℕ)) {s : Server} {a : Rendezvous} {t : Task}
    (h : Shows s a) (hapart : s.Apart t) :
    ∃ s' o, s.call rb t = some (s', o) ∧ a.Allowed t o ∧ Shows s' (a.next t) := by
  obtain ⟨hread, hfinds⟩ := hapart
  obtain ⟨s', hserve, hshows⟩ := serve_spec rb h hfinds
  refine ⟨s', ((a.respond t (signal saysAccept t.line)).2, s'), ?_, ⟨rfl, hshows⟩, hshows⟩
  rw [call, stun_server_callback, hread, hserve]
  rfl

/-- A server that is never misled by a text serves every pair as if it had records of its own. -/
theorem refines_pairs (rb : Rebalance (Text × ℕ)) {ts : List Task}
    (h : Refine.Within (Server.call rb) Rendezvous.spec Server.Apart .empty .empty ts) :
    Refine.Refines (Server.call rb) Rendezvous.spec .empty .empty ts :=
  (Refine.refines_of_simulation (I := Shows)
    (fun _ _ _ hshows hapart ↦ Server.call_spec rb hshows hapart) shows_empty h).2

/-- Four datagrams of nodes whose ids have no bar, the last of which rejects a call. -/
def rejectedCall : List Task :=
  [⟨ascii "SIGNIN bob", ascii "10.0.0.2", ascii "5000", true⟩,
    ⟨ascii "INVITE alice bob 1.2.3.4 7000 2", ascii "10.0.0.1", ascii "5000", true⟩,
    ⟨ascii "PUNCHOK alice bob", ascii "10.0.0.1", ascii "5000", true⟩,
    ⟨ascii "INVITE_REPLY bob alice reject 1", ascii "10.0.0.2", ascii "5000", true⟩]

theorem refines_pairs_reject :
    Refine.Refines (Server.call (.small _)) Rendezvous.spec .empty .empty rejectedCall :=
  refines_pairs (.small _) (by decide +kernel)

namespace Rendezvous

/-- The records aside, each datagram is answered as it should be. -/
def answers : Spec Rendezvous Task (Answer × Server) :=
  ⟨fun a t o ↦ o.1 = (a.respond t (signal saysAccept t.line)).2, fun a t _ ↦ a.next t⟩

instance (a : Rendezvous) (t : Task) (o : Answer × Server) : Decidable (answers.ok a t o) :=
  inferInstanceAs (Decidable (_ = _))

theorem answers_of_spec {rb : Rebalance (Text × ℕ)} {s : Server} {a : Rendezvous} {ts : List Task}
    (h : Refine.Refines (Server.call rb) spec s a ts) :
    Refine.Refines (Server.call rb) answers s a ts := by
  have hok : ∀ a t o, spec.ok a t o → answers.ok a t o := fun _ _ _ hallowed ↦ hallowed.1
  exact Refine.Refines.mono hok h

end Rendezvous

/-- The reject of a pair that has no call takes away the call of `a|b` to `c`. -/
def sharedKey : List Task :=
  [⟨ascii "SIGNIN c", ascii "10.0.0.2", ascii "5000", true⟩,
    ⟨ascii "INVITE a|b c 1.2.3.4 7000 2", ascii "10.0.0.1", ascii "5000", true⟩,
    ⟨ascii "INVITE_REPLY b|c a reject 1", ascii "10.0.0.3", ascii "5000", true⟩]

/-- The reject of a call of the node `accept` is thrown away. -/
def keywordId : List Task :=
  [⟨ascii "SIGNIN bob", ascii "10.0.0.2", ascii "5000", true⟩,
    ⟨ascii "INVITE accept bob 1.2.3.4 7000 2", ascii "10.0.0.1", ascii "5000", true⟩,
    ⟨ascii "INVITE_REPLY bob accept reject 1", ascii "10.0.0.2", ascii "5000", true⟩]

theorem not_refines_pairs :
    ¬ Refine.Refines (Server.call (.small _)) Rendezvous.spec .empty .empty sharedKey ∧
      ¬ Refine.Refines (Server.call (.small _)) Rendezvous.spec .empty .empty keywordId := by
  refine ⟨fun h ↦ ?_, fun h ↦ ?_⟩
  · exact absurd (Rendezvous.answers_of_spec h) (by decide +kernel)
  · exact absurd (Rendezvous.answers_of_spec h) (by decide +kernel)

end Libobject.P2p
