import Libobject.Vpn.Pool

/-!
# What control frames can do to an endpoint

An acknowledgement writes the endpoint's own address and the peer's address of its link, and the
release of a link later trusts the peer's address to find the slot to free. The handler does not
look at who opened the link.
-/

namespace Libobject.Vpn

open Scan

/-- The endpoint opened the link, sent its notification there and waits for the answer. -/
def Link.Waiting (l : Link) : Prop :=
  l.isDialer = true ∧ 0 < l.notifyRetries ∧ l.notifyAcked = false

instance (l : Link) : Decidable l.Waiting := inferInstanceAs (Decidable (_ ∧ _))

/-- No address has two live owners, and releasing a link leaves the slots of the others alone. -/
structure ControlSafe (c : Ctx) : Prop where
  distinct : ∀ i j a, held c i = some a → held c j = some a → i = j
  isolated : ∀ i j k a, i ≠ j → held c j = some a → c.addrUsed k = a →
    (linkRelease c i).addrUsed k = a

/-- A packet changes the endpoint's own address only if that waits for an answer on its link. -/
def OwnKept (c : Ctx) (e : Event) (c' : Ctx) : Prop :=
  ∀ s data, e = Event.recv s data → c'.myTunIp ≠ c.myTunIp →
    ∃ i, (c.links i).session = some s ∧ (c.links i).Waiting

/-- A packet is harmless to the other links: the address of the slot that a notification takes is
not yet in the table, and an acknowledgement is awaited or repeats the endpoint's own address, and
names for its link the address that this has, none, or one that is no slot's and no other
link's. -/
def ControlHarmless (c : Ctx) : Event → Prop
  | Event.recv s data =>
    (∀ g ∈ givenSlot c s data, ∀ k, c.addrUsed k ≠ g.net.slotAddr g.slot) ∧
      ∀ g ∈ acceptedAck c s data,
        (g.link.Waiting ∨ (ipv4Parse g.mine).getD 0 = c.myTunIp) ∧
          ∀ a ∈ ipv4Parse g.peer, a = g.link.peerTunIp ∨ a = 0 ∨
            (∀ n ∈ c.pool, ∀ k, n.slotAddr k ≠ a) ∧ ∀ j, j ≠ g.index → held c j ≠ some a
  | _ => True

instance (c : Ctx) : (e : Event) → Decidable (ControlHarmless c e)
  | Event.recv _ _ => inferInstanceAs (Decidable (_ ∧ _))
  | Event.dial _ | Event.tick _ | Event.release _ | Event.exchange _ _ | Event.openTun
  | Event.closeTun => inferInstanceAs (Decidable True)

theorem View.Sound.controlSafe {c : Ctx} (h : (view c).Sound) : ControlSafe c where
  distinct _ _ _ hi hj := h.excl.inj hi hj
  isolated := by
    intro i j k a hij hj hk
    by_cases hdead : (c.links i).session = none
    · rwa [linkRelease_dead hdead]
    · have hused : (linkRelease c i).addrUsed = ((view c).drop i).used :=
        congrArg View.used (view_linkRelease hdead)
      rw [hused]
      rcases used_drop (view c) i k with hsame | ⟨-, hi⟩
      · exact hsame.trans hk
      · have hi' : (view c).held i = some a := hi.trans (congrArg some hk)
        exact (hij (h.excl.inj hi' hj)).elim

theorem sound_step {c : Ctx} {e : Event} (h : (view c).Sound) (he : ControlHarmless c e) :
    (view (step c e)).Sound := by
  by_cases hrecv : ∃ s data, e = Event.recv s data
  · obtain ⟨s, data, rfl⟩ := hrecv
    obtain ⟨hgive, hack⟩ := he
    change (view (p2pRecv c s data).1).Sound
    rcases view_p2pRecv c s data with hv | ⟨n, i, k, hg, hv⟩ |
      ⟨l, i, mine, peer, hg, l', hs', hip', hv⟩
    · rwa [hv]
    · obtain ⟨-, hn, -, hk, -⟩ := givenSlot_spec hg
      rw [hv]
      exact h.give hn hk (hgive _ hg)
    · obtain ⟨-, hs, -, hheld, -⟩ := acceptedAck_spec hg
      obtain ⟨-, hpeer⟩ := hack _ hg
      rw [hv]
      apply h.learn
      cases hparse : ipv4Parse peer with
      | none =>
        left
        rw [hheld]
        exact tunIp_congr hs' (by rw [hip', hparse]; rfl)
      | some a =>
        rw [hparse] at hip'
        rcases hpeer a hparse with ha | rfl | ⟨hpool, hfree⟩
        · left
          rw [hheld]
          exact tunIp_congr hs' (hip'.trans ha)
        · exact .inr (.inl (tunIp_of_ip hip'))
        · by_cases ha0 : a = 0
          · exact .inr (.inl (tunIp_of_ip (hip'.trans ha0)))
          · refine .inr (.inr ⟨a, tunIp_eq_some.mpr ⟨by simp [hs', hs], ha0, hip'⟩, ?_, hfree⟩)
            rintro ⟨n, k, hn, ha⟩
            exact hpool n hn k ha.symm
  · exact view_step_of_drop (P := View.Sound) (fun v i hv ↦ hv.drop i) h
      (fun s data heq ↦ hrecv ⟨s, data, heq⟩)

theorem ownKept_step {c : Ctx} {e : Event} (he : ControlHarmless c e) :
    OwnKept c e (step c e) := by
  rintro s data rfl hne
  change (view (p2pRecv c s data).1).own ≠ (view c).own at hne
  rcases view_p2pRecv c s data with hv | ⟨n, i, k, -, hv⟩ | ⟨l, i, mine, peer, hg, l', -, -, hv⟩
  · exact (hne (by rw [hv])).elim
  · exact (hne (by rw [hv]; rfl)).elim
  · rcases (he.2 _ hg).1 with hwait | hown
    · obtain ⟨-, hs, -, -, hlink⟩ := acceptedAck_spec hg
      have hl := hlink hwait.1
      exact ⟨i, by rw [hl, hs], by rwa [hl]⟩
    · exact (hne (by rw [hv]; exact hown)).elim

/-- In a run of harmless packets no control frame changes the own address unless that waits for
it, no two live links ever own one address, and releasing one link frees no slot of another. -/
theorem controlSafe_run (cfg : Cfg) (es : List Event)
    (hrun : Run.Steps step (fun c e _ ↦ ControlHarmless c e) (start cfg) es) :
    ControlSafe (start cfg) ∧
      Run.Steps step (fun c e c' ↦ OwnKept c e c' ∧ ControlSafe c') (start cfg) es := by
  have hstart := sound_start cfg
  refine ⟨hstart.controlSafe, ?_⟩
  refine (Run.Steps.of_invariant (I := fun c ↦ (view c).Sound) hstart ?_ hrun).2
  intro c e hc he
  have hnext := sound_step hc he
  exact ⟨hnext, ownKept_step he, hnext.controlSafe⟩

/-- A caller notifies its callee and takes the address that the answer gives it. -/
theorem controlSafe_run_caller :
    let cfg : Cfg := ⟨some (ascii "hub"), [], [], []⟩
    let answer := ctrlFrame netNotifyAck (ascii "0 10.0.0.2/24 10.0.0.1/24")
    let es := [Event.dial 1, Event.exchange 0 [1], Event.recv 1 answer]
    (Run.final step (start cfg) es).myTunIp = 0x0A000002 ∧ ControlSafe (start cfg) ∧
      Run.Steps step (fun c e c' ↦ OwnKept c e c' ∧ ControlSafe c') (start cfg) es := by
  intro cfg answer es
  let c := Run.final step (start cfg) [Event.dial 1, Event.exchange 0 [1]]
  have hgive : givenSlot c 1 answer = none := rfl
  have hack : acceptedAck c 1 answer =
      some ⟨c.links 0, 0, ascii "10.0.0.2/24", ascii "10.0.0.1/24"⟩ := rfl
  have hpeer : ipv4Parse (ascii "10.0.0.1/24") = some 0x0A000001 := by decide
  have hrecv : ControlHarmless c (Event.recv 1 answer) := by
    refine ⟨by simp [hgive], ?_⟩
    simp only [hack, Option.mem_some_iff, forall_eq']
    refine ⟨.inl (by decide), ?_⟩
    simp only [hpeer, Option.mem_some_iff, forall_eq']
    exact .inr (.inr ⟨by decide, by decide⟩)
  exact ⟨by decide, controlSafe_run cfg es ⟨trivial, trivial, hrecv, trivial⟩⟩

/-- A peer that was called by nobody sends an acknowledgement that names the address of another
peer: both own it now. -/
theorem not_controlSafe_run_forged :
    ¬∀ (cfg : Cfg) (es : List Event), ControlSafe (start cfg) ∧
      Run.Steps step (fun c e c' ↦ OwnKept c e c' ∧ ControlSafe c') (start cfg) es := by
  intro h
  let cfg : Cfg := ⟨none, ascii "10.0.0.1/24", [], []⟩
  let forged := ctrlFrame netNotifyAck (ascii "0 10.9.9.9/24 10.0.0.2/24")
  obtain ⟨-, -, ⟨-, hsafe⟩, -⟩ := h cfg [Event.recv 1 (ctrlFrame netNotify []), Event.recv 2 forged]
  have hsame := hsafe.distinct 0 1 0x0A000002 (by decide) (by decide)
  cases hsame

end Libobject.Vpn
