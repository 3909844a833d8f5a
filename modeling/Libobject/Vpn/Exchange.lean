import Libobject.Lib.Run
import Libobject.Vpn.Text
import Libobject.Vpn.View

/-!
# Notifications and their answers between two ends

Both ends of a session, each with whatever else it does: other sessions, its timers, its device.
Frames of the session may be lost, repeated and reordered. A frame is kept with what its sender had
recorded when it was sent.
-/

namespace Libobject.Vpn

open Scan

namespace Exchange

/-- A frame on its way, the own address of its sender and the sender's link then. -/
structure Sent where
  frame : Frame
  own : BitVec 32
  link : Link

structure Pair where
  ends : Bool → Ctx
  sent : Bool → List Sent

/-- The link of a session, if there is one. -/
def linkOf (c : Ctx) (s : Session) : Link :=
  ((List.finRange maxLinks).find? fun i ↦ (c.links i).session = some s).elim Link.empty c.links

/-- Those frames that go over the session, with what is recorded for it. -/
def Sent.over (c : Ctx) (s : Session) (frames : List (Session × Frame)) : List Sent :=
  (frames.filter fun m ↦ m.1 = s).map fun m ↦ ⟨m.2, c.myTunIp, linkOf c s⟩

inductive Event
  | act (b : Bool) (e : Vpn.Event)
  | deliver (b : Bool) (k : ℕ)

/-- A control frame over the session that the other end did not send. -/
def Forged (s : Session) : Vpn.Event → Prop
  | .recv s' data => s' = s ∧ isCtrl data
  | _ => False

instance (s : Session) : (e : Vpn.Event) → Decidable (Forged s e)
  | .recv _ _ => inferInstanceAs (Decidable (_ ∧ _))
  | .dial _ | .tick _ | .release _ | .exchange _ _ | .openTun | .closeTun =>
    inferInstanceAs (Decidable False)

/-- What an end sends by itself. -/
def emitted (c : Ctx) : Vpn.Event → List (Session × Frame)
  | .exchange rounds conn => (exchangeAddr c rounds conn).2
  | _ => []

def Pair.step (session : Bool → Session) (p : Pair) : Event → Pair
  | .act b e =>
    if Forged (session b) e then p
    else
      let c := Vpn.step (p.ends b) e
      ⟨Function.update p.ends b c, Function.update p.sent (!b)
        (p.sent (!b) ++ Sent.over c (session b) (emitted (p.ends b) e))⟩
  | .deliver b k =>
    match (p.sent b)[k]? with
    | none => p
    | some m =>
      let (c, reply) := p2pRecv (p.ends b) (session b) m.frame
      ⟨Function.update p.ends b c, Function.update p.sent (!b)
        (p.sent (!b) ++ Sent.over c (session b) reply.toList)⟩

def Pair.start (cfg : Bool → Cfg) : Pair := ⟨fun b ↦ Vpn.start (cfg b), fun _ ↦ []⟩

/-! ## What an exchange should come to -/

/-- The fields of an acknowledgement. -/
def ackFields (given mine : BitVec 32) (len : ℕ) (net : Option Net) : Text :=
  48 :: 32 :: (showQuad given len ++ 32 :: (showQuad mine len ++
    net.elim [] fun n ↦ 32 :: netStr n))

/-- The answer to a notification fits in its buffer, and either the link has an address and the
network of the other end, or it has no address and the answer says so. -/
structure Answered (own peer : Option Net) (r : Sent) : Prop where
  fits : ∃ text, text.length < cidrMax ∧ r.frame = ctrlFrame netNotifyAck text ∧
    (r.link.peerTunIp ≠ 0 → ∃ len ≤ 32, text = ackFields r.link.peerTunIp r.own len own)
  net : r.link.peerTunIp ≠ 0 → r.link.peerNet = peer
  refused : r.link.peerTunIp = 0 → r.frame = ctrlFrame netNotifyAck (showNat Code.noAddr.toNat)

/-- An answer that is waited for leaves an end with the addresses and the network that its sender
had, or, if that had refused, with the addresses it had before. -/
structure Received (own peer : Option Net) (m : Sent) (c c' : Ctx) (i : Slot) : Prop where
  accepted : m.link.peerTunIp ≠ 0 → c'.myTunIp = m.link.peerTunIp ∧
    (c'.links i).peerTunIp = m.own ∧ (c'.links i).peerNet = peer ∧ m.link.peerNet = own
  refused : m.link.peerTunIp = 0 → c'.myTunIp = c.myTunIp ∧
    (c'.links i).peerTunIp = (c.links i).peerTunIp

/-- What the delivery of a frame to an end that has a link for it does. -/
def Exchanged (cfg : Bool → Cfg) (session : Bool → Session) (p : Pair) (e : Event) (p' : Pair) :
    Prop :=
  match e with
  | .act _ _ => True
  | .deliver b k => ∀ m, (p.sent b)[k]? = some m → ∀ c i,
      linkGet (p.ends b) (session b) false = some (c, i) →
        let own := netParse (cfg b).localNet
        let peer := netParse (cfg !b).localNet
        (m.frame.type = netNotify → ∃ r, p'.sent (!b) = p.sent (!b) ++ [r] ∧
          r.own = (p'.ends b).myTunIp ∧ r.link = (p'.ends b).links i ∧ Answered own peer r) ∧
        (m.frame.type = netNotifyAck → (c.links i).notifyAcked = false →
          Received own peer m c (p'.ends b) i)

/-! ## Texts -/

section Texts

variable {given mine : BitVec 32} {len : ℕ} {net : Option Net}

theorem length_ackFields (given mine : BitVec 32) (net : Option Net) (h : len ≤ 32) :
    (ackFields given mine len net).length < cidrMax := by
  have hgiven := length_showQuad given h
  have hmine := length_showQuad mine h
  have hnet : (net.elim [] fun n ↦ 32 :: netStr n).length ≤ 19 := by
    cases net with
    | none => exact Nat.zero_le _
    | some n => exact Nat.succ_le_succ (length_showQuad n.net n.le_32)
  simp only [ackFields, cidrMax, List.length_cons, List.length_append]
  omega

theorem zero_notMem_ackFields : 0 ∉ ackFields given mine len net := by
  have hquad (ip : BitVec 32) (l : ℕ) : 0 ∉ showQuad ip l := fun h ↦ (mem_showQuad h).2 rfl
  have hnet : 0 ∉ net.elim [] fun n ↦ 32 :: netStr n := by
    cases net with
    | none => exact List.not_mem_nil
    | some n =>
      rw [Option.elim_some, List.mem_cons, not_or]
      exact ⟨by decide, hquad _ _⟩
  simp only [ackFields, List.mem_cons, List.mem_append, not_or]
  exact ⟨by decide, by decide, hquad _ _, by decide, hquad _ _, hnet⟩

theorem ctrlFrame_spec (type : UInt8) {payload : Text} (hlen : payload.length < cidrMax)
    (hzero : 0 ∉ payload) :
    Frame.type (ctrlFrame type payload) = type ∧
      Frame.len (ctrlFrame type payload) = payload.length ∧
      Frame.payload (ctrlFrame type payload) = payload ∧
      (ctrlFrame type payload).length = ctrlHdrLen + payload.length ∧
      isCtrl (ctrlFrame type payload) = true := by
  have hsize : (UInt8.ofNat payload.length).toNat = payload.length := by
    rw [UInt8.toNat_ofNat']
    exact Nat.mod_eq_of_lt (Nat.lt_trans hlen (by decide))
  have hflen : Frame.len (ctrlFrame type payload) = payload.length :=
    (congrArg (· + 256 * 0) hsize).trans (Nat.add_zero _)
  have htotal : (ctrlFrame type payload).length = ctrlHdrLen + payload.length := by
    simp only [ctrlFrame, ctrlMagic, ctrlHdrLen, List.length_append, List.length_cons,
      List.length_nil]
  have hpayload : Frame.payload (ctrlFrame type payload) = payload := by
    rw [Frame.payload, hflen]
    change cString (payload.take payload.length) = payload
    rw [List.take_length]
    refine List.takeWhile_eq_self_iff.mpr fun c hc ↦ ?_
    exact decide_eq_true fun h ↦ hzero (h ▸ hc)
  refine ⟨rfl, hflen, hpayload, htotal, ?_⟩
  rw [isCtrl, htotal]
  simp only [Nat.le_add_right, decide_true, Bool.true_and]
  exact decide_eq_true rfl

theorem scanWords_fields (h : len ≤ 32) : scanWords [31, 31, 63] (32 :: (showQuad given len ++
    32 :: (showQuad mine len ++ net.elim [] fun n ↦ 32 :: netStr n))) =
      showQuad given len :: showQuad mine len :: net.elim [] fun n ↦ [netStr n] := by
  have hword (ip : BitVec 32) {l width : ℕ} (hl : l ≤ 32) (hwidth : 18 ≤ width) (rest : Text)
      (hrest : ∀ c ∈ rest.head?, isSpace c = true) :
      scanWord width (32 :: (showQuad ip l ++ rest)) = some (showQuad ip l, rest) :=
    scanWord_append (showQuad_ne_nil ip l) ((length_showQuad ip hl).trans hwidth)
      (fun c hc ↦ (mem_showQuad hc).1) hrest
  have hblank (rest : Text) : ∀ c ∈ (32 :: rest).head?, isSpace c = true := by
    rintro c ⟨⟩
    rfl
  cases net with
  | none =>
    have hnil : ∀ c ∈ ([] : Text).head?, isSpace c = true := fun c hc ↦ nomatch hc
    rw [scanWords, hword given h (by decide) _ (hblank _)]
    dsimp only [Option.elim_none]
    rw [scanWords, hword mine h (by decide) _ hnil]
    rfl
  | some n =>
    have hnet : scanWord 63 (32 :: (showQuad n.net n.prefixLen ++ [])) =
        some (showQuad n.net n.prefixLen, []) :=
      hword n.net n.le_32 (by decide) [] (fun c hc ↦ nomatch hc)
    rw [List.append_nil] at hnet
    rw [scanWords, hword given h (by decide) _ (hblank _)]
    dsimp only [Option.elim_some]
    rw [scanWords, hword mine h (by decide) _ (hblank _)]
    dsimp only
    rw [scanWords, netStr, hnet]
    rfl

theorem ackRead_fields (h : len ≤ 32) :
    ackRead (ctrlFrame netNotifyAck (ackFields given mine len net)) =
      Ack.granted (showQuad given len) (showQuad mine len) (net.elim [] netStr) := by
  obtain ⟨-, hlen, hpayload, htotal, -⟩ := ctrlFrame_spec netNotifyAck
    (length_ackFields given mine net h) zero_notMem_ackFields
  have hpass : ¬ (Frame.len (ctrlFrame netNotifyAck (ackFields given mine len net)) = 0 ∨
      cidrMax ≤ Frame.len (ctrlFrame netNotifyAck (ackFields given mine len net)) ∨
      (ctrlFrame netNotifyAck (ackFields given mine len net)).length <
        ctrlHdrLen + Frame.len (ctrlFrame netNotifyAck (ackFields given mine len net))) := by
    have hfits := length_ackFields given mine net h
    rw [htotal, hlen]
    rw [ackFields, List.length_cons] at hfits ⊢
    omega
  have hcode (rest : Text) : scanUnsigned (48 :: 32 :: rest) = some (0, 32 :: rest) :=
    scanUnsigned_showNat (n := 0) (by decide) (stops_cons rfl rest)
  rw [ackRead, if_neg hpass, hpayload, ackFields, hcode]
  dsimp only
  rw [if_neg (by decide), scanWords_fields h]
  cases net <;> rfl

theorem ackText_eq (c : Ctx) (l : Link) :
    ∃ len ≤ 32, ackText c l = ackFields l.peerTunIp c.myTunIp len (netParse c.cfg.localNet) := by
  have hlen : (c.pool.map Net.prefixLen).getD 0 ≤ 32 := by
    cases c.pool with
    | none => exact Nat.zero_le 32
    | some n => exact n.le_32
  have hquad (ip : BitVec 32) {k : ℕ} (hk : k ≤ 32) : snprintf 20 (showQuad ip k) = showQuad ip k :=
    snprintf_of_lt (Nat.lt_of_le_of_lt (length_showQuad ip hk) (by decide))
  have hfits := length_ackFields l.peerTunIp c.myTunIp (netParse c.cfg.localNet) hlen
  refine ⟨_, hlen, ?_⟩
  rw [ackText]
  dsimp only [ipv4Str, netStr]
  rw [hquad _ hlen, hquad _ hlen]
  cases hnet : netParse c.cfg.localNet with
  | none =>
    rw [hnet, ackFields, Option.elim_none, List.append_nil] at hfits
    rw [ackFields, Option.elim_none, List.append_nil]
    exact snprintf_of_lt hfits
  | some n =>
    rw [hnet, ackFields, Option.elim_some, netStr] at hfits
    dsimp only
    rw [hquad _ n.le_32, ackFields, Option.elim_some, netStr, ← snprintf_of_lt hfits]
    refine congrArg (snprintf cidrMax) ?_
    simp only [List.append_assoc, List.cons_append]
    rfl

end Texts

/-! ## What a link has heard -/

/-- The link has no network of its peer, or the one that is configured there. -/
def Heard (net : Option Net) (l : Link) : Prop :=
  l.peerNet = none ∧ l.peerNetText = [] ∨
    ∃ n, net = some n ∧ l.peerNet = some n ∧ l.peerNetText = netStr n

theorem linkSetPeerInfo_ipv4 {l : Link} {ip net : Text} {a : BitVec 32}
    (h : ipv4Parse ip = some a) :
    linkSetPeerInfo l ip net = linkSetPeerInfo { l with peerTunIp := a } [] net := by
  have hne : ip ≠ [] := by
    rintro rfl
    cases h
  rw [linkSetPeerInfo, linkSetPeerInfo, if_neg hne, if_pos rfl, h]

theorem Heard.setPeerInfo {net : Option Net} {l : Link} (h : Heard net l) :
    (linkSetPeerInfo l [] (net.elim [] netStr)).2 = Code.ok ∧
      (linkSetPeerInfo l [] (net.elim [] netStr)).1.peerNet = net ∧
      Heard net (linkSetPeerInfo l [] (net.elim [] netStr)).1 := by
  rw [linkSetPeerInfo, if_pos rfl]
  dsimp only
  cases net with
  | none =>
    have hnone : l.peerNet = none := by
      rcases h with ⟨hnone, -⟩ | ⟨n, hn, -⟩
      · exact hnone
      · cases hn
    rw [Option.elim_none, if_neg fun hne ↦ hne.2 rfl]
    exact ⟨rfl, hnone, h⟩
  | some n =>
    have hlt : (netStr n).length < cidrMax :=
      Nat.lt_of_le_of_lt (length_showQuad n.net n.le_32) (by decide)
    rw [Option.elim_some, if_pos ⟨rfl, showQuad_ne_nil _ _⟩, netParse_netStr]
    dsimp only
    by_cases hsame : l.peerNetText ≠ [] ∧ l.peerNetText = netStr n
    · have hnet : l.peerNet = some n := by
        rcases h with ⟨-, hnil⟩ | ⟨n', hn', hnet, -⟩
        · exact (hsame.1 hnil).elim
        · rwa [hn']
      rw [if_pos hsame]
      exact ⟨rfl, hnet, h⟩
    · rw [if_neg hsame]
      exact ⟨rfl, rfl, .inr ⟨n, rfl, rfl, snprintf_of_lt hlt⟩⟩

theorem notifyText_eq (cfg : Cfg) : notifyText cfg = (netParse cfg.localNet).elim [] netStr := by
  rw [notifyText]
  cases netParse cfg.localNet with
  | none => rfl
  | some n =>
    exact snprintf_of_lt (Nat.lt_of_le_of_lt (length_showQuad n.net n.le_32) (by decide))

theorem notifyText_spec (cfg : Cfg) :
    (notifyText cfg).length < cidrMax ∧ 0 ∉ notifyText cfg := by
  rw [notifyText_eq]
  cases netParse cfg.localNet with
  | none => exact ⟨by decide, List.not_mem_nil⟩
  | some n =>
    exact ⟨Nat.lt_of_le_of_lt (length_showQuad n.net n.le_32) (by decide),
      fun h ↦ (mem_showQuad h).2 rfl⟩

theorem Heard.notifyRead {cfg : Cfg} {l : Link} (h : Heard (netParse cfg.localNet) l) :
    (notifyRead l (ctrlFrame netNotify (notifyText cfg))).2 = Code.ok ∧
      (Vpn.notifyRead l (ctrlFrame netNotify (notifyText cfg))).1.peerNet =
        netParse cfg.localNet ∧
      Heard (netParse cfg.localNet)
        (Vpn.notifyRead l (ctrlFrame netNotify (notifyText cfg))).1 := by
  obtain ⟨hlt, hzero⟩ := notifyText_spec cfg
  obtain ⟨-, hlen, hpayload, htotal, -⟩ := ctrlFrame_spec netNotify hlt hzero
  have hset := h.setPeerInfo
  rw [← notifyText_eq] at hset
  have hpass : ¬ (cidrMax ≤ Frame.len (ctrlFrame netNotify (notifyText cfg)) ∨
      (ctrlFrame netNotify (notifyText cfg)).length <
        ctrlHdrLen + Frame.len (ctrlFrame netNotify (notifyText cfg))) := by
    rw [htotal, hlen]
    omega
  rw [Vpn.notifyRead, if_neg hpass, hlen, hpayload]
  by_cases hnil : notifyText cfg = []
  · rw [hnil] at hset ⊢
    exact hset
  · rw [if_neg fun hzero ↦ hnil (List.length_eq_zero_iff.mp hzero)]
    exact hset

/-! ## What leaves the links of a session as they are -/

/-- What a link knows of its session. -/
def told (l : Link) : Option Session × Option Net × Text := (l.session, l.peerNet, l.peerNetText)

/-- The links of the session `s` still know what they knew, or nothing at all. -/
structure Calm (s : Session) (c c' : Ctx) : Prop where
  cfg : c'.cfg = c.cfg
  links : ∀ i, (c'.links i).session = some s → told (c'.links i) = told (c.links i) ∨
    (c'.links i).peerNet = none ∧ (c'.links i).peerNetText = []

section Calm

variable {s : Session} {c c' c'' : Ctx}

theorem Calm.of_told (hcfg : c'.cfg = c.cfg) (h : ∀ i, told (c'.links i) = told (c.links i)) :
    Calm s c c' := ⟨hcfg, fun i _ ↦ .inl (h i)⟩

theorem Calm.refl (c : Ctx) : Calm s c c := .of_told rfl fun _ ↦ rfl

theorem Calm.trans (h : Calm s c c') (h' : Calm s c' c'') : Calm s c c'' := by
  refine ⟨h'.cfg.trans h.cfg, fun i hi ↦ ?_⟩
  rcases h'.links i hi with htold | hblank
  · have hsession : (c''.links i).session = (c'.links i).session := congrArg Prod.fst htold
    have hknown : ((c''.links i).peerNet, (c''.links i).peerNetText) =
        ((c'.links i).peerNet, (c'.links i).peerNetText) := congrArg Prod.snd htold
    obtain ⟨hnet, htext⟩ := Prod.mk.inj hknown
    rcases h.links i (hsession ▸ hi) with hfirst | hblank
    · exact .inl (htold.trans hfirst)
    · exact .inr ⟨hnet.trans hblank.1, htext.trans hblank.2⟩
  · exact .inr hblank

theorem Calm.of_slot {i : Slot} (hcfg : c'.cfg = c.cfg)
    (hlinks : ∀ j, j ≠ i → c'.links j = c.links j)
    (hi : (c'.links i).session = some s → told (c'.links i) = told (c.links i) ∨
      (c'.links i).peerNet = none ∧ (c'.links i).peerNetText = []) : Calm s c c' := by
  refine ⟨hcfg, fun j hj ↦ ?_⟩
  rcases eq_or_ne j i with rfl | hne
  · exact hi hj
  · exact .inl (congrArg told (hlinks j hne))

theorem setLink_of_ne {i j : Slot} (h : j ≠ i) (l : Link) : (c.setLink i l).links j = c.links j :=
  Function.update_of_ne h _ _

theorem Calm.setLink {i : Slot} {l : Link}
    (hi : l.session = some s → told l = told (c.links i) ∨ l.peerNet = none ∧ l.peerNetText = []) :
    Calm s c (c.setLink i l) := by
  refine .of_slot rfl (fun j hj ↦ setLink_of_ne hj l) ?_
  rw [setLink_links]
  exact hi

theorem Calm.linkGet {s' : Session} {b : Bool} {i : Slot} (h : linkGet c s' b = some (c', i)) :
    Calm s c c' := by
  rw [Vpn.linkGet] at h
  split at h
  · cases h
    exact .refl c
  · split at h
    · cases h
      exact .of_slot rfl (fun j hj ↦ setLink_of_ne hj _)
        fun _ ↦ .inr (by rw [setLink_links]; exact ⟨rfl, rfl⟩)
    · cases h

theorem Calm.linkRelease (c : Ctx) (i : Slot) : Calm s c (linkRelease c i) := by
  have hfree (ip : BitVec 32) : (poolFree c ip).cfg = c.cfg ∧ (poolFree c ip).links = c.links := by
    rw [poolFree]
    split
    · exact ⟨rfl, rfl⟩
    · split <;> exact ⟨rfl, rfl⟩
  rw [Vpn.linkRelease]
  split
  · exact .refl c
  · obtain ⟨hcfg, hlinks⟩ := hfree (c.links i).peerTunIp
    refine .of_slot hcfg (fun j hj ↦ (setLink_of_ne hj _).trans (congrFun hlinks j)) fun hsession ↦
      ?_
    change ((Ctx.setLink _ i Link.empty).links i).session = some s at hsession
    rw [setLink_links] at hsession
    cases hsession

theorem Calm.releaseDeadLink (conn : List Session) (c : Ctx) (i : Slot) :
    Calm s c (releaseDeadLink conn c i) := by
  rw [Vpn.releaseDeadLink]
  dsimp only
  split
  · exact .refl c
  · split
    · exact .refl c
    · split
      · exact .setLink fun _ ↦ .inl rfl
      · have hbad : Calm s c
            (c.setLink i { c.links i with badRounds := (c.links i).badRounds + 1 }) :=
          .setLink fun _ ↦ .inl rfl
        split
        · exact hbad.trans (.linkRelease _ i)
        · exact hbad

theorem Calm.installLinkRoutes (c : Ctx) : Calm s c (installLinkRoutes c) := by
  have hroute (l : Link) : told l.installRoute = told l := by
    rw [Link.installRoute]
    split <;> rfl
  rw [Vpn.installLinkRoutes]
  split
  · exact .of_told rfl fun i ↦ hroute _
  · exact .refl c

theorem Calm.timer (c : Ctx) (conn : List Session) : Calm s c (timer c conn) := by
  have hsweep : ∀ (is : List Slot) (c : Ctx), Calm s c (is.foldl (Vpn.releaseDeadLink conn) c) := by
    intro is
    induction is with
    | nil => exact fun c ↦ .refl c
    | cons i is ih => exact fun c ↦ (Calm.releaseDeadLink conn c i).trans (ih _)
  rw [Vpn.timer]
  split
  · exact (hsweep _ c).trans (.installLinkRoutes _)
  · exact .refl c

theorem Calm.exchangeAddr (c : Ctx) (rounds : ℕ) (conn : List Session) :
    Calm s c (exchangeAddr c rounds conn).1 := by
  rw [Vpn.exchangeAddr]
  split
  · exact .refl c
  · refine .of_told rfl fun i ↦ ?_
    dsimp only
    split <;> rfl

theorem Calm.openTun (c : Ctx) : Calm s c (openTun c) := by
  rw [Vpn.openTun]
  have htun : Calm s c { c with tun := true } := .of_told rfl fun _ ↦ rfl
  repeat' split
  all_goals first | exact .refl c | exact htun.trans (.installLinkRoutes _)

theorem assignAddr_spec (c : Ctx) (i : Slot) (code : Code) :
    (assignAddr c i code).cfg = c.cfg ∧ (assignAddr c i code).myTunIp = c.myTunIp ∧
      (∀ j, j ≠ i → (assignAddr c i code).links j = c.links j) ∧
      told ((assignAddr c i code).links i) = told (c.links i) := by
  rw [assignAddr]
  split
  · rcases poolAlloc_spec c with halloc | ⟨n, k, -, -, halloc⟩
    all_goals
      rw [halloc]
      refine ⟨rfl, rfl, fun j hj ↦ setLink_of_ne hj _, ?_⟩
      rw [setLink_links]
      rfl
  · exact ⟨rfl, rfl, fun _ _ ↦ rfl, rfl⟩

theorem handleCtrl_spec (c : Ctx) (i : Slot) (f : Frame) :
    (handleCtrl c i f).1.cfg = c.cfg ∧
      (∀ j, j ≠ i → (handleCtrl c i f).1.links j = c.links j) ∧
      ((handleCtrl c i f).1.links i).session = (c.links i).session := by
  rw [handleCtrl]
  split_ifs
  · exact ⟨rfl, fun _ _ ↦ rfl, rfl⟩
  · obtain ⟨hcfg, -, hlinks, htold⟩ := assignAddr_spec
      (c.setLink i (Vpn.notifyRead (c.links i) f).1) i (Vpn.notifyRead (c.links i) f).2
    rw [handleNotify]
    dsimp only
    rw [replyNotify_fst]
    refine ⟨hcfg, fun j hj ↦ (hlinks j hj).trans (setLink_of_ne hj _), ?_⟩
    rw [setLink_links] at htold
    exact (congrArg Prod.fst htold).trans (notifyRead_spec _ f).1
  · rw [onNotifyAck]
    dsimp only
    split
    · exact ⟨rfl, fun _ _ ↦ rfl, rfl⟩
    · split
      · exact ⟨rfl, fun _ _ ↦ rfl, rfl⟩
      · exact ⟨rfl, fun j hj ↦ setLink_of_ne hj _, by rw [setLink_links]⟩
      · exact ⟨rfl, fun _ _ ↦ rfl, rfl⟩
      · refine ⟨rfl, fun j hj ↦ setLink_of_ne hj _, ?_⟩
        change ((c.setLink i _).links i).session = _
        rw [setLink_links, linkSetPeerInfo_session]
  · exact ⟨rfl, fun _ _ ↦ rfl, rfl⟩

theorem Calm.p2pRecv {s' : Session} {data : List UInt8} (h : ¬ (s' = s ∧ isCtrl data)) (c : Ctx) :
    Calm s c (p2pRecv c s' data).1 := by
  rw [Vpn.p2pRecv]
  split
  · exact .refl c
  · split
    · exact .refl c
    · rename_i c₁ i hget
      have hopen : Calm s c c₁ := .linkGet hget
      split
      · rename_i hctrl
        obtain ⟨-, hsession, -⟩ := linkGet_spec hget
        obtain ⟨hcfg, hlinks, hsame⟩ := handleCtrl_spec c₁ i data
        refine hopen.trans (.of_slot hcfg hlinks fun hi ↦ ?_)
        rw [hsame, hsession] at hi
        exact (h ⟨Option.some.inj hi, hctrl⟩).elim
      · exact hopen

theorem Calm.step {e : Vpn.Event} (h : ¬ Forged s e) (c : Ctx) : Calm s c (Vpn.step c e) := by
  cases e with
  | dial s' =>
    rw [Vpn.step]
    split
    · split
      · exact .refl c
      · rename_i hget
        exact .linkGet hget
    · exact .refl c
  | recv s' data => exact .p2pRecv h c
  | tick conn => exact .timer c conn
  | release i => exact .linkRelease c i
  | exchange rounds conn => exact .exchangeAddr c rounds conn
  | openTun => exact .openTun c
  | closeTun => exact .of_told rfl fun _ ↦ rfl

theorem Calm.heard (h : Calm s c c') {net : Option Net}
    (hc : ∀ i, (c.links i).session = some s → Heard net (c.links i)) (i : Slot)
    (hi : (c'.links i).session = some s) : Heard net (c'.links i) := by
  rcases h.links i hi with htold | hblank
  · have hsession : (c'.links i).session = (c.links i).session := congrArg Prod.fst htold
    have hknown : ((c'.links i).peerNet, (c'.links i).peerNetText) =
        ((c.links i).peerNet, (c.links i).peerNetText) := congrArg Prod.snd htold
    obtain ⟨hnet, htext⟩ := Prod.mk.inj hknown
    have hheard := hc i (hsession ▸ hi)
    rwa [Heard, ← hnet, ← htext] at hheard
  · exact .inl hblank

end Calm

/-! ## Deliveries -/

theorem find_linkGet {c c₁ : Ctx} {s : Session} {b : Bool} {i : Slot}
    (h : linkGet c s b = some (c₁, i)) :
    (List.finRange maxLinks).find? (fun j ↦ (c₁.links j).session = some s) = some i := by
  rw [linkGet] at h
  split at h
  · rename_i hfind
    cases h
    exact hfind
  · rename_i hnone
    split at h
    · cases h
      have hold (j : Slot) : (c.links j).session ≠ some s := by
        simpa using List.find?_eq_none.mp hnone j (List.mem_finRange j)
      have hopen : (((c.setLink i (Link.open s b)).links i).session = some s) := by
        rw [setLink_links]
        rfl
      change (List.finRange maxLinks).find?
        (fun j ↦ ((c.setLink i (Link.open s b)).links j).session = some s) = some i
      cases hfind : (List.finRange maxLinks).find?
          (fun j ↦ ((c.setLink i (Link.open s b)).links j).session = some s) with
      | none =>
        have hno := List.find?_eq_none.mp hfind i (List.mem_finRange i)
        exact (hno (decide_eq_true hopen)).elim
      | some k =>
        have hk : ((c.setLink i (Link.open s b)).links k).session = some s := by
          simpa using List.find?_some hfind
        by_contra hne
        have hki : k ≠ i := fun heq ↦ hne (congrArg some heq)
        rw [setLink_of_ne hki] at hk
        exact hold k hk
    · cases h

theorem linkOf_eq {c c₁ c' : Ctx} {s : Session} {b : Bool} {i : Slot}
    (h : linkGet c s b = some (c₁, i))
    (hsession : ∀ j, (c'.links j).session = (c₁.links j).session) : linkOf c' s = c'.links i := by
  have hfind := find_linkGet h
  simp only [← hsession] at hfind
  rw [linkOf, hfind, Option.elim_some]

theorem p2pRecv_ctrlFrame {c c₁ : Ctx} {s : Session} {i : Slot}
    (h : linkGet c s false = some (c₁, i)) (type : UInt8) {payload : Text}
    (hlen : payload.length < cidrMax) (hzero : 0 ∉ payload) :
    p2pRecv c s (ctrlFrame type payload) = handleCtrl c₁ i (ctrlFrame type payload) := by
  obtain ⟨-, -, -, -, hctrl⟩ := ctrlFrame_spec type hlen hzero
  have hne : ctrlFrame type payload ≠ [] := List.cons_ne_nil _ _
  rw [p2pRecv, if_neg hne, h]
  exact if_pos hctrl

section Answer

variable {c : Ctx} {i : Slot} {s : Session}

theorem replyNotify_ok (hsession : (c.links i).session = some s) :
    ∃ c' text, replyNotify c i Code.ok = (c', some (s, ctrlFrame netNotifyAck text)) ∧
      c' = assignAddr c i Code.ok ∧ text.length < cidrMax ∧
      ((c'.links i).peerTunIp = 0 → text = showNat Code.noAddr.toNat) ∧
      ((c'.links i).peerTunIp ≠ 0 → text = ackText c' (c'.links i)) := by
  obtain ⟨-, -, -, htold⟩ := assignAddr_spec c i Code.ok
  have hsession' : ((assignAddr c i Code.ok).links i).session = some s :=
    (congrArg Prod.fst htold).trans hsession
  generalize hc' : assignAddr c i Code.ok = c' at hsession'
  have hsend {text : Text} (hlt : text.length < cidrMax) :
      sendCtrl (c'.links i) netNotifyAck text = some (s, ctrlFrame netNotifyAck text) := by
    rw [sendCtrl, hsession']
    exact if_neg (Nat.not_le.mpr hlt)
  by_cases hip : (c'.links i).peerTunIp = 0
  · refine ⟨c', showNat Code.noAddr.toNat, ?_, rfl, by decide, fun _ ↦ rfl,
      fun h ↦ (h hip).elim⟩
    have hcode : (if Code.ok = Code.ok ∧ (c'.links i).peerTunIp = 0 then Code.noAddr
        else Code.ok) = Code.noAddr := if_pos ⟨rfl, hip⟩
    rw [replyNotify, hc', hcode, if_neg (by decide)]
    exact congrArg (Prod.mk c') (hsend (by decide))
  · obtain ⟨len, hlen, htext⟩ := ackText_eq c' (c'.links i)
    have hfits : (ackText c' (c'.links i)).length < cidrMax := by
      rw [htext]
      exact length_ackFields _ _ _ hlen
    refine ⟨c', ackText c' (c'.links i), ?_, rfl, hfits, fun h ↦ (hip h).elim, fun _ ↦ rfl⟩
    have hcode : (if Code.ok = Code.ok ∧ (c'.links i).peerTunIp = 0 then Code.noAddr
        else Code.ok) = Code.ok := if_neg fun h ↦ hip h.2
    rw [replyNotify, hc', hcode, if_pos rfl]
    exact congrArg (Prod.mk c') (hsend hfits)

theorem handleCtrl_notify {cfg : Cfg} (hsession : (c.links i).session = some s)
    (hheard : Heard (netParse cfg.localNet) (c.links i)) :
    ∃ c' text, handleCtrl c i (ctrlFrame netNotify (notifyText cfg)) =
        (c', some (s, ctrlFrame netNotifyAck text)) ∧
      text.length < cidrMax ∧ (c'.links i).peerNet = netParse cfg.localNet ∧
      Heard (netParse cfg.localNet) (c'.links i) ∧
      ((c'.links i).peerTunIp = 0 → text = showNat Code.noAddr.toNat) ∧
      ((c'.links i).peerTunIp ≠ 0 → text = ackText c' (c'.links i)) := by
  obtain ⟨hcode, hnet, hheard'⟩ := hheard.notifyRead
  obtain ⟨hkeep, -⟩ := notifyRead_spec (c.links i) (ctrlFrame netNotify (notifyText cfg))
  generalize hl : (Vpn.notifyRead (c.links i) (ctrlFrame netNotify (notifyText cfg))).1 = l at *
  have hsession' : ((c.setLink i l).links i).session = some s := by
    rw [setLink_links, hkeep, hsession]
  obtain ⟨c', text, hreply, hassign, hfits, hrefused, hgranted⟩ := replyNotify_ok hsession'
  obtain ⟨-, -, -, htold⟩ := assignAddr_spec (c.setLink i l) i Code.ok
  rw [← hassign, setLink_links] at htold
  have hknown : ((c'.links i).peerNet, (c'.links i).peerNetText) = (l.peerNet, l.peerNetText) :=
    congrArg Prod.snd htold
  obtain ⟨hnet', htext'⟩ := Prod.mk.inj hknown
  refine ⟨c', text, ?_, hfits, hnet'.trans hnet, ?_, hrefused, hgranted⟩
  · have hlong : ¬ (ctrlFrame netNotify (notifyText cfg)).length < ctrlHdrLen := by
      obtain ⟨hlt, hzero⟩ := notifyText_spec cfg
      obtain ⟨-, -, -, htotal, -⟩ := ctrlFrame_spec netNotify hlt hzero
      rw [htotal]
      exact Nat.not_lt.mpr (Nat.le_add_right _ _)
    have htype : Frame.type (ctrlFrame netNotify (notifyText cfg)) = netNotify := rfl
    rw [handleCtrl, if_neg hlong, if_pos htype, handleNotify]
    dsimp only
    rw [hl, hcode, hreply]
  · rwa [Heard, hnet', htext']

theorem handleCtrl_ack (c : Ctx) (i : Slot) (text : Text)
    (hlong : ctrlHdrLen ≤ (ctrlFrame netNotifyAck text).length) :
    handleCtrl c i (ctrlFrame netNotifyAck text) =
      (onNotifyAck c i (ctrlFrame netNotifyAck text), none) := by
  have htype : Frame.type (ctrlFrame netNotifyAck text) = netNotifyAck := rfl
  rw [handleCtrl, if_neg (Nat.not_lt.mpr hlong), if_neg (by rw [htype]; decide), if_pos htype]

end Answer

/-! ## Runs -/

/-- What may be on its way from an end with the configuration `peer` to the one with `cfg`. -/
inductive Message (cfg peer : Cfg) (m : Sent) : Prop
  | notify (frame : m.frame = ctrlFrame netNotify (notifyText peer))
  | granted (len : ℕ) (hlen : len ≤ 32) (address : m.link.peerTunIp ≠ 0)
      (net : m.link.peerNet = netParse cfg.localNet)
      (frame : m.frame = ctrlFrame netNotifyAck
        (ackFields m.link.peerTunIp m.own len (netParse peer.localNet)))
  | refused (address : m.link.peerTunIp = 0)
      (frame : m.frame = ctrlFrame netNotifyAck (showNat Code.noAddr.toNat))

structure Holds (cfg : Bool → Cfg) (session : Bool → Session) (p : Pair) : Prop where
  configured : ∀ b, (p.ends b).cfg = cfg b
  heard : ∀ b i, ((p.ends b).links i).session = some (session b) →
    Heard (netParse (cfg !b).localNet) ((p.ends b).links i)
  sent : ∀ b, ∀ m ∈ p.sent b, Message (cfg b) (cfg !b) m

section Runs

variable {cfg : Bool → Cfg} {session : Bool → Session} {p : Pair}

theorem mem_over {c : Ctx} {s : Session} {frames : List (Session × Frame)} {m : Sent}
    (h : m ∈ Sent.over c s frames) :
    (s, m.frame) ∈ frames ∧ m.own = c.myTunIp ∧ m.link = linkOf c s := by
  obtain ⟨⟨s', f⟩, hmem, rfl⟩ := List.mem_map.mp h
  obtain ⟨hframe, hs⟩ := List.mem_filter.mp hmem
  obtain rfl : s' = s := of_decide_eq_true hs
  exact ⟨hframe, rfl, rfl⟩

theorem over_singleton (c : Ctx) (s : Session) (f : Frame) :
    Sent.over c s [(s, f)] = [⟨f, c.myTunIp, linkOf c s⟩] := by
  simp [Sent.over]

theorem Holds.update (h : Holds cfg session p) {b : Bool} {c : Ctx} {ms : List Sent}
    (hcfg : c.cfg = cfg b)
    (hheard : ∀ i, (c.links i).session = some (session b) →
      Heard (netParse (cfg !b).localNet) (c.links i))
    (hms : ∀ m ∈ ms, Message (cfg !b) (cfg b) m) :
    Holds cfg session
      ⟨Function.update p.ends b c, Function.update p.sent (!b) (p.sent (!b) ++ ms)⟩ where
  configured b' := by
    rcases eq_or_ne b' b with rfl | hne
    · exact (congrArg Ctx.cfg (Function.update_self _ _ _)).trans hcfg
    · exact (congrArg Ctx.cfg (Function.update_of_ne hne _ _)).trans (h.configured b')
  heard b' := by
    rcases eq_or_ne b' b with rfl | hne
    · dsimp only
      rw [Function.update_self]
      exact hheard
    · dsimp only
      rw [Function.update_of_ne hne]
      exact h.heard b'
  sent b' := by
    change ∀ m ∈ Function.update p.sent (!b) (p.sent (!b) ++ ms) b', _
    rcases eq_or_ne b' (!b) with rfl | hne
    · rw [Function.update_self, List.forall_mem_append, Bool.not_not]
      refine ⟨?_, hms⟩
      have hold := h.sent (!b)
      rwa [Bool.not_not] at hold
    · rw [Function.update_of_ne hne]
      exact h.sent b'

theorem emitted_spec {c : Ctx} {e : Vpn.Event} {s : Session} {f : Frame}
    (h : (s, f) ∈ emitted c e) : f = ctrlFrame netNotify (notifyText c.cfg) := by
  cases e with
  | exchange rounds conn =>
    rw [emitted, exchangeAddr] at h
    split at h
    · exact (List.not_mem_nil h).elim
    · obtain ⟨i, -, hi⟩ := List.mem_filterMap.mp h
      split at hi
      · rw [sendCtrl] at hi
        split at hi
        · cases hi
        · split at hi
          · cases hi
          · exact (congrArg Prod.snd (Option.some.inj hi)).symm
      · cases hi
  | dial _ | recv _ _ | tick _ | release _ | openTun | closeTun => exact (List.not_mem_nil h).elim

theorem Holds.act (h : Holds cfg session p) (b : Bool) (e : Vpn.Event) :
    Holds cfg session (p.step session (.act b e)) := by
  rw [Pair.step]
  split
  · exact h
  · rename_i hforged
    have hcalm := Calm.step hforged (p.ends b)
    refine h.update (hcalm.cfg.trans (h.configured b)) (hcalm.heard (h.heard b)) fun m hm ↦ ?_
    have hframe := emitted_spec (mem_over hm).1
    rw [h.configured] at hframe
    exact .notify hframe

theorem Holds.deliver_notify (h : Holds cfg session p) {b : Bool} {c : Ctx} {i : Slot}
    (hget : linkGet (p.ends b) (session b) false = some (c, i)) {f : Frame}
    (hf : f = ctrlFrame netNotify (notifyText (cfg !b))) :
    ∃ c' r, p2pRecv (p.ends b) (session b) f = (c', some (session b, r.frame)) ∧
      Sent.over c' (session b) [(session b, r.frame)] = [r] ∧ c'.cfg = cfg b ∧
      (∀ j, (c'.links j).session = some (session b) →
        Heard (netParse (cfg !b).localNet) (c'.links j)) ∧
      Message (cfg !b) (cfg b) r ∧ r.own = c'.myTunIp ∧ r.link = c'.links i ∧
      Answered (netParse (cfg b).localNet) (netParse (cfg !b).localNet) r := by
  obtain ⟨hlt, hzero⟩ := notifyText_spec (cfg !b)
  obtain ⟨-, hsession, -⟩ := linkGet_spec hget
  have hopen : Calm (session b) (p.ends b) c := .linkGet hget
  have hheard := hopen.heard (h.heard b)
  obtain ⟨c', text, hreply, hfits, hnet, hheard', hrefused, hgranted⟩ :=
    handleCtrl_notify hsession (hheard i hsession)
  obtain ⟨hcfg, hlinks, hsame⟩ := handleCtrl_spec c i (ctrlFrame netNotify (notifyText (cfg !b)))
  rw [hreply] at hcfg hlinks hsame
  have hcfg' : c'.cfg = cfg b := hcfg.trans (hopen.cfg.trans (h.configured b))
  have hlink : linkOf c' (session b) = c'.links i := by
    refine linkOf_eq hget fun j ↦ ?_
    rcases eq_or_ne j i with rfl | hne
    · exact hsame
    · rw [hlinks j hne]
  have hgranted' (hip : (c'.links i).peerTunIp ≠ 0) : ∃ len ≤ 32,
      text = ackFields (c'.links i).peerTunIp c'.myTunIp len (netParse (cfg b).localNet) := by
    rw [hgranted hip, ← hcfg']
    exact ackText_eq c' (c'.links i)
  refine ⟨c', ⟨ctrlFrame netNotifyAck text, c'.myTunIp, c'.links i⟩, ?_, ?_, hcfg', ?_, ?_, rfl,
    rfl,
    ⟨text, hfits, rfl, hgranted'⟩, fun _ ↦ hnet,
    fun hip ↦ congrArg (ctrlFrame netNotifyAck) (hrefused hip)⟩
  · rw [hf, p2pRecv_ctrlFrame hget netNotify hlt hzero, hreply]
  · rw [over_singleton, hlink]
  · intro j hj
    rcases eq_or_ne j i with rfl | hne
    · exact hheard'
    · rw [hlinks j hne] at hj ⊢
      exact hheard j hj
  · by_cases hip : (c'.links i).peerTunIp = 0
    · exact .refused hip (congrArg (ctrlFrame netNotifyAck) (hrefused hip))
    · obtain ⟨len, hlen, htext⟩ := hgranted' hip
      exact .granted len hlen hip hnet (congrArg (ctrlFrame netNotifyAck) htext)

theorem onNotifyAck_fields {c : Ctx} {i : Slot} {net : Option Net}
    (hack : (c.links i).notifyAcked = false) (hheard : Heard net (c.links i))
    (given mine : BitVec 32) {len : ℕ} (hlen : len ≤ 32) :
    let c' := onNotifyAck c i (ctrlFrame netNotifyAck (ackFields given mine len net))
    c'.myTunIp = given ∧ (c'.links i).peerTunIp = mine ∧ (c'.links i).peerNet = net ∧
      Heard net (c'.links i) := by
  intro c'
  have hacked : ¬ (c.links i).notifyAcked = true := by
    rw [hack]
    exact Bool.false_ne_true
  have hheard' : Heard net { c.links i with notifyAcked := true, peerTunIp := mine } := hheard
  obtain ⟨-, hnet, hkept⟩ := hheard'.setPeerInfo
  have hc' : c' = { c.setLink i (linkSetPeerInfo
      { c.links i with notifyAcked := true, peerTunIp := mine } [] (net.elim [] netStr)).1 with
        myTunIpText := snprintf 32 (showQuad given len)
        myTunIp := given
        addrReady := true } := by
    change onNotifyAck c i _ = _
    rw [onNotifyAck]
    dsimp only
    rw [if_neg hacked, ackRead_fields hlen]
    dsimp only
    rw [linkSetPeerInfo_ipv4 (ipv4Parse_showQuad mine len), ipv4Parse_showQuad]
    rfl
  have hlink : c'.links i = (linkSetPeerInfo
      { c.links i with notifyAcked := true, peerTunIp := mine } [] (net.elim [] netStr)).1 := by
    rw [hc']
    exact setLink_links c i _
  refine ⟨congrArg Ctx.myTunIp hc', ?_, ?_, ?_⟩
  · rw [hlink, linkSetPeerInfo_ip, ipv4Parse_nil]
    rfl
  · rw [hlink, hnet]
  · rw [hlink]
    exact hkept

theorem onNotifyAck_refused {c : Ctx} {i : Slot} :
    (onNotifyAck c i (ctrlFrame netNotifyAck (showNat Code.noAddr.toNat))).myTunIp = c.myTunIp ∧
      ((onNotifyAck c i (ctrlFrame netNotifyAck (showNat Code.noAddr.toNat))).links i).peerTunIp =
        (c.links i).peerTunIp ∧
      told ((onNotifyAck c i (ctrlFrame netNotifyAck (showNat Code.noAddr.toNat))).links i) =
        told (c.links i) := by
  have hread : ackRead (ctrlFrame netNotifyAck (showNat Code.noAddr.toNat)) = Ack.refused := by
    decide
  rw [onNotifyAck, hread]
  dsimp only
  split
  · exact ⟨rfl, rfl, rfl⟩
  · refine ⟨rfl, ?_, ?_⟩ <;> rw [setLink_links]
    rfl

theorem onNotifyAck_acked {c : Ctx} {i : Slot} (f : Frame) (h : (c.links i).notifyAcked = true) :
    onNotifyAck c i f = c := if_pos h

theorem heard_ack {c c' : Ctx} {i : Slot} {s : Session} {net : Option Net} {f : Frame}
    (hheard : ∀ j, (c.links j).session = some s → Heard net (c.links j))
    (hc' : c' = (handleCtrl c i f).1) (hi : Heard net (c'.links i)) (j : Slot)
    (hj : (c'.links j).session = some s) : Heard net (c'.links j) := by
  obtain ⟨-, hlinks, -⟩ := handleCtrl_spec c i f
  rw [← hc'] at hlinks
  rcases eq_or_ne j i with rfl | hne
  · exact hi
  · rw [hlinks j hne] at hj ⊢
    exact hheard j hj

theorem Heard.of_told {net : Option Net} {l l' : Link} (h : Heard net l)
    (htold : told l' = told l) :
    Heard net l' := by
  have hknown : (l'.peerNet, l'.peerNetText) = (l.peerNet, l.peerNetText) :=
    congrArg Prod.snd htold
  obtain ⟨hnet, htext⟩ := Prod.mk.inj hknown
  rwa [Heard, hnet, htext]

theorem Holds.deliver_ack (h : Holds cfg session p) {b : Bool} {c : Ctx} {i : Slot}
    (hget : linkGet (p.ends b) (session b) false = some (c, i)) {m : Sent}
    (hm : Message (cfg b) (cfg !b) m) (htype : Frame.type m.frame = netNotifyAck) :
    ∃ c', p2pRecv (p.ends b) (session b) m.frame = (c', none) ∧ c'.cfg = cfg b ∧
      (∀ j, (c'.links j).session = some (session b) →
        Heard (netParse (cfg !b).localNet) (c'.links j)) ∧
      ((c.links i).notifyAcked = false →
        Received (netParse (cfg b).localNet) (netParse (cfg !b).localNet) m c c' i) := by
  obtain ⟨-, hsession, -⟩ := linkGet_spec hget
  have hopen : Calm (session b) (p.ends b) c := .linkGet hget
  have hheard := hopen.heard (h.heard b)
  have hcfg : c.cfg = cfg b := hopen.cfg.trans (h.configured b)
  -- the frame reaches the handler, whatever it says
  obtain ⟨text, hframe, hlt, hzero⟩ : ∃ text, m.frame = ctrlFrame netNotifyAck text ∧
      text.length < cidrMax ∧ 0 ∉ text := by
    cases hm with
    | notify hframe =>
      rw [hframe] at htype
      cases htype
    | granted len hlen _ _ hframe =>
      exact ⟨_, hframe, length_ackFields _ _ _ hlen, zero_notMem_ackFields⟩
    | refused _ hframe => exact ⟨_, hframe, by decide, by decide⟩
  have hlong : ctrlHdrLen ≤ (ctrlFrame netNotifyAck text).length := by
    obtain ⟨-, -, -, htotal, -⟩ := ctrlFrame_spec netNotifyAck hlt hzero
    rw [htotal]
    exact Nat.le_add_right _ _
  have hhandle := handleCtrl_ack c i text hlong
  have hrecv : p2pRecv (p.ends b) (session b) m.frame = (onNotifyAck c i m.frame, none) := by
    rw [hframe, p2pRecv_ctrlFrame hget netNotifyAck hlt hzero, hhandle]
  have hfst : onNotifyAck c i m.frame = (handleCtrl c i (ctrlFrame netNotifyAck text)).1 := by
    rw [hframe, hhandle]
  have hcfg' : (onNotifyAck c i m.frame).cfg = cfg b := by
    rw [hfst, (handleCtrl_spec c i _).1, hcfg]
  refine ⟨_, hrecv, hcfg', ?_, fun hack ↦ ?_⟩
  · refine heard_ack hheard hfst ?_
    cases hack : (c.links i).notifyAcked with
    | true =>
      rw [onNotifyAck_acked _ hack]
      exact hheard i hsession
    | false =>
      cases hm with
      | notify hnotify =>
        rw [hnotify] at htype
        cases htype
      | granted len hlen _ _ hgranted =>
        rw [hgranted]
        exact (onNotifyAck_fields hack (hheard i hsession) _ _ hlen).2.2.2
      | refused _ hrefused =>
        rw [hrefused]
        exact (hheard i hsession).of_told onNotifyAck_refused.2.2
  · cases hm with
    | notify hnotify =>
      rw [hnotify] at htype
      cases htype
    | granted len hlen haddress hnet hgranted =>
      rw [hgranted]
      obtain ⟨hown, hpeer, hlearned, -⟩ :=
        onNotifyAck_fields hack (hheard i hsession) m.link.peerTunIp m.own hlen
      exact ⟨fun _ ↦ ⟨hown, hpeer, hlearned, hnet⟩, fun hzero ↦ (haddress hzero).elim⟩
    | refused haddress hrefused =>
      rw [hrefused]
      exact ⟨fun hne ↦ (hne haddress).elim,
        fun _ ↦ ⟨onNotifyAck_refused.1, onNotifyAck_refused.2.1⟩⟩

theorem Message.type {own peer : Cfg} {m : Sent} (h : Message own peer m) :
    m.frame = ctrlFrame netNotify (notifyText peer) ∨ Frame.type m.frame = netNotifyAck := by
  cases h with
  | notify hframe => exact .inl hframe
  | granted _ _ _ _ hframe | refused _ hframe =>
    right
    rw [hframe]
    rfl

theorem p2pRecv_full {c : Ctx} {s : Session} (h : linkGet c s false = none) (data : List UInt8) :
    p2pRecv c s data = (c, none) := by
  rw [p2pRecv, h]
  exact ite_self _

theorem Holds.step (h : Holds cfg session p) (e : Event) :
    Holds cfg session (p.step session e) ∧ Exchanged cfg session p e (p.step session e) := by
  cases e with
  | act b e => exact ⟨h.act b e, trivial⟩
  | deliver b k =>
    rw [Pair.step]
    cases hk : (p.sent b)[k]? with
    | none =>
      refine ⟨h, fun m hm ↦ ?_⟩
      rw [hk] at hm
      cases hm
    | some m =>
      have hm := h.sent b m (List.mem_of_getElem? hk)
      dsimp only
      cases hget : linkGet (p.ends b) (session b) false with
      | none =>
        rw [p2pRecv_full hget]
        refine ⟨h.update (h.configured b) (h.heard b) (fun r hr ↦ nomatch hr),
          fun m' _ c i hsome ↦ ?_⟩
        rw [hget] at hsome
        cases hsome
      | some got =>
        obtain ⟨c, i⟩ := got
        rcases hm.type with hframe | htype
        · obtain ⟨c', r, hrecv, hover, hcfg, hheard, hmessage, hown, hlink, hanswered⟩ :=
            h.deliver_notify hget hframe
          rw [hrecv]
          dsimp only [Option.toList]
          rw [hover]
          refine ⟨h.update hcfg hheard (List.forall_mem_singleton.mpr hmessage), ?_⟩
          intro m' hm' c₁ i₁ hget₁
          cases hk.symm.trans hm'
          cases hget.symm.trans hget₁
          refine ⟨fun _ ↦ ⟨r, Function.update_self _ _ _, ?_, ?_, hanswered⟩, fun hack ↦ ?_⟩
          · exact hown.trans (congrArg Ctx.myTunIp (Function.update_self b c' p.ends).symm)
          · exact hlink.trans
              (congrArg (fun c : Ctx ↦ c.links i) (Function.update_self b c' p.ends).symm)
          · rw [hframe] at hack
            cases hack
        · obtain ⟨c', hrecv, hcfg, hheard, hreceived⟩ := h.deliver_ack hget hm htype
          rw [hrecv]
          refine ⟨h.update hcfg hheard (fun r hr ↦ nomatch hr), ?_⟩
          intro m' hm' c₁ i₁ hget₁
          cases hk.symm.trans hm'
          cases hget.symm.trans hget₁
          refine ⟨fun hnotify ↦ ?_, fun _ hack ↦ ?_⟩
          · rw [htype] at hnotify
            cases hnotify
          · dsimp only
            rw [Function.update_self]
            exact hreceived hack

theorem poolInit_spec (c : Ctx) : (poolInit c).cfg = c.cfg ∧ (poolInit c).links = c.links := by
  rw [poolInit]
  split
  · exact ⟨rfl, rfl⟩
  · dsimp only
    split <;> exact ⟨rfl, rfl⟩

theorem holds_start (cfg : Bool → Cfg) (session : Bool → Session) :
    Holds cfg session (.start cfg) where
  configured b := (poolInit_spec _).1
  heard b i _ := by
    have hlinks : (Vpn.start (cfg b)).links = fun _ ↦ Link.empty := (poolInit_spec _).2
    change Heard _ ((Vpn.start (cfg b)).links i)
    rw [hlinks]
    exact .inl ⟨rfl, rfl⟩
  sent b m hm := (List.not_mem_nil hm).elim

end Runs

/-- Whatever the ends do and the network does to their frames, an answer fits in its buffer, and the
end that waits for it takes over what the other one had recorded when it answered. -/
theorem ends_agree (cfg : Bool → Cfg) (session : Bool → Session) (events : List Event) :
    Run.Steps (Pair.step session) (Exchanged cfg session) (.start cfg) events :=
  (Run.Steps.of_invariant (R := fun _ _ _ ↦ True) (holds_start cfg session)
    (fun _ e h _ ↦ h.step e) (Run.Steps.of_forall (fun _ _ _ ↦ trivial) _ _)).2

/-- A network of the prefix length 0 is configured, and the other end does not hear of it. -/
theorem not_net_configured : ¬ ∀ (cfg : Bool → Cfg) (session : Bool → Session)
    (events : List Event), Run.Steps (Pair.step session) (fun p e p' ↦ ∀ b k m, e = .deliver b k →
      (p.sent b)[k]? = some m → Frame.type m.frame = netNotify →
        ∀ i, ((p'.ends b).links i).session = some (session b) →
          ((p'.ends b).links i).peerTunIp ≠ 0 →
            (((p'.ends b).links i).peerNet = none ↔
            (cfg !b).localNet = [])) (.start cfg) events := by
  intro h
  let cfg : Bool → Cfg := fun b ↦
    if b then ⟨some (ascii "hub"), [], [], ascii "10.0.0.0/0"⟩
    else ⟨none, ascii "10.0.0.1/24", [], []⟩
  let p : Pair := Run.final (Pair.step fun _ ↦ 1) (.start cfg)
    [.act true (.dial 1), .act true (.exchange 0 [1])]
  obtain ⟨-, -, hstep, -⟩ := h cfg (fun _ ↦ 1)
    [.act true (.dial 1), .act true (.exchange 0 [1]), .deliver false 0]
  obtain ⟨m, hm, htype⟩ : ∃ m, (p.sent false)[0]? = some m ∧ Frame.type m.frame = netNotify :=
    ⟨_, rfl, by decide⟩
  have hiff := hstep false 0 m rfl hm htype 0 (by decide) (by decide)
  exact absurd (hiff.mp (by decide)) (by decide)

end Exchange

end Libobject.Vpn
