import Libobject.Lib.Lease
import Libobject.Vpn.Ctx

/-!
# Who holds which address

The part of an endpoint's state that the address pool is about: the pool, the endpoint's own
address, the table of used slots and the address of each live link. Each operation of the control
plane changes it in one of four ways: not at all, by giving a slot's address to a link, by
dropping a link, or by what an acknowledgement says.
-/

namespace Libobject.Vpn

open Scan

/-- The tunnel address of a live link that has one. -/
def Link.tunIp (l : Link) : Option (BitVec 32) :=
  if l.session ≠ none ∧ l.peerTunIp ≠ 0 then some l.peerTunIp else none

@[ext] structure View where
  pool : Option Net
  own : BitVec 32
  used : Slot → BitVec 32
  held : Slot → Option (BitVec 32)

def view (c : Ctx) : View := ⟨c.pool, c.myTunIp, c.addrUsed, fun i ↦ (c.links i).tunIp⟩

namespace View

/-- Link `i` is given the address of slot `k`. -/
def give (v : View) (n : Net) (i k : Slot) : View :=
  { v with
    used := Function.update v.used k (n.slotAddr k)
    held := Function.update v.held i (some (n.slotAddr k)) }

/-- The first slot that records the address `a`. -/
def slotOf (v : View) (a : BitVec 32) : Option Slot :=
  (List.finRange maxLinks).find? (fun k ↦ v.used k = a)

/-- The table after the first slot that records the address `a` became free. -/
def free (v : View) (a : BitVec 32) : Slot → BitVec 32 :=
  match v.slotOf a with
  | none => v.used
  | some k => Function.update v.used k 0

/-- Link `i` goes away, and its address is free again. -/
def drop (v : View) (i : Slot) : View :=
  { v with
    used :=
      match v.held i with
      | none => v.used
      | some a => if v.pool = none then v.used else v.free a
    held := Function.update v.held i none }

/-- Link `i` and the endpoint take the addresses that an acknowledgement names. -/
def learn (v : View) (i : Slot) (own : BitVec 32) (held : Option (BitVec 32)) : View :=
  { v with own := own, held := Function.update v.held i held }

end View

/-! ## Links -/

@[simp] theorem tunIp_empty : Link.empty.tunIp = none := rfl

@[simp] theorem tunIp_open (s : Session) (b : Bool) : (Link.open s b).tunIp = none := rfl

theorem tunIp_eq_some {l : Link} {a : BitVec 32} :
    l.tunIp = some a ↔ l.session ≠ none ∧ a ≠ 0 ∧ l.peerTunIp = a := by
  unfold Link.tunIp
  split <;> simp_all <;> grind

theorem tunIp_of_ip {l : Link} (h : l.peerTunIp = 0) : l.tunIp = none := by
  simp [Link.tunIp, h]

theorem tunIp_congr {l l' : Link} (hs : l'.session = l.session) (hip : l'.peerTunIp = l.peerTunIp) :
    l'.tunIp = l.tunIp := by
  simp [Link.tunIp, hs, hip]

@[simp] theorem setLink_links (c : Ctx) (i : Slot) (l : Link) :
    (c.setLink i l).links i = l := by
  simp [Ctx.setLink]

theorem view_setLink (c : Ctx) (i : Slot) (l : Link) :
    view (c.setLink i l) = { view c with held := Function.update (view c).held i l.tunIp } := by
  ext j
  · rfl
  · rfl
  · rfl
  · rcases eq_or_ne j i with rfl | hji
    · simp [view, Ctx.setLink]
    · simp [view, Ctx.setLink, Function.update_of_ne hji]

theorem view_setLink_same {c : Ctx} {i : Slot} {l : Link} (h : l.tunIp = (c.links i).tunIp) :
    view (c.setLink i l) = view c := by
  rw [view_setLink, h]
  ext : 1
  · rfl
  · rfl
  · rfl
  · exact Function.update_eq_self i (view c).held

theorem linkGet_spec {c c' : Ctx} {s : Session} {b : Bool} {i : Slot}
    (h : linkGet c s b = some (c', i)) :
    view c' = view c ∧ (c'.links i).session = some s ∧ (c' = c ∨ c'.links i = Link.open s b) := by
  unfold linkGet at h
  split at h
  · next j hj =>
      cases h
      exact ⟨rfl, by simpa using List.find?_some hj, .inl rfl⟩
  · split at h
    · next j hj =>
        cases h
        have hnone : (c.links i).session = none := by simpa using List.find?_some hj
        have hip : (Link.open s b).tunIp = (c.links i).tunIp := by
          rw [tunIp_open, Link.tunIp, if_neg (by simp [hnone])]
        exact ⟨view_setLink_same hip, by simp [Link.open], .inr (by simp)⟩
    · cases h

@[simp] theorem linkSetPeerInfo_session (l : Link) (ip net : Text) :
    (linkSetPeerInfo l ip net).1.session = l.session := by
  unfold linkSetPeerInfo
  grind

theorem ipv4Parse_nil : ipv4Parse [] = none := by decide

theorem linkSetPeerInfo_ip (l : Link) (ip net : Text) :
    (linkSetPeerInfo l ip net).1.peerTunIp = (ipv4Parse ip).getD l.peerTunIp := by
  unfold linkSetPeerInfo
  by_cases hip : ip = []
  · subst hip
    simp only [ipv4Parse_nil]
    grind
  · grind

theorem tunIp_installRoute (l : Link) : l.installRoute.tunIp = l.tunIp := by
  unfold Link.installRoute
  split <;> rfl

theorem view_installLinkRoutes (c : Ctx) : view (installLinkRoutes c) = view c := by
  unfold installLinkRoutes
  split
  · simp [view, tunIp_installRoute]
  · rfl

/-! ## Releasing a link -/

theorem view_poolFree (c : Ctx) (ip : BitVec 32) :
    view (poolFree c ip) =
      if c.pool = none ∨ ip = 0 then view c else { view c with used := (view c).free ip } := by
  unfold poolFree
  split
  · rfl
  · cases hk : (view c).slotOf ip with
    | none =>
      have hfind : (List.finRange maxLinks).find? (fun i ↦ c.addrUsed i = ip) = none := hk
      simp only [hfind, View.free, hk]
    | some k =>
      have hfind : (List.finRange maxLinks).find? (fun i ↦ c.addrUsed i = ip) = some k := hk
      simp only [hfind, View.free, hk]
      rfl

theorem view_linkRelease {c : Ctx} {i : Slot} (hlive : (c.links i).session ≠ none) :
    view (linkRelease c i) = (view c).drop i := by
  unfold linkRelease
  rw [if_neg hlive]
  change view ((poolFree c (c.links i).peerTunIp).setLink i Link.empty) = _
  rw [view_setLink, tunIp_empty, view_poolFree]
  by_cases hip : (c.links i).peerTunIp = 0
  · have hheld : (view c).held i = none := tunIp_of_ip hip
    simp [View.drop, hip, hheld]
  · have hheld : (view c).held i = some (c.links i).peerTunIp :=
      tunIp_eq_some.mpr ⟨hlive, hip, rfl⟩
    by_cases hpool : (view c).pool = none
    · have hpool' : c.pool = none := hpool
      simp [View.drop, hpool, hpool', hheld]
    · have hpool' : c.pool ≠ none := hpool
      rw [if_neg (not_or.mpr ⟨hpool', hip⟩)]
      simp [View.drop, hpool, hheld]

theorem linkRelease_dead {c : Ctx} {i : Slot} (hdead : (c.links i).session = none) :
    linkRelease c i = c := by
  simp [linkRelease, hdead]

theorem view_releaseDeadLink (conn : List Session) (c : Ctx) (i : Slot) :
    view (releaseDeadLink conn c i) = view c ∨
      view (releaseDeadLink conn c i) = (view c).drop i := by
  unfold releaseDeadLink
  dsimp only
  split
  · exact .inl rfl
  · next s hs =>
      have hbad : ∀ n, view (c.setLink i { c.links i with badRounds := n }) = view c :=
        fun n ↦ view_setLink_same rfl
      split
      · exact .inl rfl
      · split
        · exact .inl (hbad 0)
        · split
          · refine .inr ?_
            rw [view_linkRelease (by simp [hs]), hbad]
          · exact .inl (hbad _)

/-! ## Notifications -/

theorem notifyRead_spec (l : Link) (f : Frame) :
    (notifyRead l f).1.session = l.session ∧ (notifyRead l f).1.peerTunIp = l.peerTunIp := by
  unfold notifyRead
  split
  · exact ⟨rfl, rfl⟩
  · split
    · exact ⟨rfl, rfl⟩
    · exact ⟨linkSetPeerInfo_session _ _ _, by rw [linkSetPeerInfo_ip, ipv4Parse_nil]; rfl⟩

theorem poolAlloc_spec (c : Ctx) :
    poolAlloc c = (c, 0) ∨ ∃ n k, c.pool = some n ∧ freeSlot c n = some k ∧
      poolAlloc c =
        ({ c with addrUsed := Function.update c.addrUsed k (n.slotAddr k) }, n.slotAddr k) := by
  unfold poolAlloc
  split
  · exact .inl rfl
  · next n hn =>
      split
      · exact .inl rfl
      · next k hk => exact .inr ⟨n, k, hn, hk, rfl⟩

theorem replyNotify_fst (c : Ctx) (i : Slot) (code : Code) :
    (replyNotify c i code).1 = assignAddr c i code := by
  unfold replyNotify
  dsimp only
  repeat' split
  all_goals rfl

theorem view_assignAddr {c : Ctx} {i : Slot} {code : Code} (hlive : (c.links i).session ≠ none) :
    view (assignAddr c i code) = view c ∨
      code = Code.ok ∧ (c.links i).peerTunIp = 0 ∧ ∃ n k, c.pool = some n ∧
        freeSlot c n = some k ∧ view (assignAddr c i code) = (view c).give n i k := by
  unfold assignAddr
  split
  · next h =>
      obtain ⟨hcode, hip⟩ := h
      rcases poolAlloc_spec c with halloc | ⟨n, k, hn, hk, halloc⟩
      · left
        rw [halloc]
        exact view_setLink_same (tunIp_congr rfl hip.symm)
      · right
        refine ⟨hcode, hip, n, k, hn, hk, ?_⟩
        have hnew : Link.tunIp { c.links i with peerTunIp := n.slotAddr k } =
            some (n.slotAddr k) := tunIp_eq_some.mpr ⟨hlive, n.slotAddr_ne_zero k, rfl⟩
        rw [halloc]
        dsimp only
        rw [view_setLink, hnew]
        rfl
  · exact .inl rfl

theorem view_handleNotify {c : Ctx} {i : Slot} {f : Frame} (hlive : (c.links i).session ≠ none) :
    view (handleNotify c i f).1 = view c ∨
      (notifyRead (c.links i) f).2 = Code.ok ∧ (c.links i).peerTunIp = 0 ∧ ∃ n k,
        c.pool = some n ∧ freeSlot c n = some k ∧
          view (handleNotify c i f).1 = (view c).give n i k := by
  obtain ⟨hs, hip⟩ := notifyRead_spec (c.links i) f
  have hview : view (c.setLink i (notifyRead (c.links i) f).1) = view c :=
    view_setLink_same (tunIp_congr hs hip)
  have hlive' : ((c.setLink i (notifyRead (c.links i) f).1).links i).session ≠ none := by
    rwa [setLink_links, hs]
  have hassign := @view_assignAddr _ i (notifyRead (c.links i) f).2 hlive'
  rw [hview, setLink_links, hip] at hassign
  unfold handleNotify
  dsimp only
  rw [replyNotify_fst]
  exact hassign

/-! ## Acknowledgements -/

theorem view_onNotifyAck (c : Ctx) (i : Slot) (f : Frame) :
    view (onNotifyAck c i f) = view c ∨ (c.links i).notifyAcked = false ∧
      ∃ mine peer net, ackRead f = Ack.granted mine peer net ∧
        ∃ l : Link, l.session = (c.links i).session ∧
          l.peerTunIp = (ipv4Parse peer).getD (c.links i).peerTunIp ∧
          view (onNotifyAck c i f) = (view c).learn i ((ipv4Parse mine).getD 0) l.tunIp := by
  unfold onNotifyAck
  dsimp only
  split
  · exact .inl rfl
  · next hacked =>
      split
      · exact .inl rfl
      · exact .inl (view_setLink_same rfl)
      · exact .inl rfl
      · next mine peer net hack =>
          refine .inr ⟨by simpa using hacked, mine, peer, net, hack,
            (linkSetPeerInfo { c.links i with notifyAcked := true } peer net).1,
            linkSetPeerInfo_session _ _ _, linkSetPeerInfo_ip _ _ _, ?_⟩
          have hset := view_setLink c i
            (linkSetPeerInfo { c.links i with notifyAcked := true } peer net).1
          have hheld := congrArg View.held hset
          ext : 1
          · rfl
          · rfl
          · rfl
          · exact hheld

/-! ## Steps -/

/-- Slot `slot` of the pool `net` is given to link `link`. -/
structure Given where
  net : Net
  link : Slot
  slot : Slot

/-- An acknowledgement on link `index`, which was `link`, names the two addresses. -/
structure Accepted where
  link : Link
  index : Slot
  mine : Text
  peer : Text

/-- What a received notification takes from the pool. -/
def givenSlot (c : Ctx) (s : Session) (data : List UInt8) : Option Given :=
  match linkGet c s false with
  | none => none
  | some (c, i) =>
    if isCtrl data ∧ Frame.type data = netNotify ∧ (notifyRead (c.links i) data).2 = Code.ok ∧
        (c.links i).peerTunIp = 0 then
      match c.pool with
      | none => none
      | some n => (freeSlot c n).map (fun k ↦ ⟨n, i, k⟩)
    else none

/-- What the acknowledgement says that a received packet carries, if it is accepted. -/
def acceptedAck (c : Ctx) (s : Session) (data : List UInt8) : Option Accepted :=
  match linkGet c s false with
  | none => none
  | some (c, i) =>
    if isCtrl data ∧ Frame.type data = netNotifyAck ∧ (c.links i).notifyAcked = false then
      match ackRead data with
      | Ack.granted mine peer _ => some ⟨c.links i, i, mine, peer⟩
      | _ => none
    else none

theorem freeSlot_spec {c : Ctx} {n : Net} {k : Slot} (h : freeSlot c n = some k) :
    n.slotAddr k ≠ c.myTunIp ∧ c.addrUsed k = 0 := by
  simpa using List.find?_some h

theorem givenSlot_spec {c : Ctx} {s : Session} {data : List UInt8} {n : Net} {i k : Slot}
    (h : givenSlot c s data = some ⟨n, i, k⟩) :
    Frame.type data = netNotify ∧ (view c).pool = some n ∧ (view c).held i = none ∧
      (view c).used k = 0 ∧ n.slotAddr k ≠ (view c).own := by
  unfold givenSlot at h
  split at h
  · cases h
  · next c₁ j hget =>
      obtain ⟨hview, -, -⟩ := linkGet_spec hget
      split at h
      · next hcond =>
          split at h
          · cases h
          · next n' hn =>
              obtain ⟨k', hk, heq⟩ := Option.map_eq_some_iff.mp h
              cases heq
              obtain ⟨hown, hused⟩ := freeSlot_spec hk
              rw [← hview]
              exact ⟨hcond.2.1, hn, tunIp_of_ip hcond.2.2.2, hused, hown⟩
      · cases h

theorem acceptedAck_spec {c : Ctx} {s : Session} {data : List UInt8} {l : Link} {i : Slot}
    {mine peer : Text} (h : acceptedAck c s data = some ⟨l, i, mine, peer⟩) :
    Frame.type data = netNotifyAck ∧ l.session = some s ∧ l.notifyAcked = false ∧
      (view c).held i = l.tunIp ∧ (l.isDialer = true → c.links i = l) := by
  unfold acceptedAck at h
  split at h
  · cases h
  · next c₁ j hget =>
      obtain ⟨hview, hs, hold⟩ := linkGet_spec hget
      split at h
      · next hcond =>
          split at h
          · cases h
            refine ⟨hcond.2.1, hs, hcond.2.2, by rw [← hview]; rfl, fun hd ↦ ?_⟩
            rcases hold with rfl | hopen
            · rfl
            · rw [hopen] at hd
              cases hd
          · cases h
      · cases h

theorem view_p2pRecv (c : Ctx) (s : Session) (data : List UInt8) :
    view (p2pRecv c s data).1 = view c ∨
      (∃ n i k, givenSlot c s data = some ⟨n, i, k⟩ ∧
        view (p2pRecv c s data).1 = (view c).give n i k) ∨
      ∃ l i mine peer, acceptedAck c s data = some ⟨l, i, mine, peer⟩ ∧
        ∃ l' : Link, l'.session = l.session ∧
          l'.peerTunIp = (ipv4Parse peer).getD l.peerTunIp ∧
          view (p2pRecv c s data).1 =
            (view c).learn i ((ipv4Parse mine).getD 0) l'.tunIp := by
  unfold p2pRecv givenSlot acceptedAck
  split
  · exact .inl rfl
  · cases hget : linkGet c s false with
    | none => exact .inl rfl
    | some found =>
      obtain ⟨c₁, i⟩ := found
      obtain ⟨hview, hs, -⟩ := linkGet_spec hget
      have hlive : (c₁.links i).session ≠ none := by simp [hs]
      dsimp only
      split
      · next hctrl =>
          unfold handleCtrl
          split
          · exact .inl hview
          · split
            · next hnotify =>
                rcases view_handleNotify (f := data) hlive with h | ⟨hok, hip, n, k, hn, hk, h⟩
                · exact .inl (h.trans hview)
                · refine .inr (.inl ⟨n, i, k, ?_, h.trans (by rw [hview])⟩)
                  simp only [hctrl, hnotify, hok, hip, hn, hk, and_self, if_true, Option.map_some]
            · split
              · next hack =>
                  rcases view_onNotifyAck c₁ i data with
                    h | ⟨hacked, mine, peer, net, hread, l, hl, hip, h⟩
                  · exact .inl (h.trans hview)
                  · refine .inr (.inr ⟨c₁.links i, i, mine, peer, ?_, l, hl, hip,
                      h.trans (by rw [hview])⟩)
                    simp only [hctrl, hack, hacked, hread, and_self, if_true]
              · exact .inl hview
      · exact .inl hview

theorem view_exchangeAddr (c : Ctx) (rounds : ℕ) (conn : List Session) :
    view (exchangeAddr c rounds conn).1 = view c := by
  unfold exchangeAddr
  split
  · rfl
  · have hip : ∀ i, Link.tunIp (if (c.links i).notifies rounds conn then
        { c.links i with notifyRetries := (c.links i).notifyRetries + 1 } else c.links i) =
          (c.links i).tunIp := by
      intro i
      split <;> rfl
    ext : 1
    · rfl
    · rfl
    · rfl
    · exact funext hip

theorem view_openTun (c : Ctx) : view (openTun c) = view c := by
  have hroutes : view (installLinkRoutes { c with tun := true }) = view c :=
    view_installLinkRoutes _
  unfold openTun
  dsimp only
  repeat' split
  all_goals first | rfl | exact hroutes

theorem view_dial (c : Ctx) (s : Session) : view (step c (Event.dial s)) = view c := by
  unfold step
  dsimp only
  split
  · split
    · rfl
    · next c' i h => exact (linkGet_spec h).1
  · rfl

/-- A property of the addresses that survives the loss of a link survives every step that is not
a received packet. -/
theorem view_step_of_drop {P : View → Prop} (hdrop : ∀ v i, P v → P (v.drop i)) {c : Ctx}
    (hP : P (view c)) {e : Event} (he : ∀ s data, e ≠ Event.recv s data) :
    P (view (step c e)) := by
  cases e with
  | dial s => rwa [view_dial]
  | recv s data => exact (he s data rfl).elim
  | tick conn =>
    change P (view (timer c conn))
    have hsweep : ∀ (is : List Slot) (c : Ctx), P (view c) →
        P (view (is.foldl (releaseDeadLink conn) c)) := by
      intro is
      induction is with
      | nil => exact fun c h ↦ h
      | cons i is ih =>
        intro c h
        apply ih
        rcases view_releaseDeadLink conn c i with hv | hv
        · rwa [hv]
        · rw [hv]
          exact hdrop _ i h
    unfold timer
    split
    · rw [view_installLinkRoutes]
      exact hsweep _ c hP
    · exact hP
  | release i =>
    change P (view (linkRelease c i))
    by_cases hdead : (c.links i).session = none
    · rwa [linkRelease_dead hdead]
    · rw [view_linkRelease hdead]
      exact hdrop _ i hP
  | exchange rounds conn =>
    change P (view (exchangeAddr c rounds conn).1)
    rwa [view_exchangeAddr]
  | openTun =>
    change P (view (openTun c))
    rwa [view_openTun]
  | closeTun => exact hP

end Libobject.Vpn
