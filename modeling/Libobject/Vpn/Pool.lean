import Libobject.Lib.Run
import Libobject.Vpn.View

/-!
# The address pool over whole runs

The table of used slots is a lease table: its slots record the addresses that the links hold. This
is kept as long as no slot is given whose address the table already records, and no link takes a
pool address behind the table's back.
-/

namespace Libobject.Vpn

open Scan

namespace View

def table (v : View) : Set (BitVec 32) := {a | a ≠ 0 ∧ ∃ k, v.used k = a}

def poolAddrs (v : View) : Set (BitVec 32) := {a | ∃ n k, v.pool = some n ∧ a = n.slotAddr k}

/-- The table records each slot under its own address and no address twice, and the links hold
their addresses exclusively. -/
structure Sound (v : View) : Prop where
  slot : ∀ k, v.used k ≠ 0 → ∃ n, v.pool = some n ∧ v.used k = n.slotAddr k
  uniq : ∀ k k', v.used k ≠ 0 → v.used k = v.used k' → k = k'
  excl : Lease.Exclusive v.poolAddrs v.table v.held

variable {v : View} {n : Net} {i k : Slot}

theorem table_give (hk : v.used k = 0) : (v.give n i k).table = insert (n.slotAddr k) v.table := by
  ext a
  constructor
  · rintro ⟨ha, k', hk'⟩
    rcases eq_or_ne k' k with rfl | hne
    · left
      simpa [give] using hk'.symm
    · right
      exact ⟨ha, k', by simpa [give, Function.update_of_ne hne] using hk'⟩
  · rintro (rfl | ⟨ha, k', hk'⟩)
    · exact ⟨n.slotAddr_ne_zero k, k, by simp [give]⟩
    · have hne : k' ≠ k := by
        rintro rfl
        exact ha (hk'.symm.trans hk)
      exact ⟨ha, k', by simpa [give, Function.update_of_ne hne] using hk'⟩

theorem slotOf_some {a : BitVec 32} (h : v.slotOf a = some k) : v.used k = a := by
  simpa [slotOf] using List.find?_some h

theorem slotOf_none {a : BitVec 32} (h : v.slotOf a = none) (k : Slot) : v.used k ≠ a := by
  simpa [slotOf] using List.find?_eq_none.mp h k (List.mem_finRange k)

theorem free_apply (v : View) (a : BitVec 32) (k : Slot) :
    v.free a k = v.used k ∨ v.free a k = 0 ∧ v.used k = a := by
  unfold free
  cases hk' : v.slotOf a with
  | none => exact .inl rfl
  | some k' =>
    rcases eq_or_ne k k' with rfl | hne
    · exact .inr ⟨by simp, slotOf_some hk'⟩
    · exact .inl (Function.update_of_ne hne _ _)

theorem used_drop_some {a : BitVec 32} (ha : v.held i = some a) :
    (v.drop i).used = if v.pool = none then v.used else v.free a := by
  simp [drop, ha]

theorem used_drop (v : View) (i k : Slot) :
    (v.drop i).used k = v.used k ∨ (v.drop i).used k = 0 ∧ v.held i = some (v.used k) := by
  cases ha : v.held i with
  | none => exact .inl (by simp [drop, ha])
  | some a =>
    rw [used_drop_some ha]
    by_cases hpool : v.pool = none
    · exact .inl (by rw [if_pos hpool])
    · rw [if_neg hpool]
      rcases free_apply v a k with h | ⟨h, hused⟩
      · exact .inl h
      · exact .inr ⟨h, by rw [hused]⟩

theorem Sound.used_drop_ne (h : v.Sound) {a : BitVec 32} (ha : v.held i = some a) (ha0 : a ≠ 0)
    (k : Slot) : (v.drop i).used k ≠ a := by
  intro hk
  have hused : v.used k = a := by
    rcases used_drop v i k with hsame | ⟨hzero, -⟩
    · exact hsame.symm.trans hk
    · exact (ha0 (hk.symm.trans hzero)).elim
  obtain ⟨n, hn, -⟩ := h.slot k (hused ▸ ha0)
  rw [used_drop_some ha, if_neg (by simp [hn]), free] at hk
  cases hslot : v.slotOf a with
  | none => exact slotOf_none hslot k hused
  | some k' =>
    have hkk' : k = k' := h.uniq k k' (hused ▸ ha0) (hused.trans (slotOf_some hslot).symm)
    simp only [hslot, hkk', Function.update_self] at hk
    exact ha0 hk.symm

theorem Sound.table_drop (h : v.Sound) : (v.drop i).table = Lease.returned v.table v.held i := by
  ext a
  constructor
  · rintro ⟨ha, k, hk⟩
    refine ⟨⟨ha, k, ?_⟩, fun hi ↦ h.used_drop_ne hi ha k hk⟩
    rcases used_drop v i k with hsame | ⟨hzero, -⟩
    · exact hsame.symm.trans hk
    · exact (ha (hk.symm.trans hzero)).elim
  · rintro ⟨⟨ha, k, hk⟩, hne⟩
    refine ⟨ha, k, ?_⟩
    rcases used_drop v i k with hsame | ⟨-, hheld⟩
    · exact hsame.trans hk
    · exact (hne (hk ▸ hheld)).elim

theorem Sound.give (h : v.Sound) (hn : v.pool = some n) (hk : v.used k = 0)
    (hnew : ∀ k', v.used k' ≠ n.slotAddr k) : (v.give n i k).Sound where
  slot := by
    intro k' hk'
    rcases eq_or_ne k' k with rfl | hne
    · exact ⟨n, hn, by simp [View.give]⟩
    · simp only [View.give, Function.update_of_ne hne] at hk' ⊢
      exact h.slot k' hk'
  uniq := by
    intro k₁ k₂ h₁ h₂
    simp only [View.give] at h₁ h₂
    by_cases hk₁ : k₁ = k <;> by_cases hk₂ : k₂ = k
    · exact hk₁.trans hk₂.symm
    · rw [hk₁, Function.update_self, Function.update_of_ne hk₂] at h₂
      exact (hnew k₂ h₂.symm).elim
    · rw [hk₂, Function.update_self, Function.update_of_ne hk₁] at h₂
      exact (hnew k₁ h₂).elim
    · rw [Function.update_of_ne hk₁] at h₁ h₂
      rw [Function.update_of_ne hk₂] at h₂
      exact h.uniq k₁ k₂ h₁ h₂
  excl := by
    rw [table_give hk]
    exact h.excl.give ⟨n, k, hn, rfl⟩ (fun ⟨_, k', hk'⟩ ↦ hnew k' hk')

theorem Sound.drop (h : v.Sound) (i : Slot) : (v.drop i).Sound where
  slot := by
    intro k hk
    rcases used_drop v i k with hsame | ⟨hzero, -⟩
    · rw [hsame] at hk ⊢
      exact h.slot k hk
    · exact (hk hzero).elim
  uniq := by
    intro k₁ k₂ h₁ h₂
    rcases used_drop v i k₁ with hs₁ | ⟨hz₁, -⟩
    · rcases used_drop v i k₂ with hs₂ | ⟨hz₂, -⟩
      · rw [hs₁] at h₁
        rw [hs₁, hs₂] at h₂
        exact h.uniq k₁ k₂ h₁ h₂
      · exact (h₁ (h₂.trans hz₂)).elim
    · exact (h₁ hz₁).elim
  excl := by
    rw [h.table_drop]
    exact h.excl.drop (Set.Subset.refl _)

/-- An acknowledgement keeps the table sound if the address it gives the link is held by no other
link and is no address of the pool, unless the link had it before. -/
theorem Sound.learn (h : v.Sound) {own : BitVec 32} {x : Option (BitVec 32)}
    (hx : x = v.held i ∨ x = none ∨
      ∃ a, x = some a ∧ a ∉ v.poolAddrs ∧ ∀ j, j ≠ i → v.held j ≠ some a) :
    (v.learn i own x).Sound where
  slot := h.slot
  uniq := h.uniq
  excl := by
    change Lease.Exclusive v.poolAddrs v.table (Function.update v.held i x)
    rcases hx with rfl | rfl | ⟨a, rfl, hpool, hfree⟩
    · rw [Function.update_eq_self]
      exact h.excl
    · exact h.excl.drop (fun _ ha ↦ ha.1)
    · exact h.excl.take hfree (Set.Subset.refl _) (fun ha ↦ (hpool ha).elim)

/-! ## Pools whose slots are host addresses -/

/-- Every address that is recorded or held is a host address of the pool, a recorded one is held,
and none is the endpoint's own. -/
structure Kept (v : View) (n : Net) : Prop where
  sound : v.Sound
  pool : v.pool = some n
  tight : Lease.Tight v.table v.held
  hostSlot : ∀ k, v.used k ≠ 0 → n.HostSlot k
  host : ∀ i a, v.held i = some a → n.IsHost a
  ne_own : ∀ i a, v.held i = some a → a ≠ v.own

theorem Kept.used_eq (h : v.Kept n) {k : Slot} (hk : v.used k ≠ 0) : v.used k = n.slotAddr k := by
  obtain ⟨n', hn', heq⟩ := h.sound.slot k hk
  rw [h.pool] at hn'
  cases hn'
  exact heq

theorem Kept.used_ne (h : v.Kept n) (hk : v.used k = 0) (hslot : n.HostSlot k) (k' : Slot) :
    v.used k' ≠ n.slotAddr k := by
  intro hused
  have hk' : v.used k' ≠ 0 := hused ▸ n.slotAddr_ne_zero k
  have heq : k' = k :=
    Net.slotAddr_inj (h.hostSlot k' hk') hslot ((h.used_eq hk').symm.trans hused)
  exact hk' (heq ▸ hk)

theorem Kept.give (h : v.Kept n) (hk : v.used k = 0) (hslot : n.HostSlot k)
    (hi : v.held i = none) (hown : n.slotAddr k ≠ v.own) : (v.give n i k).Kept n where
  sound := h.sound.give h.pool hk (h.used_ne hk hslot)
  pool := h.pool
  tight := by
    rw [table_give hk]
    exact h.tight.give hi
  hostSlot := by
    intro k' hk'
    rcases eq_or_ne k' k with rfl | hne
    · exact hslot
    · simp only [View.give, Function.update_of_ne hne] at hk'
      exact h.hostSlot k' hk'
  host := by
    intro j a hj
    rcases eq_or_ne j i with rfl | hne
    · simp only [View.give, Function.update_self, Option.some.injEq] at hj
      exact hj ▸ Net.isHost_slotAddr hslot
    · simp only [View.give, Function.update_of_ne hne] at hj
      exact h.host j a hj
  ne_own := by
    intro j a hj
    rcases eq_or_ne j i with rfl | hne
    · simp only [View.give, Function.update_self, Option.some.injEq] at hj
      exact hj ▸ hown
    · simp only [View.give, Function.update_of_ne hne] at hj
      exact h.ne_own j a hj

theorem held_drop {j : Slot} {a : BitVec 32} (hj : (v.drop i).held j = some a) :
    v.held j = some a := by
  have hne : j ≠ i := by
    rintro rfl
    simp [drop] at hj
  simpa [drop, Function.update_of_ne hne] using hj

theorem Kept.drop (h : v.Kept n) (i : Slot) : (v.drop i).Kept n where
  sound := h.sound.drop i
  pool := h.pool
  tight := by
    rw [h.sound.table_drop]
    exact h.tight.drop
  hostSlot := by
    intro k hk
    rcases used_drop v i k with hsame | ⟨hzero, -⟩
    · exact h.hostSlot k (hsame ▸ hk)
    · exact (hk hzero).elim
  host j a hj := h.host j a (held_drop hj)
  ne_own j a hj := h.ne_own j a (held_drop hj)

theorem Kept.learn_own (h : v.Kept n) {own : BitVec 32} (hown : ∀ j, v.held j ≠ some own) :
    (v.learn i own (v.held i)).Kept n := by
  have hheld : (v.learn i own (v.held i)).held = v.held := Function.update_eq_self i v.held
  exact {
    sound := h.sound.learn (.inl rfl)
    pool := h.pool
    tight := by
      rw [hheld]
      exact h.tight
    hostSlot := h.hostSlot
    host := by
      rw [hheld]
      exact h.host
    ne_own := by
      rw [hheld]
      rintro j a hj rfl
      exact hown j hj }

theorem Kept.learn_addr (h : v.Kept n) {own a : BitVec 32} (hown : ∀ j, v.held j ≠ some own)
    (hi : v.held i = none) (hhost : n.IsHost a) (hne : a ≠ own) (hslot : ∀ k, n.slotAddr k ≠ a)
    (hfree : ∀ j, v.held j ≠ some a) : (v.learn i own (some a)).Kept n where
  sound := by
    refine h.sound.learn (.inr (.inr ⟨a, rfl, ?_, fun j _ ↦ hfree j⟩))
    rintro ⟨n', k, hn', ha⟩
    rw [h.pool] at hn'
    cases hn'
    exact hslot k ha.symm
  pool := h.pool
  tight := h.tight.take hi
  hostSlot := h.hostSlot
  host := by
    intro j b hj
    rcases eq_or_ne j i with rfl | hji
    · simp only [View.learn, Function.update_self, Option.some.injEq] at hj
      exact hj ▸ hhost
    · simp only [View.learn, Function.update_of_ne hji] at hj
      exact h.host j b hj
  ne_own := by
    intro j b hj
    rcases eq_or_ne j i with rfl | hji
    · simp only [View.learn, Function.update_self, Option.some.injEq] at hj
      exact hj ▸ hne
    · simp only [View.learn, Function.update_of_ne hji] at hj
      rintro rfl
      exact hown j hj

end View

/-! ## Runs of an endpoint with a pool -/

def held (c : Ctx) (i : Slot) : Option (BitVec 32) := (c.links i).tunIp

/-- What the pool is for: live links have host addresses of their own, and a slot whose address
no live link has is free. -/
structure PoolSafe (n : Net) (c : Ctx) : Prop where
  distinct : ∀ i j a, held c i = some a → held c j = some a → i = j
  ne_own : ∀ i a, held c i = some a → a ≠ c.myTunIp
  host : ∀ i a, held c i = some a → n.IsHost a
  reusable : ∀ k, (∀ i, held c i ≠ some (n.slotAddr k)) → c.addrUsed k = 0

/-- A notification leaves every address that is held where it is. -/
def NotifyKeeps (c : Ctx) (e : Event) (c' : Ctx) : Prop :=
  ∀ s data, e = Event.recv s data → isCtrl data → Frame.type data = netNotify →
    ∀ i a, held c i = some a → held c' i = some a

/-- A packet is harmless to the pool `n`: a notification takes a slot below the broadcast address
of the network, and an acknowledgement names no address that a link holds as the endpoint's own
and, as the link's, the one it has or, if it has none, a host address outside the slots that
nobody has. -/
def PoolHarmless (n : Net) (c : Ctx) : Event → Prop
  | Event.recv s data =>
    (∀ g ∈ givenSlot c s data, n.HostSlot g.slot) ∧
      ∀ g ∈ acceptedAck c s data,
        (∀ j, held c j ≠ some ((ipv4Parse g.mine).getD 0)) ∧
          ∀ a ∈ ipv4Parse g.peer, a = g.link.peerTunIp ∨
            g.link.peerTunIp = 0 ∧ n.IsHost a ∧ a ≠ (ipv4Parse g.mine).getD 0 ∧
              (∀ k, n.slotAddr k ≠ a) ∧ ∀ j, held c j ≠ some a
  | _ => True

instance (n : Net) (c : Ctx) : (e : Event) → Decidable (PoolHarmless n c e)
  | Event.recv _ _ => inferInstanceAs (Decidable (_ ∧ _))
  | Event.dial _ | Event.tick _ | Event.release _ | Event.exchange _ _ | Event.openTun
  | Event.closeTun => inferInstanceAs (Decidable True)

theorem View.Kept.poolSafe {n : Net} {c : Ctx} (h : (view c).Kept n) : PoolSafe n c where
  distinct _ _ _ hi hj := h.sound.excl.inj hi hj
  ne_own := h.ne_own
  host := h.host
  reusable := by
    intro k hk
    by_contra hused
    obtain ⟨i, hi⟩ := h.tight (n.slotAddr k) ⟨n.slotAddr_ne_zero k, k, h.used_eq hused⟩
    exact hk i hi

theorem used_start (cfg : Cfg) (k : Slot) : (view (start cfg)).used k = 0 := by
  unfold start poolInit
  dsimp only
  repeat' split
  all_goals rfl

theorem held_start (cfg : Cfg) : (view (start cfg)).held = fun _ ↦ none := by
  unfold start poolInit
  dsimp only
  repeat' split
  all_goals rfl

theorem table_start (cfg : Cfg) : (view (start cfg)).table = ∅ := by
  ext a
  refine ⟨fun ⟨ha, k, hk⟩ ↦ (ha ?_).elim, fun ha ↦ ha.elim⟩
  rw [← hk, used_start]

theorem sound_start (cfg : Cfg) : (view (start cfg)).Sound where
  slot k hk := (hk (used_start cfg k)).elim
  uniq k _ hk _ := (hk (used_start cfg k)).elim
  excl := by
    rw [table_start, held_start]
    exact Lease.exclusive_empty

theorem kept_start {cfg : Cfg} {n : Net} (h : (start cfg).pool = some n) :
    (view (start cfg)).Kept n where
  sound := sound_start cfg
  pool := h
  tight := by
    rw [table_start]
    exact fun a ha ↦ ha.elim
  hostSlot k hk := (hk (used_start cfg k)).elim
  host := by simp [held_start]
  ne_own := by simp [held_start]

theorem kept_step {n : Net} {c : Ctx} {e : Event} (h : (view c).Kept n)
    (he : PoolHarmless n c e) : (view (step c e)).Kept n := by
  by_cases hrecv : ∃ s data, e = Event.recv s data
  · obtain ⟨s, data, rfl⟩ := hrecv
    obtain ⟨hgive, hack⟩ := he
    change (view (p2pRecv c s data).1).Kept n
    rcases view_p2pRecv c s data with hv | ⟨n', i, k, hg, hv⟩ |
      ⟨l, i, mine, peer, hg, l', hs', hip', hv⟩
    · rwa [hv]
    · obtain ⟨-, hn', hi, hk, hown⟩ := givenSlot_spec hg
      rw [h.pool] at hn'
      cases hn'
      rw [hv]
      exact h.give hk (hgive _ hg) hi hown
    · obtain ⟨-, hs, -, hheld, -⟩ := acceptedAck_spec hg
      obtain ⟨hown, hpeer⟩ := hack _ hg
      rw [hv]
      have hsame : l'.peerTunIp = l.peerTunIp →
          ((view c).learn i ((ipv4Parse mine).getD 0) l'.tunIp).Kept n := by
        intro hip
        rw [tunIp_congr hs' hip, ← hheld]
        exact h.learn_own hown
      cases hparse : ipv4Parse peer with
      | none => exact hsame (by rw [hip', hparse]; rfl)
      | some a =>
        rw [hparse] at hip'
        rcases hpeer a hparse with ha | ⟨hzero, hhost, hne, hslot, hfree⟩
        · exact hsame (hip'.trans ha)
        · have hnone : (view c).held i = none := hheld.trans (tunIp_of_ip hzero)
          by_cases ha0 : a = 0
          · exact hsame (hip'.trans (ha0.trans hzero.symm))
          · have hnew : l'.tunIp = some a :=
              tunIp_eq_some.mpr ⟨by simp [hs', hs], ha0, hip'⟩
            rw [hnew]
            exact h.learn_addr hown hnone hhost hne hslot hfree
  · exact view_step_of_drop (P := fun v ↦ v.Kept n) (fun v i hv ↦ hv.drop i) h
      (fun s data heq ↦ hrecv ⟨s, data, heq⟩)

theorem notifyKeeps_step (c : Ctx) (e : Event) : NotifyKeeps c e (step c e) := by
  rintro s data rfl - htype i a hi
  change (view (p2pRecv c s data).1).held i = some a
  have hi' : (view c).held i = some a := hi
  rcases view_p2pRecv c s data with hv | ⟨n, j, k, hg, hv⟩ | ⟨l, j, mine, peer, hg, -⟩
  · rwa [hv]
  · obtain ⟨-, -, hj, -⟩ := givenSlot_spec hg
    have hne : i ≠ j := by
      rintro rfl
      rw [hj] at hi'
      cases hi'
    rw [hv]
    simpa [View.give, Function.update_of_ne hne] using hi'
  · obtain ⟨hack, -⟩ := acceptedAck_spec hg
    rw [htype] at hack
    cases hack

/-- In a run of harmless packets every state keeps the links' addresses apart, inside the pool and
away from the endpoint's own, every notification keeps the addresses that are held, and every slot
that no live link has is free. -/
theorem poolSafe_run (cfg : Cfg) (n : Net) (es : List Event) (hpool : (start cfg).pool = some n)
    (hrun : Run.Steps step (fun c e _ ↦ PoolHarmless n c e) (start cfg) es) :
    PoolSafe n (start cfg) ∧
      Run.Steps step (fun c e c' ↦ PoolSafe n c' ∧ NotifyKeeps c e c') (start cfg) es := by
  have hstart := kept_start hpool
  refine ⟨hstart.poolSafe, ?_⟩
  refine (Run.Steps.of_invariant (I := fun c ↦ (view c).Kept n) hstart ?_ hrun).2
  intro c e hc he
  have hnext := kept_step hc he
  exact ⟨hnext, hnext.poolSafe, notifyKeeps_step c e⟩

/-- A callee with the address `10.0.0.1/24`: two peers come, one of them asks twice, and a third
takes the address of the first when that is gone. -/
theorem poolSafe_run_callee :
    let cfg : Cfg := ⟨none, ascii "10.0.0.1/24", [], []⟩
    let n : Net := ⟨0x0A000000, 24, by decide, by decide, by decide, by decide⟩
    let hello := ctrlFrame netNotify []
    let es := [Event.recv 1 hello, Event.recv 2 hello, Event.recv 1 hello, Event.release 0,
      Event.recv 3 hello]
    held (Run.final step (start cfg) es) 0 = some 0x0A000002 ∧ PoolSafe n (start cfg) ∧
      Run.Steps step (fun c e c' ↦ PoolSafe n c' ∧ NotifyKeeps c e c') (start cfg) es := by
  intro cfg n hello es
  exact ⟨by decide, poolSafe_run cfg n es (by decide) (by decide)⟩

/-- With the own address `10.0.0.1/32` the slots 2 and 3 are both `10.0.0.3`: two peers that each
send one notification get the same address. -/
theorem not_poolSafe_run_narrow :
    ¬∀ (cfg : Cfg) (n : Net) (es : List Event), (start cfg).pool = some n →
      PoolSafe n (start cfg) ∧
        Run.Steps step (fun c e c' ↦ PoolSafe n c' ∧ NotifyKeeps c e c') (start cfg) es := by
  intro h
  let cfg : Cfg := ⟨none, ascii "10.0.0.1/32", [], []⟩
  let n : Net := ⟨0x0A000001, 32, by decide, by decide, by decide, by decide⟩
  let hello := ctrlFrame netNotify []
  obtain ⟨-, -, ⟨hsafe, -⟩, -⟩ :=
    h cfg n [Event.recv 1 hello, Event.recv 2 hello] (by decide)
  have hsame := hsafe.distinct 0 1 0x0A000003 (by decide) (by decide)
  cases hsame

end Libobject.Vpn
