import Libobject.Vpn.Ctx
import Mathlib.Data.Fintype.Basic
import Mathlib.Data.List.FinRange
import Mathlib.Data.List.Perm.Basic

/-!
# The link of a packet

An outgoing packet goes to the peer that has its destination for an address, or else to the peer
with the longest network around the destination, or else to the only peer there is. A packet
without a destination, which reads as address 0, is dropped.
-/

namespace Libobject.Vpn

/-- What the scan over the links has come to. -/
structure Picking where
  best : Option Slot
  only : Option Slot
  nOnline : ℕ
  bestPrefix : ℤ

def Picking.init : Picking := ⟨none, none, 0, -1⟩

/-- One turn of the scan; an exact hit ends it. -/
def scanLink (c : Ctx) (dst : BitVec 32) (s : Picking) (i : Slot) : Except Slot Picking :=
  let l := c.links i
  if l.session = none then .ok s
  else
    let s := { s with nOnline := s.nOnline + 1, only := some i }
    if l.peerTunIp ≠ 0 ∧ l.peerTunIp = dst then .error i
    else
      match l.peerNet with
      | none => .ok s
      | some n =>
        if n.contains dst ∧ s.bestPrefix < n.prefixLen then
          .ok { s with best := some i, bestPrefix := n.prefixLen }
        else .ok s

def scanLinks (c : Ctx) (dst : BitVec 32) : List Slot → Picking → Except Slot Picking
  | [], s => .ok s
  | i :: todo, s =>
    match scanLink c dst s i with
    | .error best => .error best
    | .ok s => scanLinks c dst todo s

def linkPick (c : Ctx) (dst : BitVec 32) : Option Slot :=
  if dst = 0 then none
  else
    match scanLinks c dst (List.finRange maxLinks) Picking.init with
    | .error best => some best
    | .ok s => if s.best = none ∧ s.nOnline = 1 then s.only else s.best

/-! ## The choice -/

namespace Ctx

def Live (c : Ctx) (i : Slot) : Prop := (c.links i).session ≠ none

instance (c : Ctx) : DecidablePred c.Live := fun i ↦
  inferInstanceAs (Decidable ((c.links i).session ≠ none))

/-- A live link whose peer has the address. -/
def At (c : Ctx) (dst : BitVec 32) (i : Slot) : Prop := c.Live i ∧ (c.links i).peerTunIp = dst

/-- A live link whose peer has told a network around the address. -/
def Covers (c : Ctx) (dst : BitVec 32) (i : Slot) (n : Net) : Prop :=
  c.Live i ∧ (c.links i).peerNet = some n ∧ n.contains dst

end Ctx

/-- Which link a destination is to be sent on. -/
inductive Choice (c : Ctx) (dst : BitVec 32) : Option Slot → Prop
  | peer (i : Slot) (hat : c.At dst i) : Choice c dst (some i)
  | net (i : Slot) (n : Net) (hnone : ∀ j, ¬c.At dst j) (hcovers : c.Covers dst i n)
      (hlongest : ∀ j m, c.Covers dst j m → m.prefixLen ≤ n.prefixLen) : Choice c dst (some i)
  | only (i : Slot) (hnone : ∀ j, ¬c.At dst j) (hnet : ∀ j m, ¬c.Covers dst j m)
      (hlive : c.Live i) (honly : ∀ j, c.Live j → j = i) : Choice c dst (some i)
  | drop (hnone : ∀ j, ¬c.At dst j) (hnet : ∀ j m, ¬c.Covers dst j m)
      (hmany : ¬∃ i, c.Live i ∧ ∀ j, c.Live j → j = i) : Choice c dst none

/-! ## The scan -/

/-- The best of the links passed by the scan, with the length of its network. -/
inductive Longest (c : Ctx) (dst : BitVec 32) (done : List Slot) : Option Slot → ℤ → Prop
  | none (hnet : ∀ i ∈ done, ∀ n, ¬c.Covers dst i n) : Longest c dst done none (-1)
  | some (i : Slot) (n : Net) (hcovers : c.Covers dst i n)
      (hlongest : ∀ j ∈ done, ∀ m, c.Covers dst j m → m.prefixLen ≤ n.prefixLen) :
      Longest c dst done (some i) n.prefixLen

structure Picked (c : Ctx) (dst : BitVec 32) (done : List Slot) (s : Picking) : Prop where
  away : ∀ i ∈ done, ¬c.At dst i
  longest : Longest c dst done s.best s.bestPrefix
  nOnline_eq : s.nOnline = (done.filter fun i ↦ c.Live i).length
  only_eq : s.only = (done.filter fun i ↦ c.Live i).getLast?

theorem picked_init (c : Ctx) (dst : BitVec 32) : Picked c dst [] Picking.init where
  away := by simp
  longest := .none (by simp)
  nOnline_eq := rfl
  only_eq := rfl

namespace Longest

variable {c : Ctx} {dst : BitVec 32} {done : List Slot} {best : Option Slot} {len : ℤ} {i : Slot}

theorem skip (h : Longest c dst done best len)
    (hi : ∀ n, c.Covers dst i n → (n.prefixLen : ℤ) ≤ len) :
    Longest c dst (done ++ [i]) best len := by
  cases h with
  | none hnet =>
    refine .none fun j hj n hcovers ↦ ?_
    rcases List.mem_append.mp hj with hj | hj
    · exact hnet j hj n hcovers
    · obtain rfl := List.mem_singleton.mp hj
      have hle := hi n hcovers
      omega
  | some k m hk hlongest =>
    refine .some k m hk fun j hj n hcovers ↦ ?_
    rcases List.mem_append.mp hj with hj | hj
    · exact hlongest j hj n hcovers
    · obtain rfl := List.mem_singleton.mp hj
      exact Int.ofNat_le.mp (hi n hcovers)

theorem take {n : Net} (h : Longest c dst done best len) (hi : c.Covers dst i n)
    (hlt : len < n.prefixLen) : Longest c dst (done ++ [i]) (Option.some i) n.prefixLen := by
  refine .some i n hi fun j hj m hcovers ↦ ?_
  rcases List.mem_append.mp hj with hj | hj
  · cases h with
    | none hnet => exact absurd hcovers (hnet j hj m)
    | some k m' hk hlongest =>
      have hle := hlongest j hj m hcovers
      omega
  · obtain rfl := List.mem_singleton.mp hj
    have heq : m = n := Option.some.inj (hcovers.2.1.symm.trans hi.2.1)
    rw [heq]

end Longest

theorem scanLink_spec {c : Ctx} {dst : BitVec 32} (hdst : dst ≠ 0) {done : List Slot} {s : Picking}
    (h : Picked c dst done s) (i : Slot) :
    (scanLink c dst s i = .error i ∧ c.At dst i) ∨
      ∃ s', scanLink c dst s i = .ok s' ∧ Picked c dst (done ++ [i]) s' := by
  by_cases hdead : (c.links i).session = none
  · have hlive : ¬c.Live i := fun hlive ↦ hlive hdead
    refine .inr ⟨s, by rw [scanLink, if_pos hdead], ?_⟩
    constructor
    · simpa [or_imp, forall_and] using ⟨h.away, fun hat ↦ hlive hat.1⟩
    · exact h.longest.skip fun n hcovers ↦ absurd hcovers.1 hlive
    · simpa [List.filter_append, hlive] using h.nOnline_eq
    · simpa [List.filter_append, hlive] using h.only_eq
  · have hlive : c.Live i := hdead
    by_cases hhit : (c.links i).peerTunIp = dst
    · refine .inl ⟨?_, hlive, hhit⟩
      have hne : (c.links i).peerTunIp ≠ 0 := hhit ▸ hdst
      rw [scanLink, if_neg hdead]
      exact if_pos ⟨hne, hhit⟩
    · right
      have haway : ∀ j ∈ done ++ [i], ¬c.At dst j := by
        simpa [or_imp, forall_and] using ⟨h.away, fun hat : c.At dst i ↦ hhit hat.2⟩
      have honline : s.nOnline + 1 = ((done ++ [i]).filter fun i ↦ c.Live i).length := by
        simp [List.filter_append, hlive, h.nOnline_eq]
      have honly : some i = ((done ++ [i]).filter fun i ↦ c.Live i).getLast? := by
        simp [List.filter_append, hlive]
      rw [scanLink, if_neg hdead]
      dsimp only
      rw [if_neg fun hand ↦ hhit hand.2]
      cases hnet : (c.links i).peerNet with
      | none =>
        refine ⟨_, rfl, haway, ?_, honline, honly⟩
        refine h.longest.skip fun n hcovers ↦ ?_
        rw [hcovers.2.1] at hnet
        cases hnet
      | some n =>
        dsimp only
        by_cases hbetter : n.contains dst = true ∧ s.bestPrefix < n.prefixLen
        · rw [if_pos hbetter]
          have hbest := h.longest.take ⟨hlive, hnet, hbetter.1⟩ hbetter.2
          exact ⟨_, rfl, haway, hbest, honline, honly⟩
        · rw [if_neg hbetter]
          refine ⟨_, rfl, haway, ?_, honline, honly⟩
          refine h.longest.skip fun m hcovers ↦ ?_
          obtain rfl : n = m := Option.some.inj (hnet.symm.trans hcovers.2.1)
          exact not_lt.mp fun hlt ↦ hbetter ⟨hcovers.2.2, hlt⟩

theorem scanLinks_spec {c : Ctx} {dst : BitVec 32} (hdst : dst ≠ 0) (todo : List Slot)
    {done : List Slot} {s : Picking} (h : Picked c dst done s) :
    (∃ i, scanLinks c dst todo s = .error i ∧ c.At dst i) ∨
      ∃ s', scanLinks c dst todo s = .ok s' ∧ Picked c dst (done ++ todo) s' := by
  induction todo generalizing done s with
  | nil => exact .inr ⟨s, rfl, by simpa using h⟩
  | cons i todo ih =>
    rcases scanLink_spec hdst h i with ⟨hstep, hat⟩ | ⟨s', hstep, hs'⟩
    · exact .inl ⟨i, by rw [scanLinks, hstep], hat⟩
    · have hrest := ih hs'
      rw [List.append_assoc, List.singleton_append] at hrest
      rw [scanLinks, hstep]
      exact hrest

theorem live_eq_singleton_iff (c : Ctx) (i : Slot) :
    ((List.finRange maxLinks).filter fun i ↦ c.Live i) = [i] ↔
      c.Live i ∧ ∀ j, c.Live j → j = i := by
  constructor
  · intro hi
    have hmem (j : Slot) : j ∈ [i] ↔ c.Live j := by
      rw [← hi, List.mem_filter]
      simp
    exact ⟨(hmem i).mp (List.mem_singleton_self i), fun j hj ↦
      List.mem_singleton.mp ((hmem j).mpr hj)⟩
  · rintro ⟨hi, honly⟩
    apply List.perm_singleton.mp
    apply (List.perm_ext_iff_of_nodup ((List.nodup_finRange _).filter _)
      (List.nodup_singleton i)).mpr
    intro j
    simp only [List.mem_filter, List.mem_finRange, true_and, decide_eq_true_eq,
      List.mem_singleton]
    exact ⟨honly j, fun hj ↦ hj ▸ hi⟩

/-- A packet with a destination goes where it should, and one without is dropped. -/
theorem link_pick_chooses (c : Ctx) (dst : BitVec 32) :
    dst = 0 ∧ linkPick c dst = none ∨ dst ≠ 0 ∧ Choice c dst (linkPick c dst) := by
  by_cases hdst : dst = 0
  · exact .inl ⟨hdst, if_pos hdst⟩
  refine .inr ⟨hdst, ?_⟩
  rw [linkPick, if_neg hdst]
  rcases scanLinks_spec hdst (List.finRange maxLinks) (picked_init c dst) with
    ⟨i, hscan, hat⟩ | ⟨s, hscan, hs⟩
  · rw [hscan]
    exact .peer i hat
  · rw [hscan]
    have haway (j : Slot) : ¬c.At dst j := hs.away j (List.mem_finRange j)
    obtain ⟨-, hlongest, hcount, honly⟩ := hs
    rw [List.nil_append] at hlongest hcount honly
    obtain ⟨best, only, nOnline, bestPrefix⟩ := s
    dsimp only at hlongest hcount honly ⊢
    cases hlongest with
    | some i n hcovers hlen =>
      rw [if_neg (by simp)]
      exact .net i n haway hcovers fun j ↦ hlen j (List.mem_finRange j)
    | none hnet =>
      have hnone (j : Slot) : ∀ m, ¬c.Covers dst j m := hnet j (List.mem_finRange j)
      by_cases hone : nOnline = 1
      · rw [if_pos ⟨rfl, hone⟩]
        obtain ⟨i, hi⟩ := List.length_eq_one_iff.mp (hcount.symm.trans hone)
        obtain ⟨hlive, huniq⟩ := (live_eq_singleton_iff c i).mp hi
        rw [honly, hi]
        exact .only i haway hnone hlive huniq
      · rw [if_neg fun hand ↦ hone hand.2]
        refine .drop haway hnone fun ⟨i, hi⟩ ↦ hone ?_
        rw [hcount, (live_eq_singleton_iff c i).mpr hi, List.length_singleton]

/-- An endpoint with one live link, whose peer has told neither an address nor a network. -/
def lone : Ctx where
  cfg := ⟨some [97], [], [], []⟩
  tun := false
  nLinks := 1
  links i := if i = 0 then Link.open 7 true else Link.empty
  addrReady := false
  myTunIp := 0
  myTunIpText := []
  pool := none
  addrUsed _ := 0

/-- A packet without a destination is not sent on the only link. -/
theorem not_link_pick_chooses : ¬∀ c dst, Choice c dst (linkPick c dst) := by
  intro h
  have hzero : Choice lone 0 none := h lone 0
  cases hzero with
  | drop hnone hnet hmany =>
    refine hmany ⟨0, by decide, ?_⟩
    decide

end Libobject.Vpn
