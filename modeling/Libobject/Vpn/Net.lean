import Mathlib.Data.BitVec
import Mathlib.Data.Nat.Bitwise
import Mathlib.Data.Fintype.Basic
import Libobject.Lib.Scan

/-!
# Tunnel addresses and networks

Addresses are in host order. A network is accepted in the form `a.b.c.d/len` and stored as its
network address and prefix length, and the slots of the address pool are or-ed into it.
-/

namespace Libobject.Vpn

open Scan

/-! ## Networks -/

def maskOf (len : ℕ) : BitVec 32 :=
  if len = 32 then 0xFFFFFFFF else 0xFFFFFFFF <<< (32 - len)

/-- `vpn_net_t`: a network address, with no host bits, and its prefix length. -/
structure Net where
  net : BitVec 32
  prefixLen : ℕ
  one_le : 1 ≤ prefixLen
  le_32 : prefixLen ≤ 32
  masked : net &&& maskOf prefixLen = net
  ne_zero : net ≠ 0
  deriving DecidableEq

def Net.mask (n : Net) : BitVec 32 := maskOf n.prefixLen

def Net.contains (n : Net) (ip : BitVec 32) : Bool := ip &&& n.mask = n.net

/-- The four numbers of a dotted address as one word, if each of them is a byte. -/
def quadWord : BitVec 32 × BitVec 32 × BitVec 32 × BitVec 32 → Option (BitVec 32)
  | (a, b, c, d) =>
    if a.toNat ≤ 255 ∧ b.toNat ≤ 255 ∧ c.toNat ≤ 255 ∧ d.toNat ≤ 255 then
      some (a <<< 24 ||| b <<< 16 ||| c <<< 8 ||| d)
    else none

/-- An address, with whatever follows a slash behind it. -/
def ipv4Parse (s : Text) : Option (BitVec 32) :=
  match scanQuad s with
  | none => none
  | some (q, []) => quadWord q
  | some (q, c :: _) => if c = 47 then quadWord q else none

/-- The network of an address and a prefix length, unless it is `0.0.0.0`. -/
def netOf (ip : BitVec 32) (len : ℕ) : Option Net :=
  if h : (1 ≤ len ∧ len ≤ 32) ∧ ip &&& maskOf len ≠ 0 then
    some ⟨ip &&& maskOf len, len, h.1.1, h.1.2, by simp [BitVec.and_assoc], h.2⟩
  else none

/-- The longest text of a network or a payload, with the terminating zero. -/
def cidrMax : ℕ := 64

def netParse (s : Text) : Option Net :=
  if s = [] ∨ cidrMax ≤ s.length then none
  else do
    let (q, rest) ← scanQuad s
    let (len, rest) ← scanUnsigned (← scanByte 47 rest)
    if rest ≠ [] then none
    else
      let ip ← quadWord q
      netOf ip len.toNat

def leadingOnes : ℕ → BitVec 32 → ℕ
  | 0, _ => 0
  | n + 1, m => if m.msb then leadingOnes n (m <<< 1) + 1 else 0

/-- The length of a netmask, dotted or a number, and 24 for anything else. -/
def netmaskLen (s : Text) : ℕ :=
  if s = [] then 24
  else if 46 ∉ s then
    if 0 < atoi s ∧ atoi s ≤ 32 then (atoi s).toNat else 24
  else
    match scanQuad s with
    | none => 24
    | some (q, _) =>
      match quadWord q with
      | none => 24
      | some m => leadingOnes 32 m

/-- What `snprintf` leaves in a buffer of `size` bytes. -/
def snprintf (size : ℕ) (s : Text) : Text := s.take (size - 1)

def netStr (n : Net) : Text := showQuad n.net n.prefixLen

def ipv4Str (ip : BitVec 32) (len : ℕ) : Text := showQuad ip len

/-! ## Slots of the pool -/

/-- The number of peer links, which is also the number of slots of the pool. -/
abbrev maxLinks : ℕ := 8

abbrev Slot := Fin maxLinks

def Net.slotAddr (n : Net) (i : Slot) : BitVec 32 := n.net ||| BitVec.ofNat 32 (i + 1)

def Net.hostPart (n : Net) (ip : BitVec 32) : BitVec 32 := ip &&& ~~~n.mask

/-- An address of the network that is neither the network's own nor its broadcast address. -/
def Net.IsHost (n : Net) (ip : BitVec 32) : Prop :=
  n.contains ip ∧ n.hostPart ip ≠ 0 ∧ n.hostPart ip ≠ ~~~n.mask

/-- The slot's number lies below the broadcast address of the network. -/
def Net.HostSlot (n : Net) (i : Slot) : Prop := (i : ℕ) + 1 < 2 ^ (32 - n.prefixLen) - 1

instance (n : Net) (ip : BitVec 32) : Decidable (n.IsHost ip) :=
  inferInstanceAs (Decidable (_ ∧ _))

instance (n : Net) (i : Slot) : Decidable (n.HostSlot i) := inferInstanceAs (Decidable (_ < _))

theorem toNat_not_mask (n : Net) : (~~~n.mask).toNat = 2 ^ (32 - n.prefixLen) - 1 := by
  have key : ∀ len : Fin 33, (~~~maskOf len).toNat = 2 ^ (32 - (len : ℕ)) - 1 := by decide
  exact key ⟨n.prefixLen, Nat.lt_succ_of_le n.le_32⟩

theorem Net.and_not_mask (n : Net) {x : BitVec 32} (hx : x.toNat < 2 ^ (32 - n.prefixLen)) :
    x &&& ~~~n.mask = x := by
  apply BitVec.eq_of_toNat_eq
  rw [BitVec.toNat_and, toNat_not_mask, Nat.and_two_pow_sub_one_eq_mod, Nat.mod_eq_of_lt hx]

theorem Net.hostPart_net (n : Net) : n.hostPart n.net = 0 := by
  rw [hostPart, ← n.masked, BitVec.and_assoc]
  simp [Net.mask]

theorem Net.HostSlot.lt {n : Net} {i : Slot} (h : n.HostSlot i) :
    (i : ℕ) + 1 < 2 ^ (32 - n.prefixLen) := by
  unfold HostSlot at h
  omega

theorem toNat_slotNumber (i : Slot) : (BitVec.ofNat 32 ((i : ℕ) + 1)).toNat = i + 1 := by
  have hi : (i : ℕ) < 8 := i.isLt
  rw [BitVec.toNat_ofNat, Nat.mod_eq_of_lt (by omega)]

theorem Net.hostPart_slotAddr {n : Net} {i : Slot} (h : n.HostSlot i) :
    n.hostPart (n.slotAddr i) = BitVec.ofNat 32 (i + 1) := by
  have hnum := n.and_not_mask (x := BitVec.ofNat 32 (i + 1)) (by
    rw [toNat_slotNumber]
    exact h.lt)
  have hnet := n.hostPart_net
  unfold hostPart at hnet
  rw [hostPart, slotAddr, BitVec.and_or_distrib_right, hnet, hnum]
  exact BitVec.zero_or

theorem Net.slotAddr_inj {n : Net} {i j : Slot} (hi : n.HostSlot i) (hj : n.HostSlot j)
    (h : n.slotAddr i = n.slotAddr j) : i = j := by
  have hpart := congrArg (fun ip ↦ (n.hostPart ip).toNat) h
  simp only [hostPart_slotAddr hi, hostPart_slotAddr hj, toNat_slotNumber] at hpart
  exact Fin.ext (by omega)

theorem Net.isHost_slotAddr {n : Net} {i : Slot} (h : n.HostSlot i) : n.IsHost (n.slotAddr i) := by
  have hpart := n.hostPart_slotAddr h
  have hne : ∀ {b : BitVec 32}, b.toNat ≠ i + 1 → n.hostPart (n.slotAddr i) ≠ b := by
    intro b hb heq
    rw [← heq, hpart, toNat_slotNumber] at hb
    exact hb rfl
  refine ⟨?_, hne (by simp), hne ?_⟩
  · have hsplit : n.slotAddr i &&& n.mask = n.net := by
      have hnum : BitVec.ofNat 32 ((i : ℕ) + 1) &&& n.mask = 0 := by
        rw [← n.and_not_mask (x := BitVec.ofNat 32 ((i : ℕ) + 1)) (by
          rw [toNat_slotNumber]
          exact h.lt), BitVec.and_assoc]
        simp
      rw [slotAddr, BitVec.and_or_distrib_right, hnum]
      exact BitVec.or_zero.trans n.masked
    simp [contains, hsplit]
  · unfold HostSlot at h
    rw [toNat_not_mask]
    omega

theorem Net.slotAddr_ne_zero (n : Net) (i : Slot) : n.slotAddr i ≠ 0 := by
  intro h
  exact n.ne_zero (BitVec.or_eq_zero_iff.mp h).1

end Libobject.Vpn
