import Mathlib.Data.Vector.Basic
import Mathlib.Data.Fintype.Defs
import Libobject.Stun.Response

/-!
# Binding responses as messages

What a server sends: the header, the cookie, the transaction and the attributes. The bytes of a
message, read into the memory of the header, leave an entry in the map for each of its addresses.
-/

namespace Libobject.Stun

open Scan Buffer

inductive Address
  | v4 (ip : List.Vector UInt8 4)
  | v6 (ip : List.Vector UInt8 16)
  deriving DecidableEq

namespace Address

def bytes : Address → List UInt8
  | v4 ip => ip.val
  | v6 ip => ip.val

def family : Address → UInt8
  | v4 _ => 1
  | v6 _ => 2

def isV4 : Address → Bool
  | v4 _ => true
  | v6 _ => false

end Address

structure Endpoint where
  address : Address
  port : UInt16
  deriving DecidableEq

/-- The texts that stand for an address. -/
def Endpoint.text (e : Endpoint) : MappedAddress :=
  ⟨dotted e.address.bytes, showNat e.port.toNat⟩

/-- The attributes that hold an address. -/
inductive Kind
  | mapped
  | xorMapped
  | changed
  deriving DecidableEq

instance : Fintype Kind where
  elems := ⟨↑[Kind.mapped, Kind.xorMapped, Kind.changed], by decide⟩
  complete k := by cases k <;> decide

def Kind.type : Kind → ℕ
  | mapped => STUN_ATR_TYPE_MAPPED_ADDR
  | xorMapped => STUN_ATR_TYPE_XOR_MAPPED_ADDR
  | changed => STUN_ATR_TYPE_CHANGED_ADDRESS

/-- What covers an address of that kind: the cookie and the transaction, or nothing. -/
def Kind.key (tid : List UInt8) : Kind → List UInt8
  | xorMapped => STUN_MAGIC_COOKIE ++ tid
  | mapped | changed => List.replicate 16 0

inductive Attribute
  | address (kind : Kind) (reserved : UInt8) (endpoint : Endpoint)
  | other (type : UInt16) (value pad : List UInt8)
  deriving DecidableEq

namespace Attribute

def WellFormed : Attribute → Prop
  | address .. => True
  | other type value pad =>
    (∀ k : Kind, type.toNat ≠ k.type) ∧ value.length < 2 ^ 16 ∧
      value.length + pad.length = (value.length + 3) / 4 * 4

instance : ∀ a : Attribute, Decidable a.WellFormed
  | address .. => inferInstanceAs (Decidable True)
  | other type value pad =>
    inferInstanceAs (Decidable ((∀ k : Kind, type.toNat ≠ k.type) ∧ value.length < 2 ^ 16 ∧
      value.length + pad.length = (value.length + 3) / 4 * 4))

def type : Attribute → ℕ
  | address kind .. => kind.type
  | other type .. => type.toNat

def value (tid : List UInt8) : Attribute → List UInt8
  | address kind reserved e =>
    reserved :: e.address.family ::
      (xor (beBytes 2 e.port.toNat) (kind.key tid) ++ xor e.address.bytes (kind.key tid))
  | other _ value _ => value

def pad : Attribute → List UInt8
  | address .. => []
  | other _ _ pad => pad

def bytes (tid : List UInt8) (a : Attribute) : List UInt8 :=
  beBytes 2 a.type ++ (beBytes 2 (a.value tid).length ++ (a.value tid ++ a.pad))

/-- No address of sixteen bytes. -/
def short : Attribute → Bool
  | address _ _ e => e.address.isV4
  | other .. => true

def endpoint? (k : Kind) : Attribute → Option Endpoint
  | address kind _ e => if kind = k then some e else none
  | other .. => none

end Attribute

/-- A well-formed binding response. -/
structure Message where
  tid : List.Vector UInt8 12
  attrs : List Attribute
  wellFormed : ∀ a ∈ attrs, a.WellFormed
  length_lt : (attrs.flatMap (Attribute.bytes tid.val)).length < 2 ^ 16

namespace Message

def body (m : Message) : List UInt8 := m.attrs.flatMap (Attribute.bytes m.tid.val)

def encode (m : Message) : List UInt8 :=
  beBytes 2 STUN_BINDRESP ++ (beBytes 2 m.body.length ++
    (STUN_MAGIC_COOKIE ++ (m.tid.val ++ m.body)))

/-- The addresses of one kind. -/
def carried (m : Message) (k : Kind) : List Endpoint := m.attrs.filterMap (Attribute.endpoint? k)

/-- The addresses that the server saw the request come from. -/
def mapped (m : Message) : List Endpoint :=
  if m.carried .xorMapped = [] then m.carried .mapped else m.carried .xorMapped

end Message


/-! ## Reading a message back -/

/-- What the loop does with an attribute, and the memory that this leaves in its place. -/
def Attribute.converted (tid : List UInt8) : Attribute → List UInt8
  | .address kind reserved e =>
    (beBytes 2 kind.type).reverse ++
      ((beBytes 2 ((Attribute.address kind reserved e).value tid).length).reverse ++
        reserved :: e.address.family :: (beBytes 2 e.port.toNat ++ e.address.bytes))
  | .other type value pad =>
    (beBytes 2 type.toNat).reverse ++ ((beBytes 2 value.length).reverse ++ (value ++ pad))

def Attribute.entry? : Attribute → Option (ℕ × MappedAddress)
  | .address kind _ e => some (kind.type, e.text)
  | .other .. => none

theorem find_policy_kind (k : Kind) : find_policy k.type = some parse_attrib_address := by
  cases k <;> rfl

theorem find_policy_eq_none {type : ℕ} (h : ∀ k : Kind, type ≠ k.type) :
    find_policy type = none := by
  have hmapped : ¬ STUN_ATR_TYPE_MAPPED_ADDR = type := fun heq ↦ h .mapped heq.symm
  have hxor : ¬ STUN_ATR_TYPE_XOR_MAPPED_ADDR = type := fun heq ↦ h .xorMapped heq.symm
  have hchanged : ¬ STUN_ATR_TYPE_CHANGED_ADDRESS = type := fun heq ↦ h .changed heq.symm
  simp [find_policy, stun_parse_attr_policies, hmapped, hxor, hchanged]

theorem Kind.type_inj {k k' : Kind} (h : k.type = k'.type) : k = k' := by
  revert h
  cases k <;> cases k' <;> decide

theorem length_xor {bs key : List UInt8} (h : bs.length ≤ key.length) :
    (xor bs key).length = bs.length := by
  rw [xor, List.length_zipWith, Nat.min_eq_left h]

theorem xor_cancel {bs key key' : List UInt8} (h : bs.length ≤ key.length)
    (hkey : key.take bs.length = key'.take bs.length) : xor (xor bs key) key' = bs := by
  induction bs generalizing key key' with
  | nil => simp [xor]
  | cons b bs ih =>
    cases key with
    | nil => simp at h
    | cons c key =>
      cases key' with
      | nil => simp at hkey
      | cons c' key' =>
        simp only [List.length_cons, List.take_succ_cons, List.cons.injEq] at hkey
        have htail := ih (by simpa using h) hkey.2
        have hhead : b ^^^ c ^^^ c' = b := by
          rw [← hkey.1, UInt8.xor_assoc, UInt8.xor_self, UInt8.xor_zero]
        simpa [xor, hhead] using htail

theorem xor_zeros {bs : List UInt8} {n : ℕ} (h : bs.length ≤ n) :
    xor bs (List.replicate n 0) = bs := by
  induction bs generalizing n with
  | nil => simp [xor]
  | cons b bs ih =>
    cases n with
    | zero => simp at h
    | succ n =>
      have htail := ih (by simpa using h)
      simpa [xor, List.replicate_succ] using htail

theorem ntohs_at {pre bs : List UInt8} {p : ℕ} (hp : pre.length = p) (hbs : bs.length = 2)
    (post : List UInt8) :
    ntohs (pre ++ (bs ++ post)) p = some (beNat bs, pre ++ (bs.reverse ++ post)) := by
  have hget := get_append hp hbs post
  have hput := put_over hp bs.length_reverse post
  simp only [ntohs, hget, Option.bind_eq_bind, Option.bind_some, hput]
  rfl

section Layout

variable {pre : List UInt8} {p : ℕ} (hp : pre.length = p) (r f : UInt8)
include hp

theorem getElem?_family (rest : List UInt8) : (pre ++ r :: f :: rest)[p + 1]? = some f := by
  rw [List.getElem?_append_right (by omega)]
  simp [hp]

variable {port : List UInt8} (hport : port.length = 2) (ip post : List UInt8)
include hport

theorem get_port : get (pre ++ r :: f :: (port ++ (ip ++ post))) (p + 2) 2 = some port := by
  have hhead : (pre ++ [r, f]).length = p + 2 := by simp [hp]
  have hget := get_append hhead hport (ip ++ post)
  simpa using hget

variable {ip}

theorem get_ip {n : ℕ} (hip : ip.length = n) :
    get (pre ++ r :: f :: (port ++ (ip ++ post))) (p + 4) n = some ip := by
  have hlen : (pre ++ r :: f :: port).length = p + 4 := by simp [hp, hport]
  have hget := get_append hlen hip post
  simpa using hget

theorem parse_attrib_address_at (hip : ip.length = 4) :
    parse_attrib_address (pre ++ r :: 1 :: (port ++ (ip ++ post))) p =
      some (some ⟨dotted ip, showNat (beNat port)⟩) := by
  have hfamily := getElem?_family hp r 1 (port ++ (ip ++ post))
  have hgetPort := get_port hp r 1 hport ip post
  have hgetIp := get_ip hp r 1 hport post hip
  simp only [parse_attrib_address, hfamily, Option.bind_eq_bind, Option.bind_some, hgetPort, ne_eq,
    not_true_eq_false, false_and, if_false, if_true, hgetIp]
  rfl

theorem xor_decode_at (hip : ip.length = 4) {cookie : List UInt8}
    (hcookie : get pre 4 4 = some cookie) :
    xor_decode_mapped_address (pre ++ r :: 1 :: (port ++ (ip ++ post))) p =
      some (pre ++ r :: 1 :: (xor port cookie ++
        (xor ip (cookie ++ cookie ++ cookie ++ cookie) ++ post))) := by
  have hlen := length_get hcookie
  have hfamily := getElem?_family hp r 1 (port ++ (ip ++ post))
  have hgetPort := get_port hp r 1 hport ip post
  have hxorPort : (xor port cookie).length = 2 := by rw [length_xor (by omega), hport]
  have hgetIp := get_ip hp r 1 hxorPort post hip
  have hputPort : put (pre ++ r :: 1 :: (port ++ (ip ++ post))) (p + 2) (xor port cookie) =
      some (pre ++ r :: 1 :: (xor port cookie ++ (ip ++ post))) := by
    have hhead : (pre ++ [r, 1]).length = p + 2 := by simp [hp]
    have hput := put_over hhead (hxorPort.trans hport.symm) (ip ++ post)
    simpa using hput
  have hputIp : put (pre ++ r :: 1 :: (xor port cookie ++ (ip ++ post))) (p + 4)
      (xor ip (cookie ++ cookie ++ cookie ++ cookie)) =
        some (pre ++ r :: 1 :: (xor port cookie ++
          (xor ip (cookie ++ cookie ++ cookie ++ cookie) ++ post))) := by
    have hpre : (pre ++ r :: 1 :: xor port cookie).length = p + 4 := by simp [hp, hxorPort]
    have hkey : ip.length ≤ (cookie ++ cookie ++ cookie ++ cookie).length := by
      simp only [List.length_append]
      omega
    have hput := put_over hpre (length_xor hkey) post
    simpa using hput
  have hgetCookie := get_append_left hcookie (r :: 1 :: (port ++ (ip ++ post)))
  simp only [xor_decode_mapped_address, hgetCookie, hfamily, hgetPort, hputPort, hgetIp, hputIp,
    Option.bind_eq_bind, Option.bind_some, if_true]

end Layout

theorem beNat_beBytes_two {n : ℕ} (h : n < 2 ^ 16) : beNat (beBytes 2 n) = n := by
  rw [beNat_beBytes]
  exact Nat.mod_eq_of_lt h

theorem Kind.length_key (kind : Kind) {tid : List UInt8} (htid : tid.length = 12) :
    (kind.key tid).length = 16 := by
  cases kind with
  | xorMapped =>
    rw [key, List.length_append, htid]
    rfl
  | mapped => exact List.length_replicate
  | changed => exact List.length_replicate

namespace Attribute

variable {tid : List UInt8}

theorem type_lt (a : Attribute) : a.type < 2 ^ 16 := by
  cases a with
  | address kind r e =>
    have hkind : ∀ k : Kind, k.type < 2 ^ 16 := by decide
    exact hkind kind
  | other type value pad => exact type.toNat_lt

theorem fields (kind : Kind) {e : Endpoint} (h : e.address.isV4)
    (htid : tid.length = 12) :
    e.address.family = 1 ∧ e.address.bytes.length = 4 ∧
      (xor (beBytes 2 e.port.toNat) (kind.key tid)).length = 2 ∧
        (xor e.address.bytes (kind.key tid)).length = 4 := by
  obtain ⟨ip | ip, port⟩ := e
  · have hip : ip.val.length = 4 := ip.2
    have hkey := kind.length_key htid
    refine ⟨rfl, hip, ?_, ?_⟩
    · rw [length_xor (by rw [hkey, length_beBytes]; decide), length_beBytes]
    · exact (length_xor (by rw [hkey, Address.bytes, hip]; decide)).trans hip
  · cases h

theorem length_value (kind : Kind) (r : UInt8) {e : Endpoint} (h : e.address.isV4)
    (htid : tid.length = 12) : ((address kind r e).value tid).length = 8 := by
  obtain ⟨-, -, hport, hip⟩ := fields kind h htid
  simp [value, hport, hip]

theorem length_bytes (a : Attribute) (tid : List UInt8) :
    (a.bytes tid).length = 4 + ((a.value tid).length + a.pad.length) := by
  simp only [bytes, List.length_append, length_beBytes]
  omega

theorem length_converted {a : Attribute} (hshort : a.short) (htid : tid.length = 12) :
    (a.converted tid).length = (a.bytes tid).length := by
  rw [length_bytes]
  cases a with
  | address kind r e =>
    obtain ⟨-, hip, -, -⟩ := fields kind hshort htid
    rw [length_value kind r hshort htid]
    simp [converted, pad, hip]
  | other type value pad =>
    simp only [converted, List.length_append, List.length_reverse, length_beBytes, Attribute.value,
      Attribute.pad]
    omega

theorem ntohs_head {pre : List UInt8} {p : ℕ} (hp : pre.length = p) {type len : ℕ}
    (htype : type < 2 ^ 16) (hlen : len < 2 ^ 16) (post : List UInt8) :
    ntohs (pre ++ (beBytes 2 type ++ (beBytes 2 len ++ post))) p =
        some (type, pre ++ ((beBytes 2 type).reverse ++ (beBytes 2 len ++ post))) ∧
      ntohs (pre ++ ((beBytes 2 type).reverse ++ (beBytes 2 len ++ post))) (p + 2) =
        some (len, pre ++ ((beBytes 2 type).reverse ++ ((beBytes 2 len).reverse ++ post))) := by
  have hfirst := ntohs_at hp (length_beBytes 2 type) (beBytes 2 len ++ post)
  have hlength : (pre ++ (beBytes 2 type).reverse).length = p + 2 := by simp [hp]
  have hsecond := ntohs_at hlength (length_beBytes 2 len) post
  rw [beNat_beBytes_two htype] at hfirst
  rw [beNat_beBytes_two hlen] at hsecond
  exact ⟨hfirst, by simpa only [List.append_assoc] using hsecond⟩

section Step

variable {pre : List UInt8} {p : ℕ} (hp : pre.length = p)
  (hcookie : get pre 4 4 = some STUN_MAGIC_COOKIE) (htid : tid.length = 12) (post : List UInt8)
include hp

theorem raw_attrib_other {type : UInt16} {value pad : List UInt8}
    (h : (other type value pad).WellFormed) :
    raw_attrib (pre ++ ((other type value pad).bytes tid ++ post)) p =
      some (type.toNat, ((other type value pad).bytes tid).length,
        pre ++ ((other type value pad).converted tid ++ post)) := by
  obtain ⟨hkind, hlen, hpad⟩ := h
  obtain ⟨htype, hlength⟩ := ntohs_head hp type.toNat_lt hlen (value ++ (pad ++ post))
  have hxor : ¬ type.toNat = STUN_ATR_TYPE_XOR_MAPPED_ADDR := hkind .xorMapped
  have htotal : 4 + (value.length + 3) / 4 * 4 = ((other type value pad).bytes tid).length := by
    rw [length_bytes]
    exact congrArg (4 + ·) hpad.symm
  rw [← htotal]
  simp only [bytes, Attribute.type, Attribute.value, Attribute.pad, converted, List.append_assoc,
    raw_attrib, htype, hlength, Option.bind_eq_bind, Option.bind_some, hxor, if_false]
  rfl

include hcookie htid

theorem raw_attrib_address {kind : Kind} {r : UInt8} {e : Endpoint} (h : e.address.isV4) :
    raw_attrib (pre ++ ((address kind r e).bytes tid ++ post)) p =
      some (kind.type, ((address kind r e).bytes tid).length,
        pre ++ ((address kind r e).converted tid ++ post)) := by
  obtain ⟨hfamily, hip, hxorPort, hxorIp⟩ := fields kind h htid
  have hport : (beBytes 2 e.port.toNat).length = 2 := length_beBytes 2 _
  have hlen := length_value kind r h htid
  have hbytes : ((address kind r e).bytes tid).length = 4 + (8 + 3) / 4 * 4 := by
    rw [length_bytes, hlen]
    rfl
  have hlt : ((address kind r e).value tid).length < 2 ^ 16 := by omega
  obtain ⟨htype, hlength⟩ := ntohs_head hp (type_lt (address kind r e)) hlt
    ((address kind r e).value tid ++ post)
  have hhead : (pre ++ ((beBytes 2 kind.type).reverse ++
      (beBytes 2 ((address kind r e).value tid).length).reverse)).length = p + 4 := by
    simp [hp]
  rw [Attribute.type] at htype hlength
  rw [hbytes, ← hlen]
  by_cases hkind : kind = .xorMapped
  · subst hkind
    have hdecode := xor_decode_at hhead r hxorPort post hxorIp (get_append_left hcookie _)
    have hportBack : xor (xor (beBytes 2 e.port.toNat) (Kind.xorMapped.key tid))
        STUN_MAGIC_COOKIE = beBytes 2 e.port.toNat := by
      apply xor_cancel
      · rw [hport, Kind.length_key _ htid]
        decide
      · rw [hport]
        rfl
    have hipBack : xor (xor e.address.bytes (Kind.xorMapped.key tid))
        (STUN_MAGIC_COOKIE ++ STUN_MAGIC_COOKIE ++ STUN_MAGIC_COOKIE ++ STUN_MAGIC_COOKIE) =
          e.address.bytes := by
      apply xor_cancel
      · rw [hip, Kind.length_key _ htid]
        decide
      · rw [hip]
        rfl
    have hvalue : xor_decode_mapped_address (pre ++ ((beBytes 2 Kind.xorMapped.type).reverse ++
        ((beBytes 2 ((address .xorMapped r e).value tid).length).reverse ++
          ((address .xorMapped r e).value tid ++ post)))) (p + 4) =
        some (pre ++ ((address .xorMapped r e).converted tid ++ post)) := by
      rw [hportBack, hipBack] at hdecode
      simpa only [value, converted, hfamily, List.append_assoc, List.cons_append] using hdecode
    have htype' : Kind.xorMapped.type = STUN_ATR_TYPE_XOR_MAPPED_ADDR := rfl
    simp only [bytes, Attribute.type, pad, List.append_nil, List.append_assoc, raw_attrib, htype,
      hlength, Option.bind_eq_bind, Option.bind_some, if_pos htype', hvalue]
    rfl
  · have hkey : kind.key tid = List.replicate 16 0 := by
      cases kind with
      | xorMapped => exact (hkind rfl).elim
      | mapped => rfl
      | changed => rfl
    have hvalue : (address kind r e).value tid =
        r :: e.address.family :: (beBytes 2 e.port.toNat ++ e.address.bytes) := by
      rw [value, hkey, xor_zeros (by omega), xor_zeros (by omega)]
    have hne : ¬ kind.type = STUN_ATR_TYPE_XOR_MAPPED_ADDR := fun heq ↦ hkind (Kind.type_inj heq)
    have hconverted : (beBytes 2 kind.type).reverse ++
        ((beBytes 2 ((address kind r e).value tid).length).reverse ++
          ((address kind r e).value tid ++ post)) = (address kind r e).converted tid ++ post := by
      rw [converted]
      simp only [hvalue, List.append_assoc, List.cons_append]
    rw [hconverted] at hlength
    simp only [bytes, Attribute.type, pad, List.append_nil, List.append_assoc, raw_attrib, htype,
      hlength, Option.bind_eq_bind, Option.bind_some, hne, if_false]
    rfl

end Step

theorem parse_converted {pre : List UInt8} {p : ℕ} (hp : pre.length = p) {kind : Kind} {r : UInt8}
    {e : Endpoint} (h : e.address.isV4) (htid : tid.length = 12) (post : List UInt8) :
    parse_attrib_address (pre ++ ((address kind r e).converted tid ++ post)) (p + 4) =
      some (some e.text) := by
  obtain ⟨hfamily, hip, -, -⟩ := fields kind h htid
  have hhead : (pre ++ ((beBytes 2 kind.type).reverse ++
      (beBytes 2 ((address kind r e).value tid).length).reverse)).length = p + 4 := by
    simp [hp]
  have hparse := parse_attrib_address_at hhead r (length_beBytes 2 e.port.toNat) post hip
  rw [beNat_beBytes_two e.port.toNat_lt] at hparse
  simpa only [Endpoint.text, converted, hfamily, List.append_assoc, List.cons_append] using hparse

end Attribute

theorem read_attribs_attrs (rb : Rebalance (ℕ × MappedAddress)) {tid : List UInt8}
    (htid : tid.length = 12) {attrs : List Attribute} (hwf : ∀ a ∈ attrs, a.WellFormed)
    (hshort : ∀ a ∈ attrs, a.short) {msglen fuel i : ℕ} {pre : List UInt8}
    (hpre : pre.length = 20 + i) (hcookie : get pre 4 4 = some STUN_MAGIC_COOKIE)
    (hlen : i + (attrs.flatMap (Attribute.bytes tid)).length = msglen) (hfuel : msglen ≤ i + fuel)
    (post : List UInt8) (map : Attribs) :
    ∃ mem map', read_attribs rb msglen fuel i
        (pre ++ (attrs.flatMap (Attribute.bytes tid) ++ post)) map = some (1, mem, map') ∧
      mem.length = (pre ++ (attrs.flatMap (Attribute.bytes tid) ++ post)).length ∧
      ∀ x, x ∈ map'.entries ↔ x ∈ attrs.filterMap Attribute.entry? ∨ x ∈ map.entries := by
  induction attrs generalizing fuel i pre map with
  | nil =>
    refine ⟨_, map, ?_, rfl, by simp⟩
    have hend : msglen ≤ i := by simpa using hlen.ge
    cases fuel with
    | zero => rfl
    | succ fuel => rw [read_attribs, if_pos hend]
  | cons a attrs ih =>
    have ha := hwf a List.mem_cons_self
    have hbytes := a.length_bytes tid
    rw [List.flatMap_cons, List.length_append] at hlen
    obtain ⟨fuel, rfl⟩ := Nat.exists_eq_succ_of_ne_zero (n := fuel) (by omega)
    have hmore : ¬ msglen ≤ i := by omega
    have hconv := Attribute.length_converted (hshort a List.mem_cons_self) htid
    -- the rest is read behind the attribute as it is left in the memory
    have hrest : ∀ map : Attribs, ∃ mem map',
        read_attribs rb msglen fuel (i + (a.bytes tid).length)
          (pre ++ (a.converted tid ++ (attrs.flatMap (Attribute.bytes tid) ++ post))) map =
            some (1, mem, map') ∧
        mem.length = (pre ++ (a.bytes tid ++
          (attrs.flatMap (Attribute.bytes tid) ++ post))).length ∧
        ∀ x, x ∈ map'.entries ↔ x ∈ attrs.filterMap Attribute.entry? ∨ x ∈ map.entries := by
      intro map
      have hpre' : (pre ++ a.converted tid).length = 20 + (i + (a.bytes tid).length) := by
        rw [List.length_append, hpre, hconv]
        omega
      have hfuel' : msglen ≤ i + (a.bytes tid).length + fuel := by omega
      obtain ⟨mem, map', hread, hmem, hmap⟩ := ih
        (fun b hb ↦ hwf b (List.mem_cons_of_mem a hb))
        (fun b hb ↦ hshort b (List.mem_cons_of_mem a hb)) hpre' (get_append_left hcookie _)
        (by omega) hfuel' map
      rw [List.append_assoc] at hread hmem
      refine ⟨mem, map', hread, hmem.trans ?_, hmap⟩
      simp only [List.length_append, hconv]
    rw [List.flatMap_cons, List.append_assoc]
    rw [read_attribs, if_neg hmore]
    cases a with
    | address kind r e =>
      have he : e.address.isV4 := hshort _ List.mem_cons_self
      obtain ⟨mem, map', hread, hmem, hmap⟩ := hrest (map.add rb kind.type e.text)
      refine ⟨mem, map', ?_, hmem, ?_⟩
      · rw [Attribute.raw_attrib_address hpre hcookie htid _ he]
        simp only [Option.bind_eq_bind, Option.bind_some, find_policy_kind,
          Attribute.parse_converted hpre he htid, hread]
      · intro x
        have hadd := (RbTreeMap.entries_add rb map kind.type e.text).mem_iff (a := x)
        rw [hmap, hadd, List.filterMap_cons, Attribute.entry?]
        simp only [List.mem_cons]
        tauto
    | other type value pad =>
      obtain ⟨mem, map', hread, hmem, hmap⟩ := hrest map
      refine ⟨mem, map', ?_, hmem, ?_⟩
      · rw [Attribute.raw_attrib_other hpre _ ha]
        simp only [Option.bind_eq_bind, Option.bind_some, find_policy_eq_none ha.1, hread]
      · intro x
        rw [hmap, List.filterMap_cons, Attribute.entry?]

end Libobject.Stun
