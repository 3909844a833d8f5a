import Libobject.Stun.Bounds
import Libobject.Turn.Response

/-!
# Responses of a TURN server as a reader

The parsers differ in what they do to the memory of an attribute; each of them then keeps its
address. None gives up, and none looks at the length but for copying a text.
-/

namespace Libobject.Turn

open Buffer Stride
open Stun (Receiver Reader ntohs xor lenAt typeAt ntohs_some ntohs_drop ntohs_append
  ntohs_inside length_xor)

/-! ## What the parsers do to the memory -/

/-- `fits` tells when an action stays in the memory, which it leaves at its size. -/
structure Bounded (act : List UInt8 → ℕ → Option (List UInt8)) (fits : List UInt8 → ℕ → Prop) :
    Prop where
  isSome_iff : ∀ {mem p}, 20 ≤ p → p + 4 ≤ mem.length → ((act mem p).isSome ↔ fits mem p)
  length_eq : ∀ {mem p mem'}, act mem p = some mem' → mem'.length = mem.length
  append : ∀ {mem p mem'}, act mem p = some mem' → ∀ post,
    act (mem ++ post) p = some (mem' ++ post)

/-- As far as an address goes. -/
def AddressFits (mem : List UInt8) (p : ℕ) : Prop :=
  p + (if mem[p + 5]? = some 1 then 12 else 8) ≤ mem.length

theorem addressFits_iff {mem : List UInt8} {p : ℕ} {family : UInt8}
    (h : mem[p + 5]? = some family) :
    AddressFits mem p ↔ p + 8 + (if family = 1 then 4 else 0) ≤ mem.length := by
  rw [AddressFits, h]
  by_cases hone : family = 1
  · rw [if_pos hone, if_pos (congrArg some hone)]
  · rw [if_neg hone, if_neg (fun h ↦ hone (Option.some.inj h)), Nat.add_zero]

theorem AddressFits.port {mem : List UInt8} {p : ℕ} (h : AddressFits mem p) :
    ∃ n mem' family, ntohs mem (p + 6) = some (n, mem') ∧ mem'.length = mem.length ∧
      mem[p + 5]? = some family ∧ mem'[p + 5]? = some family ∧
        p + 8 + (if family = 1 then 4 else 0) ≤ mem.length := by
  have h8 : p + 8 ≤ mem.length := by
    rw [AddressFits] at h
    split at h <;> omega
  have h6 : p + 6 + 2 ≤ mem.length := by omega
  obtain ⟨mem', hport, hlen, hsame⟩ := ntohs_inside h6
  have hfamily : mem[p + 5]? = some mem[p + 5] := List.getElem?_eq_getElem (by omega)
  exact ⟨_, mem', mem[p + 5], hport, hlen, hfamily, (hsame _ (Or.inl (by omega))).trans hfamily,
    (addressFits_iff hfamily).mp h⟩

theorem show_address_eq_some {mem mem' : List UInt8} {p : ℕ} :
    show_address mem p = some mem' ↔ ∃ n family ip, ntohs mem (p + 6) = some (n, mem') ∧
      mem'[p + 5]? = some family ∧ get mem' (p + 8) (if family = 1 then 4 else 0) = some ip := by
  simp only [show_address, Option.bind_eq_bind, Option.bind_eq_some_iff]
  constructor
  · rintro ⟨⟨n, mem₁⟩, hport, family, hfamily, ip, hip, heq⟩
    obtain rfl := Option.some.inj heq
    exact ⟨n, family, ip, hport, hfamily, hip⟩
  · rintro ⟨n, family, ip, hport, hfamily, hip⟩
    exact ⟨(n, mem'), hport, family, hfamily, ip, hip, rfl⟩

theorem show_address_bounded : Bounded show_address AddressFits where
  isSome_iff {mem p} h20 hp := by
    rw [Option.isSome_iff_exists]
    constructor
    · rintro ⟨mem', h⟩
      obtain ⟨n, family, ip, hport, hfamily, hip⟩ := show_address_eq_some.mp h
      obtain ⟨-, -, hlen, hsame⟩ := ntohs_some hport
      rw [hsame _ (Or.inl (by omega))] at hfamily
      rw [addressFits_iff hfamily, ← hlen]
      exact get_isSome.mp (Option.isSome_of_eq_some hip)
    · intro h
      obtain ⟨n, mem', family, hport, hlen, -, hfamily, hreach⟩ := h.port
      obtain ⟨ip, hip⟩ := Option.isSome_iff_exists.mp (get_isSome.mpr (hreach.trans_eq hlen.symm))
      exact ⟨mem', show_address_eq_some.mpr ⟨n, family, ip, hport, hfamily, hip⟩⟩
  length_eq h := by
    obtain ⟨n, family, ip, hport, -, -⟩ := show_address_eq_some.mp h
    exact (ntohs_some hport).2.2.1
  append {mem p mem'} h post := by
    obtain ⟨n, family, ip, hport, hfamily, hip⟩ := show_address_eq_some.mp h
    exact show_address_eq_some.mpr ⟨n, family, ip, ntohs_append hport post,
      getElem?_append hfamily post, get_append_left hip post⟩

theorem decode_address_eq_some {mem mem' : List UInt8} {p : ℕ} :
    decode_address mem p = some mem' ↔ ∃ cookie n mem₁ port mem₂ family ip,
      get mem 4 4 = some cookie ∧ ntohs mem (p + 6) = some (n, mem₁) ∧
        get mem₁ (p + 6) 2 = some port ∧
          put mem₁ (p + 6) (xor port (cookie.take 2).reverse) = some mem₂ ∧
            mem₂[p + 5]? = some family ∧
              get mem₂ (p + 8) (if family = 1 then 4 else 0) = some ip ∧
                put mem₂ (p + 8) (xor ip cookie) = some mem' := by
  simp only [decode_address, Option.bind_eq_bind, Option.bind_eq_some_iff]
  constructor
  · rintro ⟨cookie, hcookie, ⟨n, mem₁⟩, hntohs, port, hport, mem₂, hput, family, hfamily, ip, hip,
      hput'⟩
    exact ⟨cookie, n, mem₁, port, mem₂, family, ip, hcookie, hntohs, hport, hput, hfamily, hip,
      hput'⟩
  · rintro ⟨cookie, n, mem₁, port, mem₂, family, ip, hcookie, hntohs, hport, hput, hfamily, hip,
      hput'⟩
    exact ⟨cookie, hcookie, (n, mem₁), hntohs, port, hport, mem₂, hput, family, hfamily, ip, hip,
      hput'⟩

theorem decode_address_bounded : Bounded decode_address AddressFits where
  isSome_iff {mem p} h20 hp := by
    rw [Option.isSome_iff_exists]
    constructor
    · rintro ⟨mem', h⟩
      obtain ⟨cookie, n, mem₁, port, mem₂, family, ip, -, hntohs, -, hput, hfamily, hip, -⟩ :=
        decode_address_eq_some.mp h
      obtain ⟨-, -, hlen, hsame⟩ := ntohs_some hntohs
      rw [getElem?_put hput (Or.inl (by omega)), hsame _ (Or.inl (by omega))] at hfamily
      rw [addressFits_iff hfamily, ← hlen, ← length_put hput]
      exact get_isSome.mp (Option.isSome_of_eq_some hip)
    · intro h
      obtain ⟨n, mem₁, family, hntohs, hlen, -, hfamily, hreach⟩ := h.port
      obtain ⟨cookie, hcookie⟩ := Option.isSome_iff_exists.mp
        (get_isSome.mpr (by omega) : (get mem 4 4).isSome)
      obtain ⟨port, hport⟩ := Option.isSome_iff_exists.mp
        (get_isSome.mpr (by omega) : (get mem₁ (p + 6) 2).isSome)
      have hxor : (xor port (cookie.take 2).reverse).length = 2 := by
        rw [length_xor, length_get hport]
        rw [List.length_reverse, List.length_take, length_get hcookie, length_get hport]
        decide
      obtain ⟨mem₂, hput⟩ := Option.isSome_iff_exists.mp
        (put_isSome.mpr (by omega) :
          (put mem₁ (p + 6) (xor port (cookie.take 2).reverse)).isSome)
      have hlen₂ := length_put hput
      obtain ⟨ip, hip⟩ := Option.isSome_iff_exists.mp (get_isSome.mpr (by omega) :
        (get mem₂ (p + 8) (if family = 1 then 4 else 0)).isSome)
      have hxor' : (xor ip cookie).length = if family = 1 then 4 else 0 := by
        rw [length_xor, length_get hip]
        rw [length_get hip, length_get hcookie]
        split <;> decide
      obtain ⟨mem', hput'⟩ := Option.isSome_iff_exists.mp
        (put_isSome.mpr (by omega) : (put mem₂ (p + 8) (xor ip cookie)).isSome)
      have hfamily₂ : mem₂[p + 5]? = some family := by
        rw [getElem?_put hput (Or.inl (by omega)), hfamily]
      exact ⟨mem', decode_address_eq_some.mpr ⟨cookie, n, mem₁, port, mem₂, family, ip, hcookie,
        hntohs, hport, hput, hfamily₂, hip, hput'⟩⟩
  length_eq h := by
    obtain ⟨cookie, n, mem₁, port, mem₂, family, ip, -, hntohs, -, hput, -, -, hput'⟩ :=
      decode_address_eq_some.mp h
    rw [length_put hput', length_put hput, (ntohs_some hntohs).2.2.1]
  append {mem p mem'} h post := by
    obtain ⟨cookie, n, mem₁, port, mem₂, family, ip, hcookie, hntohs, hport, hput, hfamily, hip,
      hput'⟩ := decode_address_eq_some.mp h
    exact decode_address_eq_some.mpr ⟨cookie, n, mem₁ ++ post, port, mem₂ ++ post, family, ip,
      get_append_left hcookie post, ntohs_append hntohs post, get_append_left hport post,
      put_append_left hput post, getElem?_append hfamily post, get_append_left hip post,
      put_append_left hput' post⟩

/-- The length that was converted before. -/
def textLen (mem : List UInt8) (p : ℕ) : ℕ := leNat (field mem (p + 2) 2)

/-- The text lies inside, and its copy ends in the array. -/
def TextFits (mem : List UInt8) (p : ℕ) : Prop :=
  p + 4 + textLen mem p ≤ mem.length ∧ (textLen mem p < 128 ∨
    textLen mem p = 128 ∧ 0 ∈ field mem (p + 4) 128)

theorem show_text_eq_some {mem mem' : List UInt8} {p : ℕ} :
    show_text mem p = some mem' ↔ mem = mem' ∧ 0 ∈ mem.drop p := by
  rw [show_text, Option.ite_none_right_eq_some, Option.some.injEq]
  exact and_comm

theorem zero_mem_copy {value buf : List UInt8}
    (h : put (List.replicate 128 (0 : UInt8)) 0 value = some buf) :
    0 ∈ buf ↔ value.length < 128 ∨ value.length = 128 ∧ 0 ∈ value := by
  have hroom := put_isSome.mp (Option.isSome_of_eq_some h)
  rw [List.length_replicate, Nat.zero_add] at hroom
  obtain rfl : value ++ List.replicate (128 - value.length) 0 = buf := by
    rw [put, if_pos (by rw [List.length_replicate]; omega), List.take_zero, List.nil_append,
      List.drop_replicate, Nat.zero_add] at h
    exact Option.some.inj h
  rw [List.mem_append, List.mem_replicate]
  by_cases hlt : value.length < 128
  · exact iff_of_true (Or.inr ⟨by omega, rfl⟩) (Or.inl hlt)
  · have heq : value.length = 128 := by omega
    simp [heq]

theorem copy_text_eq_some {mem mem' : List UInt8} {p : ℕ} :
    copy_text mem p = some mem' ↔ mem = mem' ∧ p + 4 ≤ mem.length ∧ TextFits mem p := by
  simp only [copy_text, Option.bind_eq_bind, Option.bind_eq_some_iff]
  constructor
  · rintro ⟨bs, hbs, value, hvalue, buf, hbuf, buf', hshow, heq⟩
    have hp := get_isSome.mp (Option.isSome_of_eq_some hbs)
    have hbs' : field mem (p + 2) 2 = bs := Option.some.inj ((if_pos hp).symm.trans hbs)
    have hreach := get_isSome.mp (Option.isSome_of_eq_some hvalue)
    have hvalue' : field mem (p + 4) (leNat bs) = value :=
      Option.some.inj ((if_pos hreach).symm.trans hvalue)
    have hend := (zero_mem_copy hbuf).mp (show_text_eq_some.mp hshow).2
    rw [length_get hvalue, ← hvalue'] at hend
    rw [TextFits, textLen, hbs']
    refine ⟨Option.some.inj heq, hp, hreach, hend.imp_right fun ⟨hlen, hzero⟩ ↦ ⟨hlen, ?_⟩⟩
    rwa [hlen] at hzero
  · rintro ⟨rfl, hp, hreach, hend⟩
    obtain ⟨value, hvalue⟩ := Option.isSome_iff_exists.mp (get_isSome.mpr hreach)
    have hvalue' : field mem (p + 4) (textLen mem p) = value :=
      Option.some.inj ((if_pos hreach).symm.trans hvalue)
    have hcopy : (put (List.replicate 128 (0 : UInt8)) 0 value).isSome := by
      rw [put_isSome, length_get hvalue, List.length_replicate, Nat.zero_add]
      omega
    obtain ⟨buf, hbuf⟩ := Option.isSome_iff_exists.mp hcopy
    have hzero : 0 ∈ buf := by
      rw [zero_mem_copy hbuf, length_get hvalue, ← hvalue']
      refine hend.imp_right fun ⟨hlen, hzero⟩ ↦ ⟨hlen, ?_⟩
      rwa [hlen]
    exact ⟨_, if_pos hp, value, hvalue, buf, hbuf, buf, show_text_eq_some.mpr ⟨rfl, hzero⟩, rfl⟩

theorem copy_text_bounded : Bounded copy_text TextFits where
  isSome_iff {mem p} h20 hp := by
    rw [Option.isSome_iff_exists]
    constructor
    · rintro ⟨mem', h⟩
      exact (copy_text_eq_some.mp h).2.2
    · exact fun h ↦ ⟨mem, copy_text_eq_some.mpr ⟨rfl, hp, h⟩⟩
  length_eq h := by rw [(copy_text_eq_some.mp h).1]
  append {mem p mem'} h post := by
    obtain ⟨rfl, hp, hreach, hend⟩ := copy_text_eq_some.mp h
    have hlen : textLen (mem ++ post) p = textLen mem p := by
      rw [textLen, field_append_left (by omega), textLen]
    refine copy_text_eq_some.mpr ⟨rfl, ?_, ?_, ?_⟩
    · rw [List.length_append]
      omega
    · rw [hlen, List.length_append]
      omega
    · rw [hlen]
      refine hend.imp_right fun ⟨h128, hzero⟩ ↦ ⟨h128, ?_⟩
      rwa [field_append_left (by omega)]

/-- The text of the attribute, `n` bytes on, ends. -/
def EndFits (n : ℕ) (mem : List UInt8) (p : ℕ) : Prop := 0 ∈ mem.drop (p + n)

theorem show_text_append {mem mem' : List UInt8} {p : ℕ} (h : show_text mem p = some mem')
    (post : List UInt8) : show_text (mem ++ post) p = some (mem' ++ post) := by
  obtain ⟨rfl, hzero⟩ := show_text_eq_some.mp h
  refine show_text_eq_some.mpr ⟨rfl, ?_⟩
  rw [List.drop_append]
  exact List.mem_append_left _ hzero

def show_realm (mem : List UInt8) (p : ℕ) : Option (List UInt8) := show_text mem (p + 4)

theorem show_realm_bounded : Bounded show_realm (EndFits 4) where
  isSome_iff {mem p} _ _ := by
    rw [show_realm, show_text, Option.isSome_ite, EndFits]
  length_eq h := by rw [(show_text_eq_some.mp h).1]
  append h post := show_text_append h post

/-- Eight bytes of the attribute. -/
def WordFits (mem : List UInt8) (p : ℕ) : Prop := p + 8 ≤ mem.length

def show_error (mem : List UInt8) (p : ℕ) : Option (List UInt8) :=
  (get mem (p + 6) 2).bind fun _ ↦ show_text mem (p + 8)

theorem show_error_bounded : Bounded show_error (EndFits 8) where
  isSome_iff {mem p} _ _ := by
    rw [show_error, EndFits, Option.isSome_iff_exists]
    constructor
    · rintro ⟨mem', h⟩
      obtain ⟨bs, -, htext⟩ := Option.bind_eq_some_iff.mp h
      exact (show_text_eq_some.mp htext).2
    · intro h
      have hlen : p + 6 + 2 ≤ mem.length := by
        by_contra hlt
        rw [List.drop_eq_nil_of_le (by omega)] at h
        cases h
      obtain ⟨bs, hbs⟩ := Option.isSome_iff_exists.mp (get_isSome.mpr hlen)
      exact ⟨mem, Option.bind_eq_some_iff.mpr ⟨bs, hbs, show_text_eq_some.mpr ⟨rfl, h⟩⟩⟩
  length_eq h := by
    obtain ⟨-, -, htext⟩ := Option.bind_eq_some_iff.mp h
    rw [(show_text_eq_some.mp htext).1]
  append {mem p mem'} h post := by
    obtain ⟨bs, hbs, htext⟩ := Option.bind_eq_some_iff.mp h
    exact Option.bind_eq_some_iff.mpr ⟨bs, get_append_left hbs post, show_text_append htext post⟩

def convert_crc32 (mem : List UInt8) (p : ℕ) : Option (List UInt8) :=
  (get mem (p + 4) 4).bind fun crc32 ↦ put mem (p + 4) crc32.reverse

theorem convert_crc32_bounded : Bounded convert_crc32 WordFits where
  isSome_iff {mem p} h20 hp := by
    rw [Option.isSome_iff_exists]
    constructor
    · rintro ⟨mem', h⟩
      obtain ⟨crc32, hcrc32, -⟩ := Option.bind_eq_some_iff.mp h
      have hreach := get_isSome.mp (Option.isSome_of_eq_some hcrc32)
      rw [WordFits]
      omega
    · intro h
      rw [WordFits] at h
      obtain ⟨crc32, hcrc32⟩ := Option.isSome_iff_exists.mp
        (get_isSome.mpr (by omega) : (get mem (p + 4) 4).isSome)
      have hput : (put mem (p + 4) crc32.reverse).isSome := by
        rw [put_isSome, List.length_reverse, length_get hcrc32]
        omega
      obtain ⟨mem', hput⟩ := Option.isSome_iff_exists.mp hput
      exact ⟨mem', Option.bind_eq_some_iff.mpr ⟨crc32, hcrc32, hput⟩⟩
  length_eq h := by
    obtain ⟨crc32, -, hput⟩ := Option.bind_eq_some_iff.mp h
    exact length_put hput
  append {mem p mem'} h post := by
    obtain ⟨crc32, hcrc32, hput⟩ := Option.bind_eq_some_iff.mp h
    exact Option.bind_eq_some_iff.mpr
      ⟨crc32, get_append_left hcrc32 post, put_append_left hput post⟩

theorem leave_bounded : Bounded (fun mem _ ↦ some mem) fun _ _ ↦ True where
  isSome_iff _ _ := iff_of_true rfl trivial
  length_eq h := by rw [Option.some.inj h]
  append h post := by rw [Option.some.inj h]

/-! ## What a parser does -/

def action : AttrEnum → Option (List UInt8 → ℕ → Option (List UInt8))
  | .mapped_addr => some show_address
  | .changed_address => some show_address
  | .xor_mapped_address => some decode_address
  | .xor_relayed_address => some decode_address
  | .error_code => some show_error
  | .nonce => some copy_text
  | .software => some copy_text
  | .fingerprint => some convert_crc32
  | .realm => some show_realm
  | .data => some fun mem _ ↦ some mem
  | _ => none

def Attribs.set (attribs : Attribs) (e : AttrEnum) (attrib : ℕ) : Attribs :=
  match e with
  | .mapped_addr => { attribs with mapped_address := some attrib }
  | .changed_address => { attribs with changed_address := some attrib }
  | .xor_mapped_address => { attribs with xor_mapped_address := some attrib }
  | .xor_relayed_address => { attribs with xor_relayed_address := some attrib }
  | .error_code => { attribs with error_code := some attrib }
  | .nonce => { attribs with nonce := some attrib }
  | .software => { attribs with software := some attrib }
  | .fingerprint => { attribs with fingerprint := some attrib }
  | .realm => { attribs with realm := some attrib }
  | .data => { attribs with data := some attrib }
  | _ => attribs

theorem policy_eq (e : AttrEnum) :
    g_turn_parse_attr_policies e = (action e).map fun act attribs mem attrib ↦
      (act mem attrib).map (attribs.set e attrib, ·) := by
  have herror : turn_parse_attrib_error_code = fun attribs mem attrib ↦
      (show_error mem attrib).map (attribs.set .error_code attrib, ·) := by
    funext attribs mem attrib
    rw [turn_parse_attrib_error_code, show_error]
    cases get mem (attrib + 6) 2 with
    | none => rfl
    | some bs =>
      simp only [Option.bind_eq_bind, Option.bind_some]
      cases show_text mem (attrib + 8) <;> rfl
  have hcrc32 : turn_parse_attrib_fingerprint = fun attribs mem attrib ↦
      (convert_crc32 mem attrib).map (attribs.set .fingerprint attrib, ·) := by
    funext attribs mem attrib
    rw [turn_parse_attrib_fingerprint, convert_crc32]
    cases get mem (attrib + 4) 4 with
    | none => rfl
    | some crc32 =>
      simp only [Option.bind_eq_bind, Option.bind_some]
      cases put mem (attrib + 4) crc32.reverse <;> rfl
  cases e
  case error_code => exact congrArg some herror
  case fingerprint => exact congrArg some hcrc32
  all_goals rfl

/-- When the action for an attribute stays in the memory. -/
def ActionFits : AttrEnum → List UInt8 → ℕ → Prop
  | .mapped_addr | .changed_address | .xor_mapped_address | .xor_relayed_address => AddressFits
  | .fingerprint => WordFits
  | .nonce | .software => TextFits
  | .realm => EndFits 4
  | .error_code => EndFits 8
  | _ => fun _ _ ↦ True

theorem actionFits_of_none {e : AttrEnum} (h : action e = none) (mem : List UInt8) (p : ℕ) :
    ActionFits e mem p := by
  cases e <;> trivial

theorem action_bounded {e : AttrEnum} {act : List UInt8 → ℕ → Option (List UInt8)}
    (h : action e = some act) : Bounded act (ActionFits e) := by
  cases e
  case mapped_addr | changed_address =>
    obtain rfl := Option.some.inj h
    exact show_address_bounded
  case xor_mapped_address | xor_relayed_address =>
    obtain rfl := Option.some.inj h
    exact decode_address_bounded
  case error_code =>
    obtain rfl := Option.some.inj h
    exact show_error_bounded
  case fingerprint =>
    obtain rfl := Option.some.inj h
    exact convert_crc32_bounded
  case nonce | software =>
    obtain rfl := Option.some.inj h
    exact copy_text_bounded
  case realm =>
    obtain rfl := Option.some.inj h
    exact show_realm_bounded
  case data =>
    obtain rfl := Option.some.inj h
    exact leave_bounded
  all_goals cases h

/-! ## One round of the loop -/

/-- The type and the length of the attribute, and the memory with both converted. -/
def head (mem : List UInt8) (p : ℕ) : Option (ℕ × ℕ × List UInt8) := do
  let (type, mem) ← ntohs mem p
  let (len, mem) ← ntohs mem (p + 2)
  return (type, len, mem)

theorem head_eq_some {mem mem' : List UInt8} {p type n : ℕ} :
    head mem p = some (type, n, mem') ↔
      ∃ mem₁, ntohs mem p = some (type, mem₁) ∧ ntohs mem₁ (p + 2) = some (n, mem') := by
  simp only [head, Option.bind_eq_bind, Option.bind_eq_some_iff]
  constructor
  · rintro ⟨⟨type', mem₁⟩, htype, ⟨n', mem₂⟩, hlen, heq⟩
    obtain ⟨rfl, rfl, rfl⟩ : type' = type ∧ n' = n ∧ mem₂ = mem' := by simpa using heq
    exact ⟨mem₁, htype, hlen⟩
  · rintro ⟨mem₁, htype, hlen⟩
    exact ⟨(type, mem₁), htype, (n, mem'), hlen, rfl⟩

theorem head_isSome {mem : List UInt8} {p : ℕ} (h : p + 4 ≤ mem.length) :
    ∃ type n mem', head mem p = some (type, n, mem') := by
  have hfit : p + 2 ≤ mem.length := by omega
  obtain ⟨mem₁, htype, hlen₁, -⟩ := ntohs_inside hfit
  have hfit₁ : p + 2 + 2 ≤ mem₁.length := by omega
  obtain ⟨mem₂, hlen, -, -⟩ := ntohs_inside hfit₁
  exact ⟨_, _, mem₂, head_eq_some.mpr ⟨mem₁, htype, hlen⟩⟩

theorem head_append {mem mem' : List UInt8} {p type n : ℕ} (h : head mem p = some (type, n, mem'))
    (post : List UInt8) : head (mem ++ post) p = some (type, n, mem' ++ post) := by
  obtain ⟨mem₁, htype, hlen⟩ := head_eq_some.mp h
  exact head_eq_some.mpr ⟨mem₁ ++ post, ntohs_append htype post, ntohs_append hlen post⟩

theorem head_some {mem mem' : List UInt8} {p type n : ℕ} (h : head mem p = some (type, n, mem')) :
    p + 4 ≤ mem.length ∧ mem'.length = mem.length ∧ type = beNat (field mem p 2) ∧
      n = beNat (field mem (p + 2) 2) ∧ textLen mem' p = n ∧
        mem'.drop (p + 4) = mem.drop (p + 4) := by
  obtain ⟨mem₁, htype, hlen⟩ := head_eq_some.mp h
  obtain ⟨hp, rfl, hlen₁, hsame₁⟩ := ntohs_some htype
  obtain ⟨hp', rfl, hlen₂, hsame₂⟩ := ntohs_some hlen
  obtain ⟨hswap, hdrop⟩ := ntohs_drop hlen
  have hfield : field mem₁ (p + 2) 2 = field mem (p + 2) 2 := by
    rw [field, (ntohs_drop htype).2, field]
  refine ⟨by omega, hlen₂.trans hlen₁, rfl, by rw [hfield], ?_, ?_⟩
  · rw [textLen, hswap, beNat]
  · have hdrop' := congrArg (List.drop 2) (ntohs_drop htype).2
    rw [List.drop_drop, List.drop_drop] at hdrop'
    exact hdrop.trans hdrop'

/-- How far an attribute is read and written behind its first four bytes; a text that is copied also
has to be short enough for its copy, and one that is printed has to end. -/
def ValueFits : AttrEnum → List UInt8 → ℕ → Prop
  | .mapped_addr | .changed_address | .xor_mapped_address | .xor_relayed_address =>
    fun mem i ↦ AddressFits mem (20 + i)
  | .fingerprint => fun mem i ↦ WordFits mem (20 + i)
  | .nonce | .software => fun mem i ↦
      20 + i + 4 + lenAt mem i ≤ mem.length ∧ (lenAt mem i < 128 ∨
        lenAt mem i = 128 ∧ 0 ∈ field mem (20 + i + 4) 128)
  | .realm => fun mem i ↦ EndFits 4 mem (20 + i)
  | .error_code => fun mem i ↦ EndFits 8 mem (20 + i)
  | _ => fun _ _ ↦ True

instance (e : AttrEnum) (mem : List UInt8) (i : ℕ) : Decidable (ValueFits e mem i) := by
  cases e <;> unfold ValueFits
  case realm => exact inferInstanceAs (Decidable (_ ∈ mem.drop _))
  case error_code => exact inferInstanceAs (Decidable (_ ∈ mem.drop _))
  all_goals (try unfold AddressFits; try unfold WordFits; infer_instance)

def Fits (mem : List UInt8) (i : ℕ) : Prop :=
  20 + i + 4 ≤ mem.length ∧
    ∀ e ∈ turn_get_parser_policy_index (typeAt mem i), ValueFits e mem i

instance (mem : List UInt8) (i : ℕ) : Decidable (Fits mem i) := instDecidableAnd

/-- An attribute that has a parser is kept. -/
def Keeps (mem : List UInt8) (i : ℕ) : Prop :=
  ((turn_get_parser_policy_index (typeAt mem i)).bind g_turn_parse_attr_policies).isSome

instance (mem : List UInt8) (i : ℕ) : Decidable (Keeps mem i) :=
  inferInstanceAs (Decidable (_ = true))

theorem actionFits_iff {mem mem' : List UInt8} {i type n : ℕ}
    (h : head mem (20 + i) = some (type, n, mem')) (e : AttrEnum) :
    ActionFits e mem' (20 + i) ↔ ValueFits e mem i := by
  obtain ⟨-, hlen, -, hn, htext, hdrop⟩ := head_some h
  have hfamily : mem'[20 + i + 5]? = mem[20 + i + 5]? := by
    have hfifth := congrArg (·[1]?) hdrop
    rwa [List.getElem?_drop, List.getElem?_drop] at hfifth
  have haddress : AddressFits mem' (20 + i) ↔ AddressFits mem (20 + i) := by
    rw [AddressFits, AddressFits, hfamily, hlen]
  have hword : WordFits mem' (20 + i) ↔ WordFits mem (20 + i) := by
    rw [WordFits, WordFits, hlen]
  have hcopy : TextFits mem' (20 + i) ↔
      20 + i + 4 + lenAt mem i ≤ mem.length ∧ (lenAt mem i < 128 ∨
        lenAt mem i = 128 ∧ 0 ∈ field mem (20 + i + 4) 128) := by
    have hvalue : field mem' (20 + i + 4) 128 = field mem (20 + i + 4) 128 := by
      rw [field, hdrop, field]
    rw [TextFits, htext, hlen, hn, hvalue, lenAt]
  have hrealm : EndFits 4 mem' (20 + i) ↔ EndFits 4 mem (20 + i) := by
    rw [EndFits, hdrop, EndFits]
  have hreason : EndFits 8 mem' (20 + i) ↔ EndFits 8 mem (20 + i) := by
    have hdrop' := congrArg (List.drop 4) hdrop
    rw [List.drop_drop, List.drop_drop] at hdrop'
    rw [EndFits, hdrop', EndFits]
  cases e
  case mapped_addr | changed_address | xor_mapped_address | xor_relayed_address => exact haddress
  case fingerprint => exact hword
  case nonce | software => exact hcopy
  case realm => exact hrealm
  case error_code => exact hreason
  all_goals exact Iff.rfl

def visit (mem : List UInt8) (i : ℕ) : Option (Visit UInt8 (ℕ × AttrEnum)) :=
  (head mem (20 + i)).bind fun r ↦
    let attr_len := 4 + (r.2.1 + (4 - r.2.1 % 4) % 4)
    match (turn_get_parser_policy_index r.1).bind fun e ↦ (action e).map (e, ·) with
    | none => some ⟨attr_len, r.2.2, some none⟩
    | some (e, act) => (act r.2.2 (20 + i)).map fun mem' ↦ ⟨attr_len, mem', some (some (r.2.1, e))⟩

section Visit

variable {mem mem' : List UInt8} {i type n : ℕ} (h : head mem (20 + i) = some (type, n, mem'))
include h

theorem visit_other (hindex : (turn_get_parser_policy_index type).bind
      (fun e ↦ (action e).map (e, ·)) = none) :
    visit mem i = some ⟨4 + (n + (4 - n % 4) % 4), mem', some none⟩ := by
  rw [visit, h]
  simp only [Option.bind_some, hindex]

theorem visit_action {e : AttrEnum} {act : List UInt8 → ℕ → Option (List UInt8)}
    (hindex : (turn_get_parser_policy_index type).bind (fun e ↦ (action e).map (e, ·)) =
      some (e, act)) :
    visit mem i = (act mem' (20 + i)).map
      fun mem' ↦ ⟨4 + (n + (4 - n % 4) % 4), mem', some (some (n, e))⟩ := by
  rw [visit, h]
  simp only [Option.bind_some, hindex]

end Visit

theorem parser_some {type : ℕ} {e : AttrEnum} {act : List UInt8 → ℕ → Option (List UInt8)}
    (h : (turn_get_parser_policy_index type).bind (fun e ↦ (action e).map (e, ·)) =
      some (e, act)) : turn_get_parser_policy_index type = some e ∧ action e = some act := by
  obtain ⟨e', hindex, hmap⟩ := Option.bind_eq_some_iff.mp h
  obtain ⟨act', hact, heq⟩ := Option.map_eq_some_iff.mp hmap
  obtain ⟨rfl, rfl⟩ := Prod.mk.inj heq
  exact ⟨hindex, hact⟩

section Spec

variable {mem : List UInt8} {i : ℕ} {v : Visit UInt8 (ℕ × AttrEnum)}

theorem visit_none (h : head mem (20 + i) = none) : visit mem i = none := by
  rw [visit, h, Option.bind_none]

theorem visit_some (h : visit mem i = some v) :
    ∃ mem', head mem (20 + i) = some (typeAt mem i, lenAt mem i, mem') ∧
      v.stride = 4 + (lenAt mem i + (4 - lenAt mem i % 4) % 4) ∧
      ((turn_get_parser_policy_index (typeAt mem i)).bind (fun e ↦ (action e).map (e, ·)) = none ∧
          v.mem = mem' ∧ v.kept = some none ∨
        ∃ e act, (turn_get_parser_policy_index (typeAt mem i)).bind
            (fun e ↦ (action e).map (e, ·)) = some (e, act) ∧
          act mem' (20 + i) = some v.mem ∧ v.kept = some (some (lenAt mem i, e))) := by
  cases hhead : head mem (20 + i) with
  | none =>
    rw [visit_none hhead] at h
    cases h
  | some r =>
    obtain ⟨type, n, mem'⟩ := r
    obtain ⟨-, -, rfl, rfl, -, -⟩ := head_some hhead
    refine ⟨mem', rfl, ?_⟩
    cases hindex : (turn_get_parser_policy_index (typeAt mem i)).bind
      (fun e ↦ (action e).map (e, ·)) with
    | none =>
      rw [visit_other hhead hindex] at h
      obtain rfl := Option.some.inj h
      exact ⟨rfl, Or.inl ⟨rfl, rfl, rfl⟩⟩
    | some r =>
      obtain ⟨e, act⟩ := r
      rw [visit_action hhead hindex] at h
      obtain ⟨mem'', hact, rfl⟩ := Option.map_eq_some_iff.mp h
      exact ⟨rfl, Or.inr ⟨e, act, rfl, hact, rfl⟩⟩

theorem parser_none_iff {type : ℕ} :
    (turn_get_parser_policy_index type).bind (fun e ↦ (action e).map (e, ·)) = none ↔
      (turn_get_parser_policy_index type).bind g_turn_parse_attr_policies = none := by
  cases turn_get_parser_policy_index type with
  | none => exact iff_of_true rfl rfl
  | some e => rw [Option.bind_some, Option.bind_some, policy_eq, Option.map_eq_none_iff,
      Option.map_eq_none_iff]

theorem visit_isSome_iff : (visit mem i).isSome ↔ Fits mem i := by
  rw [Fits]
  constructor
  · intro h
    obtain ⟨v, hv⟩ := Option.isSome_iff_exists.mp h
    obtain ⟨mem', hhead, -, hround⟩ := visit_some hv
    obtain ⟨hp, hlen, -⟩ := head_some hhead
    refine ⟨hp, fun e he ↦ ?_⟩
    rw [← actionFits_iff hhead]
    have he' : turn_get_parser_policy_index (typeAt mem i) = some e := he
    rcases hround with ⟨hnone, -, -⟩ | ⟨e', act, hsome, hact, -⟩
    · rw [he', Option.bind_some, Option.map_eq_none_iff] at hnone
      exact actionFits_of_none hnone _ _
    · obtain ⟨hindex, haction⟩ := parser_some hsome
      obtain rfl := Option.some.inj (he'.symm.trans hindex)
      exact ((action_bounded haction).isSome_iff (by omega) (by omega)).mp
        (Option.isSome_of_eq_some hact)
  · rintro ⟨hp, hvalue⟩
    obtain ⟨type, n, mem', hhead⟩ := head_isSome hp
    obtain ⟨-, hlen, htype, -, -, -⟩ := head_some hhead
    have htype' : typeAt mem i = type := htype.symm
    cases hindex : (turn_get_parser_policy_index type).bind (fun e ↦ (action e).map (e, ·)) with
    | none =>
      rw [visit_other hhead hindex]
      rfl
    | some r =>
      obtain ⟨e, act⟩ := r
      obtain ⟨he, haction⟩ := parser_some hindex
      rw [htype'] at hvalue
      have hfits := (actionFits_iff hhead e).mpr (hvalue e he)
      rw [visit_action hhead hindex, Option.isSome_map]
      exact ((action_bounded haction).isSome_iff (by omega) (by omega)).mpr hfits

theorem visit_kept (h : visit mem i = some v) : v.kept ≠ none := by
  obtain ⟨mem', -, -, hround⟩ := visit_some h
  rcases hround with ⟨-, -, hkept⟩ | ⟨e, act, -, -, hkept⟩ <;>
    (rw [hkept]; exact Option.some_ne_none _)

theorem visit_keeps_iff (h : visit mem i = some v) :
    Keeps mem i ↔ ∃ c, v.kept = some (some c) := by
  obtain ⟨mem', -, -, hround⟩ := visit_some h
  rcases hround with ⟨hnone, -, hkept⟩ | ⟨e, act, hsome, -, hkept⟩
  · rw [Keeps, parser_none_iff.mp hnone, hkept]
    simp
  · refine iff_of_true ?_ ⟨_, hkept⟩
    rw [Keeps, Option.isSome_iff_ne_none, ne_eq, ← parser_none_iff, hsome]
    exact Option.some_ne_none _

theorem visit_kept_len {c : ℕ × AttrEnum} (h : visit mem i = some v)
    (hc : v.kept = some (some c)) : c.1 = lenAt mem i := by
  obtain ⟨mem', -, -, hround⟩ := visit_some h
  rcases hround with ⟨-, -, hkept⟩ | ⟨e, act, -, -, hkept⟩
  · rw [hkept] at hc
    cases hc
  · rw [hkept] at hc
    obtain rfl := Option.some.inj (Option.some.inj hc)
    rfl

theorem local_visit : Stride.Local visit where
  stride_pos h := by
    obtain ⟨-, -, hstride, -⟩ := visit_some h
    rw [hstride]
    exact Nat.add_pos_left (by decide) _
  length_mem h := by
    obtain ⟨mem', hhead, -, hround⟩ := visit_some h
    obtain ⟨-, hlen, -⟩ := head_some hhead
    rcases hround with ⟨-, hmem, -⟩ | ⟨e, act, hsome, hact, -⟩
    · rw [hmem, hlen]
    · rw [(action_bounded (parser_some hsome).2).length_eq hact, hlen]
  append {mem i v} h post := by
    obtain ⟨mem', hhead, hstride, hround⟩ := visit_some h
    have hhead' := head_append hhead post
    obtain ⟨stride, mem'', kept⟩ := v
    obtain rfl : stride = 4 + (lenAt mem i + (4 - lenAt mem i % 4) % 4) := hstride
    rcases hround with ⟨hnone, hmem, hkept⟩ | ⟨e, act, hsome, hact, hkept⟩
    · obtain rfl : mem'' = mem' := hmem
      obtain rfl : kept = some none := hkept
      exact visit_other hhead' hnone
    · obtain rfl : kept = some (some (lenAt mem i, e)) := hkept
      rw [visit_action hhead' hsome, (action_bounded (parser_some hsome).2).append hact post,
        Option.map_some]

end Spec

/-! ## The reader -/

def store (attribs : Attribs) (x : ℕ × ℕ × AttrEnum) : Attribs := attribs.set x.2.2 (20 + x.1)

theorem read_attribs_head {msglen fuel i : ℕ} {mem : List UInt8} {attribs : Attribs}
    (h : i < msglen) :
    read_attribs msglen (fuel + 1) i mem attribs = (head mem (20 + i)).bind fun r ↦
      match (turn_get_parser_policy_index r.1).bind g_turn_parse_attr_policies with
      | none => read_attribs msglen fuel (i + (4 + (r.2.1 + (4 - r.2.1 % 4) % 4))) r.2.2 attribs
      | some policy => (policy attribs r.2.2 (20 + i)).bind fun r' ↦
          read_attribs msglen fuel (i + (4 + (r.2.1 + (4 - r.2.1 % 4) % 4))) r'.2 r'.1 := by
  rw [read_attribs, if_neg (Nat.not_le_of_lt h), head]
  simp only [Option.bind_eq_bind]
  cases ntohs mem (20 + i) with
  | none => rfl
  | some r =>
    simp only [Option.bind_some]
    cases ntohs r.2 (20 + i + 2) with
    | none => rfl
    | some r' => rfl

theorem read_attribs_walk (msglen fuel i : ℕ) (mem : List UInt8) (attribs : Attribs) :
    read_attribs msglen fuel i mem attribs = (walk visit msglen fuel i mem).map
      (fun r ↦ (if r.1 then 1 else -1, r.2.1, r.2.2.foldl store attribs)) := by
  induction fuel generalizing i mem attribs with
  | zero => rfl
  | succ fuel ih =>
    rcases Nat.lt_or_ge i msglen with hlt | hle
    · cases hhead : head mem (20 + i) with
      | none =>
        rw [walk_none fuel hlt (visit_none hhead), read_attribs_head hlt, hhead]
        rfl
      | some r =>
        obtain ⟨type, n, mem'⟩ := r
        rw [read_attribs_head hlt, hhead, Option.bind_some]
        cases hindex : (turn_get_parser_policy_index type).bind
          (fun e ↦ (action e).map (e, ·)) with
        | none =>
          rw [walk_kept fuel hlt (visit_other hhead hindex) rfl, parser_none_iff.mp hindex]
          dsimp only
          rw [ih, Option.map_map]
          rfl
        | some r =>
          obtain ⟨e, act⟩ := r
          obtain ⟨he, haction⟩ := parser_some hindex
          have hvisit := visit_action hhead hindex
          rw [he, Option.bind_some, policy_eq, haction, Option.map_some]
          dsimp only
          cases hact : act mem' (20 + i) with
          | none =>
            rw [hact, Option.map_none] at hvisit
            rw [walk_none fuel hlt hvisit]
            rfl
          | some mem'' =>
            rw [hact, Option.map_some] at hvisit
            rw [walk_kept fuel hlt hvisit rfl, Option.map_some, Option.bind_some]
            dsimp only
            rw [ih, Option.map_map]
            obtain ⟨-, -, -, rfl, -, -⟩ := head_some hhead
            rfl
    · rw [read_attribs, if_pos hle, walk_of_le hle]
      rfl

def reader : Reader Attribs AttrEnum where
  read_attribs msglen fuel := read_attribs msglen fuel 0
  visit := visit
  store := store
  fits := Fits
  refuses _ _ := False
  keeps := Keeps
  local_visit := local_visit
  read_attribs_eq msglen fuel mem attribs := read_attribs_walk msglen fuel 0 mem attribs
  fits_iff _ _ := visit_isSome_iff
  refuses_iff h := iff_of_false (visit_kept h) id
  keeps_iff h _ := visit_keeps_iff h
  kept_len := visit_kept_len

instance (mem : List UInt8) (i : ℕ) : Decidable (reader.fits mem i) :=
  inferInstanceAs (Decidable (Fits mem i))

instance (mem : List UInt8) (i : ℕ) : Decidable (reader.refuses mem i) :=
  inferInstanceAs (Decidable False)

instance (mem : List UInt8) (i : ℕ) : Decidable (reader.keeps mem i) :=
  inferInstanceAs (Decidable (Keeps mem i))

theorem Response.read_eq : Response.read = Receiver.read reader.read_attribs := rfl

/-! ## Both protocols -/

section Both

variable (rb : Rebalance (ℕ × Stun.MappedAddress)) {stun : Receiver Stun.Attribs} {turn : Response}

/-- In whatever state the two responses are, each of them reads exactly the bounded datagrams as it
should. -/
theorem reads_safe_iff (buf : List UInt8) (hstun : stun.header.length = Stun.header_max_len)
    (hstun' : Stun.Live stun.buffer) (hturn : turn.header.length = Stun.header_max_len)
    (hturn' : Stun.Live turn.buffer) :
    ((Stun.reader rb).Safe stun buf (Stun.Response.readAs rb) ↔
        (Stun.reader rb).Bounded stun buf) ∧
      (reader.Safe turn buf Response.read ↔ reader.Bounded turn buf) := by
  rw [Stun.Response.readAs_eq, Response.read_eq]
  exact ⟨(Stun.reader rb).safe_iff hstun hstun', reader.safe_iff hturn hturn'⟩

end Both

/-- New objects. -/
def newStun : Receiver Stun.Attribs :=
  ⟨List.replicate 548 0, .empty, .new (List.replicate 1024 0)⟩

def newTurn : Response :=
  ⟨List.replicate 548 0, ⟨none, none, none, none, none, none, none, none, none, none⟩,
    .new (List.replicate 1024 0)⟩

/-- A response with the given length of the message and bytes behind the header. -/
def reply (msglen : UInt8) (body : List UInt8) : List UInt8 :=
  [1, 1, 0, msglen] ++ magic_cookie ++ List.replicate 12 0 ++ body

/-- An address that is decoded lies inside. -/
theorem reads_safe_iff_address :
    (Stun.reader (.small _)).Safe newStun
        (reply 12 [0, 0x20, 0, 8, 0, 1, 0x31, 0x80, 0x2B, 0x12, 0xA4, 0x45])
        (Stun.Response.readAs (.small _)) ∧
      reader.Safe newTurn (reply 12 [0, 0x20, 0, 8, 0, 1, 0x31, 0x80, 0x2B, 0x12, 0xA4, 0x45])
        Response.read := by
  have hring : Stun.Live (.new (List.replicate 1024 0)) :=
    (Stun.drained_new ⟨List.replicate 1024 0, List.length_replicate⟩).live
  have hstun : newStun.header.length = Stun.header_max_len := List.length_replicate
  have hstun' : Stun.Live newStun.buffer := hring
  have hturn : newTurn.header.length = Stun.header_max_len := List.length_replicate
  have hturn' : Stun.Live newTurn.buffer := hring
  have hiff := reads_safe_iff (.small _)
    (reply 12 [0, 0x20, 0, 8, 0, 1, 0x31, 0x80, 0x2B, 0x12, 0xA4, 0x45]) hstun hstun' hturn hturn'
  rw [hiff.1, hiff.2]
  decide +kernel

/-- The message length promises an attribute that was not received. -/
theorem not_reads_safe :
    ¬ ((Stun.reader (.small _)).Safe newStun (reply 4 []) (Stun.Response.readAs (.small _)) ∨
      reader.Safe newTurn (reply 4 []) Response.read) := by
  rintro (⟨ret, msgtype, s, hs, -⟩ | ⟨ret, msgtype, s, hs, -⟩)
  · have hnone : (Stun.Response.readAs (.small _) ⟨newStun.header.take (reply 4 []).length,
        newStun.attribs, newStun.buffer.write (reply 4 [])⟩).isSome = false := by decide +kernel
    rw [hs] at hnone
    cases hnone
  · have hnone : (Response.read ⟨newTurn.header.take (reply 4 []).length, newTurn.attribs,
        newTurn.buffer.write (reply 4 [])⟩).isSome = false := by decide +kernel
    rw [hs] at hnone
    cases hnone

end Libobject.Turn
