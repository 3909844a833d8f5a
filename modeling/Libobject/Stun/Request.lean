import Libobject.Lib.Tlv
import Libobject.Stun.Freshness

/-!
# Binding requests and what a server answers

A request is written into the memory of its header: the head, and then its attributes, each behind
what the length of the message says is there already. The server answers whatever has the cookie
with the address that it came from.
-/

namespace Libobject.Stun

open Scan Buffer

/-! ## The server -/

/-- One to three digits, no zero in front of others, at most 255. -/
def octet (s : Text) : Bool :=
  s ≠ [] && s.all isDigit && decimal s ≤ 255 && (s.length ≤ 1 || s.head? ≠ some 48)

/-- `inet_pton` for `AF_INET`; `none` where it does not return 1. -/
def inet_pton (s : Text) : Option (List UInt8) :=
  let parts := s.splitOn 46
  if parts.length = 4 ∧ parts.all octet then
    some (parts.map fun part ↦ UInt8.ofNat (decimal part))
  else none

/-- The branch of `__stun_server_callback` for a request: what is sent to where it came from. -/
def binding_response (buf : List UInt8) (remote_host remote_service : Text) :
    Option (List UInt8) := do
  if ¬ IsStun buf then none
  else
    let magic_cookie := field buf 4 4
    let cookie := beNat magic_cookie
    let ip ← inet_pton remote_host
    let port := (atoi remote_service % 2 ^ 16).toNat ^^^ cookie >>> 16
    return beBytes 2 STUN_BINDRESP ++ beBytes 2 12 ++ magic_cookie ++ field buf 8 12 ++
      [0x00, 0x20, 0x00, 0x08, 0x00, 0x01, UInt8.ofNat (port >>> 8), UInt8.ofNat port] ++
        xor ip magic_cookie

/-! ## Requests -/

def STUN_ATTR_HEADER_LEN : ℕ := 4

def INT_MAX : ℕ := 2 ^ 31 - 1

/-- The header memory of a request with its head; `transaction_id` is what `random` gave. -/
def set_head (mem : List UInt8) (type len cookie : ℕ) (transaction_id : List.Vector UInt8 12) :
    Option (List UInt8) :=
  put mem 0 (beBytes 2 type ++ (beBytes 2 len ++ (beBytes 4 cookie ++ transaction_id.val)))

def get_len (mem : List UInt8) : ℕ := 20 + beNat (field mem 2 2)

/-- A sum that an `int` does not hold is undefined, and so is an access outside the memory. -/
def set_attrib (mem : List UInt8) (type : ℤ) (value : List UInt8) : Option (List UInt8 × ℤ) :=
  let offset := beNat (field mem 2 2)
  if INT_MAX < offset + STUN_ATTR_HEADER_LEN + value.length then none
  else if offset + STUN_ATTR_HEADER_LEN + value.length > header_max_len - 20 then some (mem, -1)
  else do
    let p := 20 + offset
    let mem ← put mem p (beBytes 2 (type % 2 ^ 16).toNat)
    let mem ← put mem (p + 2) (beBytes 2 value.length)
    let mem ← put mem (p + 4) value
    let padded_len := Tlv.aligned value.length
    let mem ← put mem (p + 4 + value.length) (List.replicate (padded_len - value.length) 0)
    let mem ← put mem 2 (beBytes 2 (offset + STUN_ATTR_HEADER_LEN + padded_len))
    return (mem, 1)

structure SetAttrib where
  type : ℤ
  value : List UInt8

/-- What is returned, and the message that the request would be sent as. -/
structure Written where
  ret : ℤ
  message : List UInt8

def SetAttrib.call (mem : List UInt8) (c : SetAttrib) : Option (List UInt8 × Written) := do
  let (mem, ret) ← set_attrib mem c.type c.value
  return (mem, ⟨ret, mem.take (get_len mem)⟩)

/-- A message and the attributes that were set. -/
structure Composed where
  message : List UInt8
  attrs : List Tlv.Record

/-- Going through the message by the rule of the reader gives exactly these attributes. -/
structure Carries (message : List UInt8) (attrs : List Tlv.Record) : Prop where
  length : message.length = 20 + beNat (field message 2 2)
  inside : message.length ≤ header_max_len
  walk : Tlv.walk message.length (message.drop 20) = some attrs

/-- A call fails for want of room and leaves the message, or it adds its attribute; the rest of the
head stays. -/
def composing : Spec Composed SetAttrib Written where
  ok a c w :=
    (w.ret = -1 ∧ w.message = a.message ∧ header_max_len < a.message.length + 4 + c.value.length) ∨
      (w.ret = 1 ∧ Carries w.message (a.attrs ++ [(c.type.toNat, c.value)]) ∧
        w.message.take 2 = a.message.take 2 ∧ field w.message 4 16 = field a.message 4 16)
  next a c w :=
    ⟨w.message, if w.ret = 1 then a.attrs ++ [(c.type.toNat, c.value)] else a.attrs⟩

/-- The type is one of two bytes, and the sum of the lengths is an `int`. -/
def SetAttrib.Fits (mem : List UInt8) (c : SetAttrib) : Prop :=
  0 ≤ c.type ∧ c.type < 2 ^ 16 ∧
    beNat (field mem 2 2) + STUN_ATTR_HEADER_LEN + c.value.length ≤ INT_MAX

/-! ## The layout of a request -/

/-- The memory of a request with the two ends of its head, its attributes and what is behind them.
-/
structure Layout (mem type rest : List UInt8) (attrs : List Tlv.Record) (tail : List UInt8) :
    Prop where
  eq : mem = type ++ (beBytes 2 (attrs.flatMap Tlv.bytes).length ++
    (tail ++ (attrs.flatMap Tlv.bytes ++ rest)))
  type_length : type.length = 2
  tail_length : tail.length = 16
  fits : ∀ r ∈ attrs, Tlv.Fits r
  total : mem.length = header_max_len

namespace Layout

variable {mem type rest tail : List UInt8} {attrs : List Tlv.Record}

theorem length_add (h : Layout mem type rest attrs tail) :
    20 + (attrs.flatMap Tlv.bytes).length + rest.length = header_max_len := by
  have htotal := h.total
  rw [h.eq] at htotal
  simp only [List.length_append, length_beBytes, h.type_length, h.tail_length] at htotal
  omega

theorem msglen (h : Layout mem type rest attrs tail) :
    beNat (field mem 2 2) = (attrs.flatMap Tlv.bytes).length := by
  have hfield := field_append_right type h.type_length (beBytes 2 (attrs.flatMap Tlv.bytes).length)
    (tail ++ (attrs.flatMap Tlv.bytes ++ rest))
  have hlen := h.length_add
  rw [length_beBytes] at hfield
  rw [h.eq, hfield]
  exact Tlv.beNat_two (by rw [header_max_len] at hlen; omega)

theorem message (h : Layout mem type rest attrs tail) :
    mem.take (get_len mem) = type ++ (beBytes 2 (attrs.flatMap Tlv.bytes).length ++
      (tail ++ attrs.flatMap Tlv.bytes)) := by
  have hlen : (type ++ (beBytes 2 (attrs.flatMap Tlv.bytes).length ++
      (tail ++ attrs.flatMap Tlv.bytes))).length = get_len mem := by
    rw [get_len, h.msglen]
    simp only [List.length_append, length_beBytes, h.type_length, h.tail_length]
    omega
  have hsplit : mem = type ++ (beBytes 2 (attrs.flatMap Tlv.bytes).length ++
      (tail ++ attrs.flatMap Tlv.bytes)) ++ rest := by
    rw [h.eq]
    simp only [List.append_assoc]
  generalize type ++ (beBytes 2 (attrs.flatMap Tlv.bytes).length ++
    (tail ++ attrs.flatMap Tlv.bytes)) = msg at hlen hsplit ⊢
  have htake : (msg ++ rest).take (get_len mem) = msg := List.take_left' hlen
  rwa [← hsplit] at htake

theorem length_message (h : Layout mem type rest attrs tail) :
    (mem.take (get_len mem)).length = 20 + (attrs.flatMap Tlv.bytes).length := by
  rw [h.message]
  simp only [List.length_append, length_beBytes, h.type_length, h.tail_length]
  omega

theorem carries (h : Layout mem type rest attrs tail) :
    Carries (mem.take (get_len mem)) attrs ∧ (mem.take (get_len mem)).take 2 = type ∧
      field (mem.take (get_len mem)) 4 16 = tail := by
  have hlen := h.length_message
  have hfour : (type ++ beBytes 2 (attrs.flatMap Tlv.bytes).length).length = 4 := by
    simp [h.type_length]
  have htwenty : (type ++ (beBytes 2 (attrs.flatMap Tlv.bytes).length ++ tail)).length = 20 := by
    simp [h.type_length, h.tail_length]
  refine ⟨⟨?_, ?_, ?_⟩, ?_, ?_⟩
  · have hfield : field (mem.take (get_len mem)) 2 2 = field mem 2 2 :=
      field_take (by rw [get_len]; omega)
    rw [hfield, h.msglen, hlen]
  · have hadd := h.length_add
    rw [hlen]
    omega
  · have hdrop : (mem.take (get_len mem)).drop 20 = attrs.flatMap Tlv.bytes := by
      rw [h.message, ← List.append_assoc, ← List.append_assoc]
      exact List.drop_left' (by rw [List.append_assoc]; exact htwenty)
    rw [hdrop, hlen]
    exact Tlv.walk_bytes h.fits ((Tlv.length_le attrs).trans (Nat.le_add_left _ _))
  · rw [h.message, List.take_left' h.type_length]
  · rw [h.message, ← List.append_assoc]
    have hfield := field_append_right _ hfour tail (attrs.flatMap Tlv.bytes)
    rwa [h.tail_length] at hfield

end Layout

theorem put_attrib (mem : List UInt8) (p type : ℕ) (value : List UInt8) :
    (do
      let mem ← put mem p (beBytes 2 type)
      let mem ← put mem (p + 2) (beBytes 2 value.length)
      let mem ← put mem (p + 4) value
      put mem (p + 4 + value.length)
        (List.replicate (Tlv.aligned value.length - value.length) 0)) =
      put mem p (Tlv.bytes (type, value)) := by
  have hlast : ∀ m, (do
      let m ← put m (p + 4) value
      put m (p + 4 + value.length)
        (List.replicate (Tlv.aligned value.length - value.length) 0)) =
      put m (p + 4) (value ++ List.replicate (Tlv.aligned value.length - value.length) 0) :=
    fun m ↦ put_put m (p + 4) value _
  have hmid : ∀ m, (do
      let m ← put m (p + 2) (beBytes 2 value.length)
      put m (p + 4) (value ++ List.replicate (Tlv.aligned value.length - value.length) 0)) =
      put m (p + 2) (beBytes 2 value.length ++
        (value ++ List.replicate (Tlv.aligned value.length - value.length) 0)) := by
    intro m
    have hput := put_put m (p + 2) (beBytes 2 value.length)
      (value ++ List.replicate (Tlv.aligned value.length - value.length) 0)
    rwa [length_beBytes] at hput
  have hfirst := put_put mem p (beBytes 2 type) (beBytes 2 value.length ++
    (value ++ List.replicate (Tlv.aligned value.length - value.length) 0))
  rw [length_beBytes] at hfirst
  simp only [hlast, hmid]
  exact hfirst

theorem put_attrib_bind {β : Type} (mem : List UInt8) (p type : ℕ) (value : List UInt8)
    (k : List UInt8 → Option β) :
    (do
      let mem ← put mem p (beBytes 2 type)
      let mem ← put mem (p + 2) (beBytes 2 value.length)
      let mem ← put mem (p + 4) value
      let mem ← put mem (p + 4 + value.length)
        (List.replicate (Tlv.aligned value.length - value.length) 0)
      k mem) = (put mem p (Tlv.bytes (type, value))).bind k := by
  rw [← put_attrib]
  simp only [Option.bind_eq_bind, Option.bind_assoc]

theorem Layout.set_attrib {mem type rest tail : List UInt8} {attrs : List Tlv.Record}
    (h : Layout mem type rest attrs tail) {t : ℤ} {value : List UInt8} (h0 : 0 ≤ t)
    (ht : t < 2 ^ 16)
    (hroom : (attrs.flatMap Tlv.bytes).length + STUN_ATTR_HEADER_LEN + value.length ≤
      header_max_len - 20) :
    ∃ mem' rest', Stun.set_attrib mem t value = some (mem', 1) ∧
      Layout mem' type rest' (attrs ++ [(t.toNat, value)]) tail := by
  have hadd := h.length_add
  have hfour := Tlv.four_dvd_length attrs
  have hle := Tlv.le_aligned value.length
  have hbytes : (Tlv.bytes (t.toNat, value)).length = 4 + Tlv.aligned value.length :=
    Tlv.length_bytes _
  simp only [STUN_ATTR_HEADER_LEN, header_max_len] at hroom hadd
  -- the end of the memory is aligned, so that the padding fits too
  have hfit : (Tlv.bytes (t.toNat, value)).length ≤ rest.length := by
    rw [hbytes, Tlv.aligned]
    omega
  have hpre : (type ++ (beBytes 2 (attrs.flatMap Tlv.bytes).length ++
      (tail ++ attrs.flatMap Tlv.bytes))).length = 20 + (attrs.flatMap Tlv.bytes).length := by
    simp only [List.length_append, length_beBytes, h.type_length, h.tail_length]
    omega
  have hput : put mem (20 + (attrs.flatMap Tlv.bytes).length) (Tlv.bytes (t.toNat, value)) =
      some (type ++ (beBytes 2 (attrs.flatMap Tlv.bytes).length ++
        (tail ++ (attrs.flatMap Tlv.bytes ++ (Tlv.bytes (t.toNat, value) ++
          rest.drop (Tlv.bytes (t.toNat, value)).length))))) := by
    have happend := put_append (type ++ (beBytes 2 (attrs.flatMap Tlv.bytes).length ++
      (tail ++ attrs.flatMap Tlv.bytes))) rest _ hfit
    rw [hpre] at happend
    rw [h.eq]
    simpa only [List.append_assoc] using happend
  have hlen := put_over h.type_length
    ((length_beBytes 2 ((attrs.flatMap Tlv.bytes).length + STUN_ATTR_HEADER_LEN +
      Tlv.aligned value.length)).trans (length_beBytes 2 (attrs.flatMap Tlv.bytes).length).symm)
    (tail ++ (attrs.flatMap Tlv.bytes ++ (Tlv.bytes (t.toNat, value) ++
      rest.drop (Tlv.bytes (t.toNat, value)).length)))
  have htype : (t % 2 ^ 16).toNat = t.toNat := by rw [Int.emod_eq_of_lt h0 ht]
  have hbody : ((attrs ++ [(t.toNat, value)]).flatMap Tlv.bytes) =
      attrs.flatMap Tlv.bytes ++ Tlv.bytes (t.toNat, value) := by
    rw [List.flatMap_append, List.flatMap_singleton]
  have hpost : (rest.drop (Tlv.bytes (t.toNat, value)).length).length =
      rest.length - (4 + Tlv.aligned value.length) := by rw [List.length_drop, hbytes]
  generalize rest.drop (Tlv.bytes (t.toNat, value)).length = post at hput hlen hpost
  refine ⟨type ++ (beBytes 2 ((attrs.flatMap Tlv.bytes).length + STUN_ATTR_HEADER_LEN +
    Tlv.aligned value.length) ++ (tail ++ (attrs.flatMap Tlv.bytes ++
      (Tlv.bytes (t.toNat, value) ++ post)))), post, ?_, ?_, h.type_length, h.tail_length, ?_, ?_⟩
  · rw [Stun.set_attrib]
    dsimp only
    rw [h.msglen, if_neg (by simp only [INT_MAX, STUN_ATTR_HEADER_LEN]; omega),
      if_neg (by simp only [STUN_ATTR_HEADER_LEN, header_max_len]; omega), htype, put_attrib_bind,
      hput, Option.bind_some, hlen]
    rfl
  · rw [hbody, List.length_append, hbytes]
    simp only [List.append_assoc, STUN_ATTR_HEADER_LEN, Nat.add_assoc]
  · intro r hr
    rcases List.mem_append.mp hr with hr | hr
    · exact h.fits r hr
    · rw [List.mem_singleton.mp hr]
      constructor
      · change t.toNat < 2 ^ 16
        omega
      · change value.length < 2 ^ 16
        omega
  · simp only [List.length_append, length_beBytes, h.type_length, h.tail_length, hbytes, hpost,
      header_max_len]
    omega

theorem Layout.full {mem type rest tail : List UInt8} {attrs : List Tlv.Record}
    (h : Layout mem type rest attrs tail) {t : ℤ} {value : List UInt8}
    (hint : (attrs.flatMap Tlv.bytes).length + STUN_ATTR_HEADER_LEN + value.length ≤ INT_MAX)
    (hroom : header_max_len - 20 <
      (attrs.flatMap Tlv.bytes).length + STUN_ATTR_HEADER_LEN + value.length) :
    Stun.set_attrib mem t value = some (mem, -1) := by
  rw [Stun.set_attrib]
  dsimp only
  rw [h.msglen, if_neg (not_lt.mpr hint), if_pos hroom]

theorem layout_set_head (header : List.Vector UInt8 header_max_len) (type cookie : ℕ)
    (tid : List.Vector UInt8 12) :
    ∃ mem, set_head header.val type 0 cookie tid = some mem ∧
      Layout mem (beBytes 2 type) (header.val.drop 20) [] (beBytes 4 cookie ++ tid.val) := by
  have htid : tid.val.length = 12 := tid.2
  have hheader : header.val.length = header_max_len := header.2
  have hlen : (beBytes 2 type ++ (beBytes 2 0 ++ (beBytes 4 cookie ++ tid.val))).length = 20 := by
    simp [htid]
  have hput := put_append [] header.val
    (beBytes 2 type ++ (beBytes 2 0 ++ (beBytes 4 cookie ++ tid.val)))
    (by rw [hlen, hheader]; decide)
  rw [hlen] at hput
  refine ⟨_, hput, ?_, length_beBytes 2 _, by simp [htid], fun r hr ↦ (List.not_mem_nil hr).elim,
    ?_⟩
  · simp only [List.nil_append, List.flatMap_nil, List.length_nil, List.append_assoc]
  · rw [List.nil_append, List.length_append, hlen, List.length_drop, hheader]
    rfl

/-- From one call to the next: the message and the attributes are those of the memory. -/
def Composing (mem : List UInt8) (a : Composed) : Prop :=
  a.message = mem.take (get_len mem) ∧ ∃ type rest tail, Layout mem type rest a.attrs tail

theorem Composing.call {mem : List UInt8} {a : Composed} (h : Composing mem a) {c : SetAttrib}
    (hfits : c.Fits mem) :
    ∃ mem' w, c.call mem = some (mem', w) ∧ composing.ok a c w ∧
      Composing mem' (composing.next a c w) := by
  obtain ⟨message, attrs⟩ := a
  obtain ⟨hmessage, type, rest, tail, hlayout⟩ := h
  obtain ⟨h0, htype, hint⟩ := hfits
  dsimp only at hmessage hlayout
  obtain ⟨-, hhead, htail⟩ := hlayout.carries
  rw [hlayout.msglen] at hint
  by_cases hroom : (attrs.flatMap Tlv.bytes).length + STUN_ATTR_HEADER_LEN + c.value.length ≤
      header_max_len - 20
  · obtain ⟨mem', rest', hset, hlayout'⟩ := hlayout.set_attrib h0 htype hroom
    obtain ⟨hcarries, hhead', htail'⟩ := hlayout'.carries
    refine ⟨mem', ⟨1, mem'.take (get_len mem')⟩, ?_, .inr ⟨rfl, hcarries, ?_, ?_⟩, rfl, type, rest',
      tail, hlayout'⟩
    · rw [SetAttrib.call, hset]
      rfl
    · rw [hmessage, hhead, hhead']
    · rw [hmessage, htail, htail']
  · have hfull := hlayout.full (t := c.type) hint (not_le.mp hroom)
    refine ⟨mem, ⟨-1, mem.take (get_len mem)⟩, ?_, .inl ⟨rfl, hmessage.symm, ?_⟩, rfl, type, rest,
      tail, hlayout⟩
    · rw [SetAttrib.call, hfull]
      rfl
    · rw [hmessage, hlayout.length_message]
      simp only [STUN_ATTR_HEADER_LEN, header_max_len] at hroom ⊢
      omega

/-! ## A response of the server -/

/-- The message that the server answers with. -/
def reply (tid : List.Vector UInt8 12) (ip : List.Vector UInt8 4) (port : UInt16) : Message where
  tid := tid
  attrs := [.address .xorMapped 0 ⟨.v4 ip, port⟩]
  wellFormed a ha := by
    rw [List.mem_singleton.mp ha]
    trivial
  length_lt := by
    have hvalue := Attribute.length_value .xorMapped 0 (e := ⟨.v4 ip, port⟩) rfl tid.2
    rw [List.flatMap_singleton, Attribute.length_bytes, hvalue]
    change 4 + (8 + 0) < 2 ^ 16
    decide

theorem octet_showNat (b : UInt8) : octet (showNat b.toNat) = true := by
  have hall : ∀ n < 256, octet (showNat n) = true := by decide +kernel
  exact hall _ b.toNat_lt

theorem notMem_showNat (n : ℕ) : 46 ∉ showNat n := fun h ↦
  absurd (isDigit_showNat n 46 h) (by decide)

theorem inet_pton_dotted (ip : List.Vector UInt8 4) : inet_pton (dotted ip.val) = some ip.val := by
  obtain ⟨ip, hip⟩ := ip
  obtain ⟨a, b, c, d, rfl⟩ : ∃ a b c d, ip = [a, b, c, d] := by
    match ip, hip with
    | [a, b, c, d], _ => exact ⟨a, b, c, d, rfl⟩
  have hsplit : (dotted [a, b, c, d]).splitOn 46 =
      [showNat a.toNat, showNat b.toNat, showNat c.toNat, showNat d.toNat] := by
    simp only [dotted, List.splitOn_append_cons_self, List.splitOn_eq_singleton (notMem_showNat _),
      List.cons_append, List.nil_append]
  have hparts : ([showNat a.toNat, showNat b.toNat, showNat c.toNat, showNat d.toNat] :
      List Text).all octet = true := by
    simp only [List.all_cons, List.all_nil, octet_showNat, Bool.and_self]
  have hvalue : ∀ x : UInt8, UInt8.ofNat (decimal (showNat x.toNat)) = x := by
    intro x
    rw [decimal_showNat, UInt8.ofNat_toNat]
  rw [inet_pton]
  simp only [hsplit]
  rw [if_pos ⟨rfl, hparts⟩]
  simp only [List.map_cons, List.map_nil, hvalue]

theorem xor_append_key {bs : List UInt8} {key : List UInt8} (h : bs.length ≤ key.length)
    (rest : List UInt8) : xor bs (key ++ rest) = xor bs key := by
  induction bs generalizing key with
  | nil => simp [xor]
  | cons b bs ih =>
    cases key with
    | nil => exact (Nat.not_succ_le_zero _ h).elim
    | cons c key => exact congrArg (List.cons _) (ih (Nat.le_of_succ_le_succ h))

theorem beBytes_two (n : ℕ) : beBytes 2 n = [UInt8.ofNat (n >>> 8), UInt8.ofNat n] := by
  rw [Nat.shiftRight_eq_div_pow]
  rfl

theorem xor_port (n : ℕ) : [UInt8.ofNat ((n ^^^ 0x2112) >>> 8), UInt8.ofNat (n ^^^ 0x2112)] =
    xor (beBytes 2 n) STUN_MAGIC_COOKIE := by
  rw [beBytes_two, Nat.shiftRight_xor_distrib, UInt8.ofNat_xor, UInt8.ofNat_xor]
  rfl

theorem binding_response_eq {buf : List UInt8} (h : IsStun buf) (ip : List.Vector UInt8 4)
    (port : UInt16) :
    ∃ htid, binding_response buf (dotted ip.val) (showNat port.toNat) =
      some (reply ⟨field buf 8 12, htid⟩ ip port).encode := by
  have htid : (field buf 8 12).length = 12 := by
    rw [field, List.length_take, List.length_drop]
    have h20 := h.1
    omega
  have hip : ip.val.length = 4 := ip.2
  have hport : (atoi (showNat port.toNat) % 2 ^ 16).toNat = port.toNat := by
    have hlt : port.toNat < 2 ^ 16 := port.toNat_lt
    rw [atoi_showNat (by omega), Int.emod_eq_of_lt (by omega) (by omega)]
    rfl
  have hcookie : beNat STUN_MAGIC_COOKIE >>> 16 = 0x2112 := by decide
  have htype : beBytes 2 Kind.xorMapped.type = [0x00, 0x20] := by decide
  have height : beBytes 2 8 = [0x00, 0x08] := by decide
  have hbody : (reply ⟨field buf 8 12, htid⟩ ip port).body =
      [0x00, 0x20, 0x00, 0x08, 0x00, 0x01] ++ (xor (beBytes 2 port.toNat) STUN_MAGIC_COOKIE ++
        xor ip.val STUN_MAGIC_COOKIE) := by
    have hvalue := Attribute.length_value .xorMapped 0 (e := ⟨.v4 ip, port⟩) rfl htid
    change [Attribute.address .xorMapped 0 ⟨.v4 ip, port⟩].flatMap
      (Attribute.bytes (field buf 8 12)) = _
    rw [List.flatMap_singleton, Attribute.bytes, hvalue, Attribute.value, Kind.key,
      xor_append_key (by rw [length_beBytes]; decide),
      Address.bytes, xor_append_key (by rw [hip]; decide), Attribute.pad, List.append_nil,
      Attribute.type, htype, height]
    rfl
  have hlen : (reply ⟨field buf 8 12, htid⟩ ip port).body.length = 12 := by
    rw [hbody]
    simp only [List.length_append, length_xor (show (beBytes 2 port.toNat).length ≤
      STUN_MAGIC_COOKIE.length by rw [length_beBytes]; decide), length_beBytes,
      length_xor (show ip.val.length ≤ STUN_MAGIC_COOKIE.length by rw [hip]; decide), hip,
      List.length_cons, List.length_nil]
  refine ⟨htid, ?_⟩
  rw [binding_response, if_neg (not_not_intro h)]
  simp only [h.2, inet_pton_dotted, Option.bind_eq_bind, Option.bind_some, hport, hcookie]
  rw [Message.encode, hlen, hbody, ← xor_port]
  change some _ = some _
  simp only [List.append_assoc, List.cons_append, List.nil_append]
  rfl

theorem Message.field_head (m : Message) (rest : List UInt8) :
    field (m.head ++ rest) 8 12 = m.tid.val := by
  have hlen : ((beBytes 2 STUN_BINDRESP).reverse ++ ((beBytes 2 m.body.length).reverse ++
      STUN_MAGIC_COOKIE)).length = 8 := by
    simp only [List.length_append, List.length_reverse, length_beBytes]
    rfl
  have htid : m.tid.val.length = 12 := m.tid.2
  have hfield := field_append_right _ hlen m.tid.val rest
  rw [htid] at hfield
  simpa only [Message.head, List.append_assoc] using hfield

/-- A response between two datagrams: the header has its size and the ring buffer is empty. -/
structure Response.Ready (resp : Response) : Prop where
  header : resp.header.length = header_max_len
  ring : Drained resp.buffer

theorem read_reply (rb : Rebalance (ℕ × MappedAddress)) {resp : Response} (h : resp.Ready)
    (tid : List.Vector UInt8 12) (ip : List.Vector UInt8 4) (port : UInt16) :
    ∃ resp', Response.read rb { resp with buffer := resp.buffer.write (reply tid ip port).encode } =
        some ((1, some STUN_BINDRESP), resp') ∧
      field resp'.header 8 12 = tid.val ∧
      resp'.attribs = resp.attribs.add rb STUN_ATR_TYPE_XOR_MAPPED_ADDR
        ⟨dotted ip.val, showNat port.toNat⟩ ∧ Drained resp'.buffer := by
  obtain ⟨header, attribs, buffer⟩ := resp
  obtain ⟨hheader, hring⟩ := h
  have hvalue := Attribute.length_value .xorMapped 0 (e := ⟨.v4 ip, port⟩) rfl tid.2
  have hbytes : ((Attribute.address .xorMapped 0 ⟨.v4 ip, port⟩).bytes tid.val).length = 12 := by
    rw [Attribute.length_bytes, hvalue]
    rfl
  have hbody : (reply tid ip port).body =
      (Attribute.address .xorMapped 0 ⟨.v4 ip, port⟩).bytes tid.val :=
    List.flatMap_singleton _ _
  have hbodyLen : (reply tid ip port).body.length = 12 := by rw [hbody, hbytes]
  have hlen := (reply tid ip port).length_encode
  rw [hbodyLen] at hlen
  have hmax : (reply tid ip port).encode.length ≤ header_max_len := by
    rw [hlen]
    decide
  obtain ⟨buffer', hdrained, hread⟩ := read_written rb attribs hheader hring (by omega) hmax
  have hhead : (reply tid ip port).head.length = 20 := (reply tid ip port).length_head
  generalize hpost : header.drop (reply tid ip port).encode.length = post
  have hraw : raw_attrib ((reply tid ip port).head ++
      ((Attribute.address .xorMapped 0 ⟨.v4 ip, port⟩).bytes tid.val ++ post)) 20 =
        some (Kind.xorMapped.type,
          ((Attribute.address .xorMapped 0 ⟨.v4 ip, port⟩).bytes tid.val).length,
          (reply tid ip port).head ++
            ((Attribute.address .xorMapped 0 ⟨.v4 ip, port⟩).converted tid.val ++ post)) :=
    Attribute.raw_attrib_address hhead (reply tid ip port).get_cookie_head tid.2 post rfl
  have hparse : parse_attrib_address ((reply tid ip port).head ++
      ((Attribute.address .xorMapped 0 ⟨.v4 ip, port⟩).converted tid.val ++ post)) (20 + 4) =
        some (some (Endpoint.text ⟨.v4 ip, port⟩)) :=
    Attribute.parse_converted hhead rfl tid.2 post
  have hattrs : read_attribs rb 12 12 0 (received header (reply tid ip port).encode) attribs =
      some (1, (reply tid ip port).head ++
        ((Attribute.address .xorMapped 0 ⟨.v4 ip, port⟩).converted tid.val ++ post),
        attribs.add rb STUN_ATR_TYPE_XOR_MAPPED_ADDR ⟨dotted ip.val, showNat port.toNat⟩) := by
    rw [(reply tid ip port).received_encode, hbody, hpost, read_attribs, if_neg (by decide)]
    simp only [Nat.add_zero, hraw, Option.bind_eq_bind, Option.bind_some, find_policy_kind, hparse,
      hbytes]
    rw [read_attribs, if_pos (by decide)]
    rfl
  rw [(reply tid ip port).field_encode, (reply tid ip port).take_encode, hbodyLen, hattrs] at hread
  exact ⟨_, hread, (reply tid ip port).field_head _, rfl, hdrained⟩

theorem search_add (rb : Rebalance (ℕ × MappedAddress)) {attribs : Attribs} {type : ℕ}
    (h : ∀ entry ∈ attribs.entries, entry.1 ≠ type) (address : MappedAddress) :
    (attribs.add rb type address).search type = some address := by
  have hperm := RbTreeMap.entries_add rb attribs type address
  cases hs : (attribs.add rb type address).search type with
  | none =>
    have hnew := RbTreeMap.search_none hs (type, address) (hperm.mem_iff.mpr List.mem_cons_self)
    exact (hnew Std.ReflCmp.compare_self).elim
  | some v =>
    obtain ⟨k, hk, hmem⟩ := RbTreeMap.search_some hs
    have hk' : type = k := Std.LawfulEqCmp.eq_of_compare hk
    subst hk'
    rcases List.mem_cons.mp (hperm.mem_iff.mp hmem) with hnew | hold
    · rw [(Prod.mk.inj hnew).2]
    · exact (h _ hold rfl).elim

/-- The server's answer to a request is read as the address that the request came from, with the
transaction of the request; and a request is composed of the attributes that are set, as long as
their types have two bytes and their lengths can be added. -/
theorem requests_exchange (rb : Rebalance (ℕ × MappedAddress)) :
    (∀ (buf : List UInt8) (ip : List.Vector UInt8 4)
      (port : UInt16) (resp : Response), IsStun buf → resp.Ready →
        ∃ message resp', binding_response buf (dotted ip.val) (showNat port.toNat) = some message ∧
          Response.read rb { resp with buffer := resp.buffer.write message } =
            some ((1, some STUN_BINDRESP), resp') ∧
          field resp'.header 8 12 = field buf 8 12 ∧
          resp'.attribs = resp.attribs.add rb STUN_ATR_TYPE_XOR_MAPPED_ADDR
            ⟨dotted ip.val, showNat port.toNat⟩ ∧
          ((∀ entry ∈ resp.attribs.entries, entry.1 ≠ STUN_ATR_TYPE_XOR_MAPPED_ADDR) →
            resp'.attribs.search STUN_ATR_TYPE_XOR_MAPPED_ADDR =
              some ⟨dotted ip.val, showNat port.toNat⟩)) ∧
    ∀ (header : List.Vector UInt8 header_max_len) (type cookie : ℕ) (tid : List.Vector UInt8 12)
      (calls : List SetAttrib), ∃ mem, set_head header.val type 0 cookie tid = some mem ∧
        Carries (mem.take (get_len mem)) [] ∧
        (Refine.Within SetAttrib.call composing (fun mem c ↦ c.Fits mem) mem
          ⟨mem.take (get_len mem), []⟩ calls →
            Refine.Refines SetAttrib.call composing mem ⟨mem.take (get_len mem), []⟩ calls) := by
  constructor
  · intro buf ip port resp hstun hready
    obtain ⟨htid, hresponse⟩ := binding_response_eq hstun ip port
    obtain ⟨resp', hread, htransaction, hattribs, -⟩ :=
      read_reply rb hready ⟨field buf 8 12, htid⟩ ip port
    refine ⟨_, resp', hresponse, hread, htransaction, hattribs, fun hno ↦ ?_⟩
    rw [hattribs]
    exact search_add rb hno _
  · intro header type cookie tid calls
    obtain ⟨mem, hset, hlayout⟩ := layout_set_head header type cookie tid
    refine ⟨mem, hset, hlayout.carries.1, fun hrun ↦ ?_⟩
    have hcall : ∀ mem a c, Composing mem a → SetAttrib.Fits mem c → ∃ mem' w,
        c.call mem = some (mem', w) ∧ composing.ok a c w ∧ Composing mem' (composing.next a c w) :=
      fun _ _ _ h hfits ↦ h.call hfits
    exact (Refine.refines_of_simulation hcall ⟨rfl, _, _, _, hlayout⟩ hrun).2

instance SetAttrib.decidableFits (mem : List UInt8) (c : SetAttrib) : Decidable (c.Fits mem) :=
  instDecidableAnd

/-- A transaction, and the memory of a header. -/
def zeroTid : List.Vector UInt8 12 := ⟨List.replicate 12 0, List.length_replicate⟩

def zeroHeader : List.Vector UInt8 header_max_len :=
  ⟨List.replicate header_max_len 0, List.length_replicate⟩

/-- The answer to a request without attributes, and a request with one. -/
theorem requests_exchange_one_attribute :
    (∃ message resp', binding_response ([0, 1, 0, 0, 0x21, 0x12, 0xA4, 0x42] ++ zeroTid.val)
          (dotted [10, 0, 0, 7]) (showNat 4242) = some message ∧
        Response.read (.small _)
            ⟨zeroHeader.val, .empty, (RingBuffer.new (List.replicate 1024 0)).write message⟩ =
          some ((1, some STUN_BINDRESP), resp')) ∧
      ∃ mem, set_head zeroHeader.val 1 0 0x2112A442 zeroTid = some mem ∧
        Refine.Refines SetAttrib.call composing mem ⟨mem.take (get_len mem), []⟩
          [⟨0x8022, [65, 66, 67]⟩] := by
  obtain ⟨hanswer, hcomposed⟩ := requests_exchange (.small _)
  constructor
  · obtain ⟨message, resp', hmessage, hread, -⟩ := hanswer
      ([0, 1, 0, 0, 0x21, 0x12, 0xA4, 0x42] ++ zeroTid.val) ⟨[10, 0, 0, 7], rfl⟩ 4242
      ⟨zeroHeader.val, .empty, .new (List.replicate 1024 0)⟩ (by decide)
      ⟨zeroHeader.2, drained_new ⟨_, List.length_replicate⟩⟩
    exact ⟨message, resp', hmessage, hread⟩
  · obtain ⟨mem, hset, -, hrefines⟩ :=
      hcomposed zeroHeader 1 0x2112A442 zeroTid [⟨0x8022, [65, 66, 67]⟩]
    have hfits : ∀ mem ∈ set_head zeroHeader.val 1 0 0x2112A442 zeroTid,
        Refine.Within SetAttrib.call composing (fun mem c ↦ c.Fits mem) mem
          ⟨mem.take (get_len mem), []⟩ [⟨0x8022, [65, 66, 67]⟩] := by
      decide +kernel
    exact ⟨mem, hset, hrefines (hfits mem hset)⟩

/-- The sum of the lengths is no `int` for a value of 2147483647 bytes. -/
theorem not_composed : ¬ ∀ (header : List.Vector UInt8 header_max_len) (type cookie : ℕ)
    (tid : List.Vector UInt8 12) (calls : List SetAttrib),
    ∃ mem, set_head header.val type 0 cookie tid = some mem ∧
      Refine.Refines SetAttrib.call composing mem ⟨mem.take (get_len mem), []⟩ calls := by
  intro h
  obtain ⟨mem, -, ⟨mem', hmem, r, hcall, -⟩, -⟩ := h
    zeroHeader 1 0x2112A442 zeroTid [⟨0x8022, List.replicate INT_MAX 0⟩]
  have hnone : set_attrib mem' 0x8022 (List.replicate INT_MAX 0) = none := by
    rw [set_attrib]
    dsimp only
    rw [List.length_replicate, if_pos (by simp only [STUN_ATTR_HEADER_LEN]; omega)]
  rw [SetAttrib.call, hnone] at hcall
  exact (Option.not_mem_none r hcall).elim

end Libobject.Stun
