import Libobject.Lib.Refine
import Libobject.Stun.Message
import Libobject.Stun.Probe

/-!
# What a binding response tells

A response carries addresses, and a lookup after it must give what it carries and nothing that
came before. The map of the attributes is never emptied, so that this needs every entry it holds
to be carried by the response that is read next.
-/

namespace Libobject.Stun

open Scan Buffer

inductive Datagram
  | response (m : Message)
  | other (bytes : List UInt8)

def Datagram.bytes : Datagram → List UInt8
  | response m => m.encode
  | other bytes => bytes

/-- What can be seen after a datagram. -/
structure Reading where
  ret : Option ℤ
  lookup : Kind → Option MappedAddress
  probe : Probe

/-- A lookup gives what is carried, and nothing iff nothing is. -/
def Shows (es : List Endpoint) : Option MappedAddress → Prop
  | none => es = []
  | some v => v ∈ es.map Endpoint.text

instance (es : List Endpoint) (v : Option MappedAddress) : Decidable (Shows es v) := by
  cases v
  · exact inferInstanceAs (Decidable (es = []))
  · exact inferInstanceAs (Decidable (_ ∈ es.map Endpoint.text))

/-- The first reply tells the own address, which then stays; the second reply tells whether it is
the same for another server. -/
def Probe.Learns (p : Probe) (e : Endpoint) (p' : Probe) : Prop :=
  if p.own_ready then
    p'.own_ready ∧ p'.own_host = p.own_host ∧ p'.own_port = p.own_port ∧
      (p.nat_type = .unknown →
        (p'.nat_type = .symmetric ↔
          (dotted e.address.bytes, (e.port.toNat : ℤ)) ≠ (p.own_host, p.own_port))) ∧
      (p.nat_type ≠ .unknown → p'.nat_type = p.nat_type)
  else
    p'.own_ready ∧ p'.own_host = dotted e.address.bytes ∧ p'.own_port = e.port.toNat ∧
      p'.nat_type = p.nat_type

instance (p : Probe) (e : Endpoint) (p' : Probe) : Decidable (p.Learns e p') := by
  unfold Probe.Learns
  infer_instance

/-- What a datagram may show when the probe was `p` before it. -/
def Fresh (p : Probe) : Datagram → Reading → Prop
  | .response m, r =>
    (∃ ret ∈ r.ret, 0 ≤ ret) ∧ (∀ k, Shows (m.carried k) (r.lookup k)) ∧
      if m.mapped = [] then r.probe = p else ∃ e ∈ m.mapped, p.Learns e r.probe
  | .other _, r =>
    p.own_ready → r.probe.own_ready ∧ r.probe.own_host = p.own_host ∧
      r.probe.own_port = p.own_port

instance (p : Probe) (d : Datagram) (r : Reading) : Decidable (Fresh p d r) := by
  cases d <;> (unfold Fresh; infer_instance)

def fresh : Spec Probe Datagram Reading where
  ok := Fresh
  next _ _ r := r.probe

instance (p : Probe) (d : Datagram) (r : Reading) : Decidable (fresh.ok p d r) :=
  inferInstanceAs (Decidable (Fresh p d r))

namespace Session

variable (rb : Rebalance (ℕ × MappedAddress)) (stun2 : Bool)

def reading (s : Session) (ret : Option ℤ) : Reading :=
  ⟨ret, fun k ↦ s.response.attribs.search k.type, s.probe⟩

def call (s : Session) (d : Datagram) : Option (Session × Reading) := do
  let ((ret, _), s) ← on_session_recv rb stun2 s d.bytes
  return (s, s.reading ret)

/-- A session that has received nothing; its memories hold what the allocator gave. -/
def new (header : List.Vector UInt8 header_max_len) (ring : List.Vector UInt8 1024) (p : Probe) :
    Session := ⟨p, .new header.val ring.val⟩

end Session

/-! ## When a datagram is read well -/

/-- How far from its start the accesses to the attribute at `p` go. -/
def reach (mem : List UInt8) (p : ℕ) : ℕ :=
  let type := beNat (field mem p 2)
  let family := mem[p + 5]?
  if type = STUN_ATR_TYPE_XOR_MAPPED_ADDR then if family = some 1 then 12 else 24
  else if type = STUN_ATR_TYPE_MAPPED_ADDR ∨ type = STUN_ATR_TYPE_CHANGED_ADDRESS then
    if family = some 1 then 12 else if family = some 2 then 16 else 6
  else 4

/-- Every attribute that is looked at lies inside the memory. -/
def Inside (msglen : ℕ) : ℕ → ℕ → List UInt8 → Prop
  | 0, _, _ => True
  | fuel + 1, i, mem =>
    i < msglen → 20 + i + reach mem (20 + i) ≤ mem.length ∧
      ∀ r ∈ raw_attrib mem (20 + i), Inside msglen fuel (i + r.2.1) r.2.2

instance decidableInside (msglen : ℕ) :
    ∀ fuel i mem, Decidable (Inside msglen fuel i mem)
  | 0, _, _ => inferInstanceAs (Decidable True)
  | fuel + 1, i, mem =>
    have (j : ℕ) (mem : List UInt8) : Decidable (Inside msglen fuel j mem) :=
      decidableInside msglen fuel j mem
    inferInstanceAs (Decidable (_ → _ ∧ ∀ r ∈ raw_attrib mem (20 + i), _))

/-- The header memory when the datagram has been read into it and its two numbers converted. -/
def received (header buf : List UInt8) : List UInt8 :=
  (buf.take 2).reverse ++ (field buf 2 2).reverse ++ buf.drop 4 ++ header.drop buf.length

/-- A response fits in the header, has addresses of four bytes only and carries everything that
the map holds. Any other datagram fits, and what it says of its attributes stays inside. -/
def Readable (s : Session) : Datagram → Prop
  | .response m =>
    m.encode.length ≤ header_max_len ∧ (∀ a ∈ m.attrs, a.short) ∧
      ∀ entry ∈ s.response.attribs.entries,
        ∃ k : Kind, entry.1 = k.type ∧ entry.2 ∈ (m.carried k).map Endpoint.text
  | .other buf =>
    IsStun buf → buf.length ≤ header_max_len ∧
      Inside (beNat (field buf 2 2)) (beNat (field buf 2 2)) 0 (received s.response.header buf)

instance (s : Session) (d : Datagram) : Decidable (Readable s d) := by
  cases d <;> (unfold Readable; infer_instance)

/-! ## The ring buffer between two datagrams -/

/-- Nothing of an earlier datagram is left. -/
structure Drained (buffer : RingBuffer) : Prop where
  valid : buffer.Valid
  size : buffer.size = 1024
  empty : buffer.contents = []

theorem drained_new (ring : List.Vector UInt8 1024) : Drained (.new ring.val) where
  valid := RingBuffer.valid_new (List.ne_nil_of_length_eq_add_one ring.2)
  size := ring.2
  empty := RingBuffer.contents_new ring.val

theorem Drained.writable {buffer : RingBuffer} (h : Drained buffer) : buffer.writable = 1024 := by
  have hsum := RingBuffer.readable_add_writable h.valid
  have hread := RingBuffer.length_contents h.valid
  rw [h.empty, List.length_nil] at hread
  rw [← hread, h.size] at hsum
  omega

theorem Drained.through {buffer : RingBuffer} (h : Drained buffer) {buf : List UInt8}
    (hne : buf ≠ []) (hmax : buf.length ≤ header_max_len) :
    (buffer.write buf).getLen = buf.length ∧
      ((buffer.write buf).read buf.length).1 = buf ∧
        Drained ((buffer.write buf).read buf.length).2 := by
  have hfit : buffer.contents.length + buf.length ≤ buffer.size := by
    rw [h.empty, h.size, List.length_nil]
    exact (Nat.zero_add _).le.trans (hmax.trans (by decide))
  obtain ⟨hvalid, hcontents, hsize, hlast⟩ := RingBuffer.write_spec h.valid hne hfit
  rw [h.empty, List.nil_append] at hcontents
  obtain ⟨hread, hvalid', hcontents'⟩ :=
    RingBuffer.read_spec hvalid (List.length_pos_iff.mpr hne)
  refine ⟨?_, ?_, hvalid', ?_, ?_⟩
  · rw [RingBuffer.getLen_eq hvalid (by simp [hlast]), hcontents]
  · rw [hread, hcontents, List.take_length]
  · rw [RingBuffer.size_read, hsize, h.size]
  · rw [hcontents', hcontents, List.drop_length]

theorem received_eq {header buf : List UInt8} (h20 : 20 ≤ buf.length)
    (hmax : buf.length ≤ header.length) :
    ∃ mem₀ mem₁, put header 0 buf = some mem₀ ∧
      ntohs mem₀ 0 = some (beNat (buf.take 2), mem₁) ∧
        ntohs mem₁ 2 = some (beNat (field buf 2 2), received header buf) := by
  have hput : put header 0 buf = some (buf ++ header.drop buf.length) := by
    have hput := put_append [] header buf hmax
    simpa using hput
  have hsplit : buf = buf.take 2 ++ (field buf 2 2 ++ buf.drop 4) := by
    have hdrop : field buf 2 2 ++ buf.drop 4 = buf.drop 2 := by
      have htake := List.take_append_drop 2 (buf.drop 2)
      rwa [List.drop_drop] at htake
    rw [hdrop, List.take_append_drop]
  have htake : (buf.take 2).length = 2 := by
    rw [List.length_take]
    omega
  have hfield : (field buf 2 2).length = 2 := by
    rw [field, List.length_take, List.length_drop]
    omega
  have hnil : ([] : List UInt8).length = 0 := rfl
  have hfirst := ntohs_at hnil htake (field buf 2 2 ++ buf.drop 4 ++ header.drop buf.length)
  have htake' : (buf.take 2).reverse.length = 2 := by rw [List.length_reverse, htake]
  have hsecond := ntohs_at htake' hfield (buf.drop 4 ++ header.drop buf.length)
  refine ⟨_, (buf.take 2).reverse ++ (field buf 2 2 ++ (buf.drop 4 ++ header.drop buf.length)),
    hput, ?_, ?_⟩
  · nth_rewrite 1 [hsplit]
    simpa only [List.nil_append, List.append_assoc] using hfirst
  · simpa only [received, List.append_assoc] using hsecond

section Receive

variable (rb : Rebalance (ℕ × MappedAddress)) {header buf : List UInt8} (attribs : Attribs)
  {buffer : RingBuffer}

theorem read_written (hheader : header.length = header_max_len) (hring : Drained buffer)
    (h20 : 20 ≤ buf.length) (hmax : buf.length ≤ header_max_len) :
    ∃ buffer', Drained buffer' ∧
      Response.read rb ⟨header, attribs, buffer.write buf⟩ =
        (read_attribs rb (beNat (field buf 2 2)) (beNat (field buf 2 2)) 0
          (received header buf) attribs).map
            fun r ↦ ((r.1, some (beNat (buf.take 2))), ⟨r.2.1, r.2.2, buffer'⟩) := by
  have hne : buf ≠ [] := List.length_pos_iff.mp (by omega)
  obtain ⟨hlen, hbytes, hdrained⟩ := hring.through hne hmax
  obtain ⟨mem₀, mem₁, hput, hfirst, hsecond⟩ := received_eq h20 (hheader ▸ hmax)
  have hpass : ¬ (header_max_len < buf.length ∨ buf.length < 20) := by omega
  refine ⟨_, hdrained, ?_⟩
  simp only [Response.read, hlen, if_neg hpass, hbytes, hput, hfirst, hsecond,
    Option.bind_eq_bind, Option.bind_some]
  split
  · next hzero =>
      rw [hzero]
      rfl
  · cases read_attribs rb (beNat (field buf 2 2)) (beNat (field buf 2 2)) 0
      (received header buf) attribs <;> rfl

theorem on_session_recv_eq (stun2 : Bool) (probe : Probe)
    (hheader : header.length = header_max_len) (hring : Drained buffer)
    (hstun : IsStun buf) (hmax : buf.length ≤ header_max_len) :
    ∃ buffer', Drained buffer' ∧
      on_session_recv rb stun2 ⟨probe, ⟨header, attribs, buffer⟩⟩ buf =
        (read_attribs rb (beNat (field buf 2 2)) (beNat (field buf 2 2)) 0
          (received header buf) attribs).map
            fun r ↦ Session.replied stun2 ⟨probe, ⟨r.2.1, r.2.2, buffer'⟩⟩ r.1
              (some (beNat (buf.take 2))) := by
  obtain ⟨buffer', hdrained, hread⟩ := read_written rb attribs hheader hring hstun.1 hmax
  have hroom : ¬ min buf.length buffer.writable = 0 := by
    have h20 := hstun.1
    rw [hring.writable]
    omega
  refine ⟨buffer', hdrained, ?_⟩
  rw [on_session_recv, if_neg (not_not_intro hstun), if_neg hroom]
  simp only [hread, Option.bind_eq_bind, Option.pure_def]
  cases read_attribs rb (beNat (field buf 2 2)) (beNat (field buf 2 2)) 0
    (received header buf) attribs <;> rfl

end Receive

/-! ## A response -/

namespace Message

theorem isStun_encode (m : Message) : IsStun m.encode := by
  have hlen : (beBytes 2 STUN_BINDRESP ++ beBytes 2 m.body.length).length = 4 := by simp
  refine ⟨?_, ?_⟩
  · have htid := m.tid.2
    simp only [encode, List.length_append, length_beBytes, STUN_MAGIC_COOKIE, List.length_cons,
      List.length_nil]
    omega
  · have hfield := field_append_right _ hlen STUN_MAGIC_COOKIE (m.tid.val ++ m.body)
    have hfour : STUN_MAGIC_COOKIE.length = 4 := rfl
    simpa only [encode, List.append_assoc, hfour] using hfield

theorem take_encode (m : Message) : beNat (m.encode.take 2) = STUN_BINDRESP := by
  rw [encode, List.take_left' (length_beBytes 2 _)]
  exact beNat_beBytes_two (by decide)

theorem field_encode (m : Message) : beNat (field m.encode 2 2) = m.body.length := by
  have hfield := field_append_right _ (length_beBytes 2 STUN_BINDRESP) (beBytes 2 m.body.length)
    (STUN_MAGIC_COOKIE ++ (m.tid.val ++ m.body))
  rw [length_beBytes] at hfield
  rw [encode, hfield]
  exact beNat_beBytes_two m.length_lt

/-- The header of the message in the memory, its two numbers converted. -/
def head (m : Message) : List UInt8 :=
  (beBytes 2 STUN_BINDRESP).reverse ++ ((beBytes 2 m.body.length).reverse ++
    (STUN_MAGIC_COOKIE ++ m.tid.val))

theorem length_head (m : Message) : m.head.length = 20 := by
  have htid := m.tid.2
  simp [head, STUN_MAGIC_COOKIE, htid]

theorem get_cookie_head (m : Message) : get m.head 4 4 = some STUN_MAGIC_COOKIE := by
  have hlen : ((beBytes 2 STUN_BINDRESP).reverse ++ (beBytes 2 m.body.length).reverse).length =
      4 := by
    simp
  have hget := get_append hlen (show STUN_MAGIC_COOKIE.length = 4 from rfl) m.tid.val
  simpa only [head, List.append_assoc] using hget

theorem length_encode (m : Message) : m.encode.length = 20 + m.body.length := by
  have htid := m.tid.2
  simp only [encode, List.length_append, length_beBytes, STUN_MAGIC_COOKIE, List.length_cons,
    List.length_nil]
  omega

theorem received_encode (m : Message) (header : List UInt8) :
    received header m.encode = m.head ++ (m.body ++ header.drop m.encode.length) := by
  have htake : m.encode.take 2 = beBytes 2 STUN_BINDRESP := by
    rw [encode, List.take_left' (length_beBytes 2 _)]
  have hfield : field m.encode 2 2 = beBytes 2 m.body.length := by
    have hfield := field_append_right _ (length_beBytes 2 STUN_BINDRESP) (beBytes 2 m.body.length)
      (STUN_MAGIC_COOKIE ++ (m.tid.val ++ m.body))
    rwa [length_beBytes] at hfield
  have hlen : (beBytes 2 STUN_BINDRESP ++ beBytes 2 m.body.length).length = 4 := by simp
  have hdrop : m.encode.drop 4 = STUN_MAGIC_COOKIE ++ (m.tid.val ++ m.body) := by
    rw [encode, ← List.append_assoc, List.drop_left' hlen]
  rw [received, htake, hfield, hdrop, head]
  simp only [List.append_assoc]

theorem entry_iff (m : Message) {k : Kind} {v : MappedAddress} :
    (k.type, v) ∈ m.attrs.filterMap Attribute.entry? ↔ v ∈ (m.carried k).map Endpoint.text := by
  simp only [carried, List.map_filterMap, List.mem_filterMap]
  refine exists_congr fun a ↦ and_congr_right fun _ ↦ ?_
  cases a with
  | address kind r e =>
    by_cases hkind : kind = k
    · subst hkind
      simp [Attribute.entry?, Attribute.endpoint?]
    · have hne : kind.type ≠ k.type := fun heq ↦ hkind (Kind.type_inj heq)
      simp [Attribute.entry?, Attribute.endpoint?, hkind, hne]
  | other type value pad => simp [Attribute.entry?, Attribute.endpoint?]

theorem kind_of_entry (m : Message) {x : ℕ × MappedAddress}
    (h : x ∈ m.attrs.filterMap Attribute.entry?) : ∃ k : Kind, x.1 = k.type := by
  obtain ⟨a, -, ha⟩ := List.mem_filterMap.mp h
  cases a with
  | address kind r e =>
    obtain rfl := Option.some.inj ha
    exact ⟨kind, rfl⟩
  | other type value pad => cases ha

theorem shows_search (m : Message) {attribs : Attribs}
    (h : ∀ x, x ∈ attribs.entries ↔
      ∃ k : Kind, x.1 = k.type ∧ x.2 ∈ (m.carried k).map Endpoint.text) (k : Kind) :
    Shows (m.carried k) (attribs.search k.type) := by
  cases hsearch : attribs.search k.type with
  | none =>
    have habsent := RbTreeMap.search_none hsearch
    by_contra hne
    obtain ⟨e, he⟩ := List.exists_mem_of_ne_nil _ hne
    have hmem : (k.type, e.text) ∈ attribs.entries :=
      (h _).mpr ⟨k, rfl, List.mem_map_of_mem he⟩
    exact habsent _ hmem (Nat.compare_eq_eq.mpr rfl)
  | some v =>
    obtain ⟨key, hkey, hmem⟩ := RbTreeMap.search_some hsearch
    have hkey : k.type = key := Nat.compare_eq_eq.mp hkey
    obtain ⟨k', hk', hv⟩ := (h _).mp hmem
    obtain rfl : k = k' := Kind.type_inj (hkey.trans hk')
    exact hv

theorem shows_mapped (m : Message) {attribs : Attribs}
    (h : ∀ k : Kind, Shows (m.carried k) (attribs.search k.type)) :
    Shows m.mapped (mapped_attr attribs) := by
  have hxor : Shows (m.carried .xorMapped) (attribs.search STUN_ATR_TYPE_XOR_MAPPED_ADDR) :=
    h .xorMapped
  have hmapped : Shows (m.carried .mapped) (attribs.search STUN_ATR_TYPE_MAPPED_ADDR) := h .mapped
  rw [mapped_attr, mapped]
  cases hsearch : attribs.search STUN_ATR_TYPE_XOR_MAPPED_ADDR with
  | none =>
    rw [hsearch] at hxor
    have hnil : m.carried .xorMapped = [] := hxor
    rw [if_pos hnil]
    exact hmapped
  | some v =>
    rw [hsearch] at hxor
    have hne : m.carried .xorMapped ≠ [] := by
      intro hnil
      rw [Shows, hnil] at hxor
      simp at hxor
    rw [if_neg hne]
    exact hxor

end Message

theorem Probe.learns_got (stun2 : Bool) (p : Probe) (e : Endpoint) :
    p.Learns e (p.got stun2 e.text.host (atoi e.text.service)).1 := by
  have hport : atoi e.text.service = e.port.toNat :=
    atoi_showNat (Nat.lt_of_lt_of_le e.port.toNat_lt (by decide))
  rw [hport, Probe.Learns, Probe.got]
  split
  · next hready =>
      refine ⟨hready, rfl, rfl, ?_, ?_⟩
      · intro hunknown
        by_cases hsame : (e.port.toNat : ℤ) = p.own_port ∧ e.text.host = p.own_host
        · have hhost : dotted e.address.bytes = p.own_host := hsame.2
          simp [hunknown, hsame, hhost]
        · have hdiffer : (dotted e.address.bytes, (e.port.toNat : ℤ)) ≠ (p.own_host,
            p.own_port) := by
            intro heq
            obtain ⟨hhost, hport⟩ := Prod.mk.inj heq
            exact hsame ⟨hport, hhost⟩
          simp [hunknown, hsame, hdiffer]
      · intro hknown
        simp only [if_neg hknown]
  · exact ⟨rfl, rfl, rfl, rfl⟩

theorem Session.replied_fresh (stun2 : Bool) (s : Session) (m : Message)
    (h : ∀ k : Kind, Shows (m.carried k) (s.response.attribs.search k.type)) :
    ∃ follow s', s.replied stun2 1 (some STUN_BINDRESP) = ((some 1, follow), s') ∧
      s'.response = s.response ∧
      if m.mapped = [] then s'.probe = s.probe
      else ∃ e ∈ m.mapped, s.probe.Learns e s'.probe := by
  have hmapped := m.shows_mapped h
  rw [Session.replied, if_neg (by decide)]
  cases hattr : mapped_attr s.response.attribs with
  | none =>
    rw [hattr] at hmapped
    have hnil : m.mapped = [] := hmapped
    exact ⟨_, _, rfl, rfl, by rw [if_pos hnil]⟩
  | some v =>
    rw [hattr] at hmapped
    obtain ⟨e, he, rfl⟩ := List.mem_map.mp hmapped
    refine ⟨_, _, rfl, rfl, ?_⟩
    rw [if_neg (List.ne_nil_of_mem he)]
    exact ⟨e, he, s.probe.learns_got stun2 e⟩

/-! ## The session -/

/-- A session between two datagrams: the header has its size and the ring buffer is empty. -/
structure Ready (s : Session) (p : Probe) : Prop where
  probe : s.probe = p
  header : s.response.header.length = header_max_len
  ring : Drained s.response.buffer

variable (rb : Rebalance (ℕ × MappedAddress)) (stun2 : Bool)

theorem Ready.response {s : Session} {p : Probe} (h : Ready s p) {m : Message}
    (hread : Readable s (.response m)) :
    ∃ s' r, s.call rb stun2 (.response m) = some (s', r) ∧ Fresh p (.response m) r ∧
      Ready s' r.probe := by
  obtain ⟨hmax, hshort, hold⟩ := hread
  obtain ⟨probe, header, attribs, buffer⟩ := s
  obtain ⟨rfl, hheader, hring⟩ := h
  obtain ⟨buffer', hdrained, hrecv⟩ :=
    on_session_recv_eq rb attribs stun2 probe hheader hring m.isStun_encode hmax
  have hhead : m.head.length = 20 + 0 := m.length_head
  obtain ⟨mem, map', hattrs, hmem, hmap⟩ := read_attribs_attrs rb m.tid.2 m.wellFormed hshort hhead
    m.get_cookie_head (Nat.zero_add _) (Nat.zero_add _).ge (header.drop m.encode.length) attribs
  have hentries : ∀ x, x ∈ map'.entries ↔
      ∃ k : Kind, x.1 = k.type ∧ x.2 ∈ (m.carried k).map Endpoint.text := by
    intro x
    rw [hmap]
    constructor
    · rintro (hx | hx)
      · obtain ⟨k, hk⟩ := m.kind_of_entry hx
        refine ⟨k, hk, m.entry_iff.mp ?_⟩
        rwa [← hk]
      · exact hold x hx
    · rintro ⟨k, hk, hx⟩
      have hentry := m.entry_iff.mpr hx
      rw [← hk] at hentry
      exact Or.inl hentry
  have hshows := m.shows_search hentries
  obtain ⟨follow, s', hreplied, hresponse, hprobe⟩ :=
    Session.replied_fresh stun2 ⟨probe, ⟨mem, map', buffer'⟩⟩ m hshows
  have hbody : read_attribs rb m.body.length m.body.length 0 (received header m.encode) attribs =
      some (1, mem, map') := by
    rw [m.received_encode]
    exact hattrs
  rw [m.field_encode, m.take_encode, hbody, Option.map_some, hreplied] at hrecv
  refine ⟨s', s'.reading (some 1), ?_, ?_, rfl, ?_, ?_⟩
  · simp only [Session.call, Datagram.bytes, hrecv, Option.bind_eq_bind, Option.bind_some]
    rfl
  · refine ⟨⟨1, rfl, by decide⟩, ?_, hprobe⟩
    intro k
    simpa only [Session.reading, hresponse] using hshows k
  · have hlen := m.length_encode
    rw [hresponse, hmem]
    simp only [List.length_append, List.length_drop, m.length_head]
    change 20 + (m.body.length + (header.length - m.encode.length)) = header_max_len
    have hheader : header.length = header_max_len := hheader
    omega
  · rw [hresponse]
    exact hdrained

/-! ## Any other datagram -/

theorem ntohs_inside {mem : List UInt8} {p : ℕ} (h : p + 2 ≤ mem.length) :
    ∃ mem', ntohs mem p = some (beNat (field mem p 2), mem') ∧ mem'.length = mem.length ∧
      ∀ q, q < p ∨ p + 2 ≤ q → mem'[q]? = mem[q]? := by
  have hget : get mem p 2 = some (field mem p 2) := if_pos h
  have hrev : (field mem p 2).reverse.length = 2 := by
    rw [List.length_reverse, length_get hget]
  obtain ⟨mem', hput⟩ := Option.isSome_iff_exists.mp
    (put_isSome.mpr (by rw [hrev]; exact h) : (put mem p (field mem p 2).reverse).isSome)
  refine ⟨mem', ?_, length_put hput, fun q hq ↦ getElem?_put hput (by rw [hrev]; exact hq)⟩
  simp only [ntohs, hget, Option.bind_eq_bind, Option.bind_some, hput]
  rfl

theorem xor_decode_inside {mem : List UInt8} {p : ℕ} {family : UInt8} (h8 : 8 ≤ mem.length)
    (hfamily : mem[p + 1]? = some family)
    (h : p + 4 + (if family = 1 then 4 else 16) ≤ mem.length) :
    ∃ mem', xor_decode_mapped_address mem p = some mem' ∧ mem'.length = mem.length ∧
      mem'[p + 1]? = some family := by
  have hcookie : get mem 4 4 = some (field mem 4 4) := if_pos h8
  have hport : get mem (p + 2) 2 = some (field mem (p + 2) 2) := if_pos (by omega)
  have hcookieLen := length_get hcookie
  have hportLen : (xor (field mem (p + 2) 2) (field mem 4 4)).length = 2 := by
    rw [length_xor (by rw [hcookieLen, length_get hport]; decide), length_get hport]
  obtain ⟨mem₁, hput⟩ := Option.isSome_iff_exists.mp
    (put_isSome.mpr (by rw [hportLen]; omega) :
      (put mem (p + 2) (xor (field mem (p + 2) 2) (field mem 4 4))).isSome)
  have hlen := length_put hput
  obtain ⟨ip, hip⟩ := Option.isSome_iff_exists.mp
    (get_isSome.mpr (by rw [hlen]; exact h) :
      (get mem₁ (p + 4) (if family = 1 then 4 else 16)).isSome)
  have hipLen : (xor ip (field mem 4 4 ++ field mem 4 4 ++ field mem 4 4 ++ field mem 4 4)).length =
      if family = 1 then 4 else 16 := by
    rw [length_xor, length_get hip]
    simp only [List.length_append, hcookieLen, length_get hip]
    split <;> decide
  obtain ⟨mem₂, hput'⟩ := Option.isSome_iff_exists.mp
    (put_isSome.mpr (by rw [hipLen, hlen]; exact h) :
      (put mem₁ (p + 4)
        (xor ip (field mem 4 4 ++ field mem 4 4 ++ field mem 4 4 ++ field mem 4 4))).isSome)
  refine ⟨mem₂, ?_, (length_put hput').trans hlen, ?_⟩
  · simp only [xor_decode_mapped_address, hcookie, hfamily, hport, hput, hip, hput',
      Option.bind_eq_bind, Option.bind_some]
  · rw [getElem?_put hput' (Or.inl (by omega)), getElem?_put hput (Or.inl (by omega)), hfamily]

theorem parse_inside {mem : List UInt8} {p : ℕ} {family : UInt8}
    (hfamily : mem[p + 1]? = some family) (h4 : family = 1 → p + 8 ≤ mem.length)
    (h8 : family = 2 → p + 12 ≤ mem.length) :
    ∃ attr, parse_attrib_address mem p = some attr := by
  simp only [parse_attrib_address, hfamily, Option.bind_eq_bind, Option.bind_some]
  split
  · exact ⟨none, rfl⟩
  · next hknown =>
      rw [not_and_or, not_not, not_not] at hknown
      have hbound : p + 4 + (if family = 1 then 4 else 8) ≤ mem.length := by
        rcases hknown with rfl | rfl
        · exact h4 rfl
        · exact h8 rfl
      have hport : get mem (p + 2) 2 = some (field mem (p + 2) 2) := if_pos (by omega)
      have hip : get mem (p + 4) (if family = 1 then 4 else 8) =
          some (field mem (p + 4) (if family = 1 then 4 else 8)) := if_pos hbound
      exact ⟨_, by simp only [hport, hip, Option.bind_some]; rfl⟩

theorem find_policy_eq {type : ℕ} {policy : List UInt8 → ℕ → Option (Option MappedAddress)}
    (h : find_policy type = some policy) :
    (∃ k : Kind, type = k.type) ∧ policy = parse_attrib_address := by
  by_cases hkind : ∃ k : Kind, type = k.type
  · obtain ⟨k, rfl⟩ := hkind
    rw [find_policy_kind] at h
    exact ⟨⟨k, rfl⟩, (Option.some.inj h).symm⟩
  · rw [find_policy_eq_none (not_exists.mp hkind)] at h
    cases h

theorem raw_attrib_reach {mem : List UInt8} {p : ℕ} (hp : 8 ≤ p)
    (h : p + reach mem p ≤ mem.length) :
    ∃ type total mem', raw_attrib mem p = some (type, total, mem') ∧ mem'.length = mem.length ∧
      ∀ policy, find_policy type = some policy → ∃ attr, policy mem' (p + 4) = some attr := by
  have hfour : 4 ≤ reach mem p := by
    simp only [reach]
    split_ifs <;> decide
  have hfit : p + 2 ≤ mem.length := by omega
  obtain ⟨mem₁, htype, hlen₁, hsame₁⟩ := ntohs_inside hfit
  have hfit₁ : p + 2 + 2 ≤ mem₁.length := by omega
  obtain ⟨mem₂, hlength, hlen₂, hsame₂⟩ := ntohs_inside hfit₁
  have hsame : mem₂[p + 5]? = mem[p + 5]? := by
    rw [hsame₂ _ (Or.inr (by omega)), hsame₁ _ (Or.inr (by omega))]
  by_cases hxor : beNat (field mem p 2) = STUN_ATR_TYPE_XOR_MAPPED_ADDR
  · rw [reach, if_pos hxor] at h
    obtain ⟨family, hfamily⟩ : ∃ family, mem[p + 5]? = some family := by
      refine ⟨_, List.getElem?_eq_getElem ?_⟩
      split at h <;> omega
    simp only [hfamily, Option.some.injEq] at h
    have hbound : p + 4 + 4 + (if family = 1 then 4 else 16) ≤ mem₂.length := by
      split at h
      · next hone => rw [if_pos hone]; omega
      · next hother => rw [if_neg hother]; omega
    obtain ⟨mem₃, hdecode, hlen₃, hfamily₃⟩ :=
      xor_decode_inside (by omega) (hsame.trans hfamily) hbound
    refine ⟨beNat (field mem p 2), 4 + (beNat (field mem₁ (p + 2) 2) + 3) / 4 * 4, mem₃, ?_,
      by omega, ?_⟩
    · simp only [raw_attrib, htype, hlength, if_pos hxor, hdecode, Option.bind_eq_bind,
        Option.bind_some]
      rfl
    · intro policy hpolicy
      obtain ⟨-, rfl⟩ := find_policy_eq hpolicy
      refine parse_inside hfamily₃ ?_ ?_
      · rintro rfl
        rw [if_pos rfl] at hbound
        omega
      · rintro rfl
        rw [if_neg (by decide)] at hbound
        omega
  · refine ⟨beNat (field mem p 2), 4 + (beNat (field mem₁ (p + 2) 2) + 3) / 4 * 4, mem₂, ?_,
      by omega, ?_⟩
    · simp only [raw_attrib, htype, hlength, if_neg hxor, Option.bind_eq_bind, Option.bind_some]
      rfl
    · intro policy hpolicy
      obtain ⟨⟨k, hk⟩, rfl⟩ := find_policy_eq hpolicy
      have hknown : beNat (field mem p 2) = STUN_ATR_TYPE_MAPPED_ADDR ∨
          beNat (field mem p 2) = STUN_ATR_TYPE_CHANGED_ADDRESS := by
        cases k with
        | mapped => exact Or.inl hk
        | xorMapped => exact (hxor hk).elim
        | changed => exact Or.inr hk
      rw [reach, if_neg hxor, if_pos hknown] at h
      obtain ⟨family, hfamily⟩ : ∃ family, mem[p + 5]? = some family := by
        refine ⟨_, List.getElem?_eq_getElem ?_⟩
        split_ifs at h <;> omega
      simp only [hfamily, Option.some.injEq] at h
      refine parse_inside (hsame.trans hfamily) ?_ ?_
      · rintro rfl
        rw [if_pos rfl] at h
        omega
      · rintro rfl
        rw [if_neg (by decide), if_pos rfl] at h
        omega

theorem read_attribs_inside {msglen fuel i : ℕ} {mem : List UInt8} (attribs : Attribs)
    (h : Inside msglen fuel i mem) :
    ∃ ret mem' attribs', read_attribs rb msglen fuel i mem attribs = some (ret, mem', attribs') ∧
      mem'.length = mem.length := by
  induction fuel generalizing i mem attribs with
  | zero => exact ⟨_, _, _, rfl, rfl⟩
  | succ fuel ih =>
    rw [read_attribs]
    split
    · exact ⟨_, _, _, rfl, rfl⟩
    · next hmore =>
        obtain ⟨hreach, hrest⟩ := h (Nat.lt_of_not_le hmore)
        obtain ⟨type, total, mem₁, hraw, hlen, hpolicy⟩ := raw_attrib_reach (by omega) hreach
        have hinside : Inside msglen fuel (i + total) mem₁ := hrest _ hraw
        simp only [hraw, Option.bind_eq_bind, Option.bind_some]
        cases hfind : find_policy type with
        | none =>
          obtain ⟨ret, mem', attribs', hread, hmem⟩ := ih attribs hinside
          exact ⟨ret, mem', attribs', hread, hmem.trans hlen⟩
        | some policy =>
          obtain ⟨attr, hattr⟩ := hpolicy policy hfind
          simp only [hattr, Option.bind_some]
          cases attr with
          | none => exact ⟨_, _, _, rfl, hlen⟩
          | some attr =>
            obtain ⟨ret, mem', attribs', hread, hmem⟩ :=
              ih (attribs.add rb type attr) hinside
            exact ⟨ret, mem', attribs', hread, hmem.trans hlen⟩

theorem Session.replied_own (s : Session) (ret : ℤ) (msgtype : Option ℕ) :
    (s.replied stun2 ret msgtype).2.response = s.response ∧
      (s.probe.own_ready → (s.replied stun2 ret msgtype).2.probe.own_ready ∧
        (s.replied stun2 ret msgtype).2.probe.own_host = s.probe.own_host ∧
          (s.replied stun2 ret msgtype).2.probe.own_port = s.probe.own_port) := by
  rw [Session.replied]
  split
  · exact ⟨rfl, fun h ↦ ⟨h, rfl, rfl⟩⟩
  · cases mapped_attr s.response.attribs with
    | none => exact ⟨rfl, fun h ↦ ⟨h, rfl, rfl⟩⟩
    | some attr =>
      refine ⟨rfl, fun h ↦ ?_⟩
      simp [Probe.got, h]

theorem length_received {header buf : List UInt8} (h20 : 20 ≤ buf.length)
    (hmax : buf.length ≤ header.length) : (received header buf).length = header.length := by
  simp only [received, field, List.length_append, List.length_reverse, List.length_take,
    List.length_drop]
  omega

theorem Ready.other {s : Session} {p : Probe} (h : Ready s p) {buf : List UInt8}
    (hread : Readable s (.other buf)) :
    ∃ s' r, s.call rb stun2 (.other buf) = some (s', r) ∧ Fresh p (.other buf) r ∧
      Ready s' r.probe := by
  obtain ⟨probe, header, attribs, buffer⟩ := s
  obtain ⟨rfl, hheader, hring⟩ := h
  by_cases hstun : IsStun buf
  · obtain ⟨hmax, hinside⟩ := hread hstun
    obtain ⟨buffer', hdrained, hrecv⟩ :=
      on_session_recv_eq rb attribs stun2 probe hheader hring hstun hmax
    obtain ⟨ret, mem, attribs', hattrs, hmem⟩ := read_attribs_inside rb attribs hinside
    rw [hattrs, Option.map_some] at hrecv
    obtain ⟨hresponse, hown⟩ := Session.replied_own stun2 ⟨probe, ⟨mem, attribs', buffer'⟩⟩ ret
      (some (beNat (buf.take 2)))
    rcases hreplied : Session.replied stun2 ⟨probe, ⟨mem, attribs', buffer'⟩⟩ ret
      (some (beNat (buf.take 2))) with ⟨⟨answer, follow⟩, s'⟩
    rw [hreplied] at hrecv hresponse hown
    refine ⟨s', s'.reading answer, ?_, hown, rfl, ?_, ?_⟩
    · simp only [Session.call, Datagram.bytes, hrecv, Option.bind_eq_bind, Option.bind_some]
      rfl
    · rw [hresponse]
      exact hmem.trans ((length_received hstun.1 (hmax.trans hheader.ge)).trans hheader)
    · rw [hresponse]
      exact hdrained
  · have hrecv : on_session_recv rb stun2 ⟨probe, ⟨header, attribs, buffer⟩⟩ buf =
        some ((none, .nothing), ⟨probe, ⟨header, attribs, buffer⟩⟩) := by
      rw [on_session_recv, if_pos hstun]
    refine ⟨_, Session.reading ⟨probe, ⟨header, attribs, buffer⟩⟩ none, ?_,
      fun h ↦ ⟨h, rfl, rfl⟩, rfl, hheader, hring⟩
    simp only [Session.call, Datagram.bytes, hrecv, Option.bind_eq_bind, Option.bind_some]
    rfl

theorem Ready.call {s : Session} {p : Probe} {d : Datagram} (h : Ready s p)
    (hread : Readable s d) :
    ∃ s' r, s.call rb stun2 d = some (s', r) ∧ fresh.ok p d r ∧ Ready s' (fresh.next p d r) := by
  cases d with
  | response m => exact h.response rb stun2 hread
  | other buf => exact h.other rb stun2 hread

/-- On every run of datagrams that can be read well, each response is read, a lookup gives what it
carries, and the probe learns the own address from the first one and the kind of translation from
the second. -/
theorem refines_fresh {header : List.Vector UInt8 header_max_len} {ring : List.Vector UInt8 1024}
    {p : Probe} {ds : List Datagram}
    (hrun : Refine.Within (Session.call rb stun2) fresh Readable (.new header ring p) p ds) :
    Refine.Refines (Session.call rb stun2) fresh (.new header ring p) p ds := by
  have hready : Ready (.new header ring p) p := ⟨rfl, header.2, drained_new ring⟩
  have hstep : ∀ s p d, Ready s p → Readable s d → ∃ s' r, s.call rb stun2 d = some (s', r) ∧
      fresh.ok p d r ∧ Ready s' (fresh.next p d r) :=
    fun _ _ _ h hread ↦ h.call rb stun2 hread
  exact (Refine.refines_of_simulation hstep hready hrun).2

/-- A response that carries one address, with an attribute behind it that is skipped. -/
def addressReply (ip : List.Vector UInt8 4) (port : UInt16) : Message where
  tid := ⟨List.replicate 12 0, rfl⟩
  attrs := [.address .xorMapped 0 ⟨.v4 ip, port⟩, .other 0x8022 [65, 66, 67] [0]]
  wellFormed := by
    intro a ha
    simp only [List.mem_cons, List.not_mem_nil, or_false] at ha
    rcases ha with rfl | rfl
    · trivial
    · decide
  length_lt := by
    have hvalue := Attribute.length_value .xorMapped 0 (e := ⟨.v4 ip, port⟩) rfl
      (List.length_replicate (n := 12) (a := 0))
    simp only [List.flatMap_cons, List.flatMap_nil, List.length_append, Attribute.length_bytes,
      hvalue, Attribute.pad]
    decide

/-- Both servers see one address, and a datagram that is too short comes between. -/
theorem refines_fresh_same_address :
    Refine.Refines (Session.call (.small _) true) fresh
      (.new ⟨List.replicate 548 0, List.length_replicate⟩
        ⟨List.replicate 1024 0, List.length_replicate⟩ ⟨[], 0, false, .unknown⟩)
      ⟨[], 0, false, .unknown⟩
      [.response (addressReply ⟨[10, 0, 0, 7], rfl⟩ 4242), .other [1, 1],
        .response (addressReply ⟨[10, 0, 0, 7], rfl⟩ 4242)] :=
  refines_fresh _ _ (by decide +kernel)

/-- The second server sees another address, and the lookup still gives that of the first. -/
theorem not_refines_fresh :
    ¬ Refine.Refines (Session.call (.small _) true) fresh
      (.new ⟨List.replicate 548 0, List.length_replicate⟩
        ⟨List.replicate 1024 0, List.length_replicate⟩ ⟨[], 0, false, .unknown⟩)
      ⟨[], 0, false, .unknown⟩
      [.response (addressReply ⟨[10, 0, 0, 7], rfl⟩ 4242),
        .response (addressReply ⟨[10, 0, 0, 8], rfl⟩ 4243)] := by
  decide +kernel

end Libobject.Stun
