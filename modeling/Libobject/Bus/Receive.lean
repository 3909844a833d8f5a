import Libobject.Core.Blob
import Libobject.Core.RingBuffer

/-!
# Messages on a stream

The receive callbacks of the bus and of its daemon. The bytes of a chunk go into the ring buffer
that the task keeps between two callbacks; whole messages are taken out of it, parsed into the
attribute array and handed to the handler of their type. The two callbacks are one loop over two
tables of names and handlers.
-/

namespace Libobject.Bus

open Blob Scan

def BLOB_MAX_SIZE : ℕ := 1024 * 10

/-- `bus_reqhdr_t`: the version, the type and the two ids. -/
def reqhdr (type : UInt8) : List UInt8 := 0 :: type :: List.replicate 8 0

def hdrVersion (hdr : List UInt8) : UInt8 := hdr.getD 0 0

def hdrType (hdr : List UInt8) : UInt8 := hdr.getD 1 0

/-- The tables of a receive callback. A handler is known by the attributes that it looks at. -/
structure Endpoint (α : Type) where
  attribs : α → Text
  handlers : List (UInt8 × List α)
  accepts : List UInt8 → Bool
  dropsEmpty : Bool
  nul_free : ∀ a, 0 ∉ attribs a
  handled : ∀ p ∈ handlers, p.1 < 17 ∧ accepts (reqhdr p.1) = true

/-- A handler call: the message and the attribute array at the places the handler looks at. -/
structure Call where
  message : List UInt8
  view : List Slot
  deriving DecidableEq

/-- `work_task_t`: what outlives a callback. `calls` are the handler calls so far. -/
structure Task where
  cache : Option RingBuffer
  calls : List Call

variable {α : Type} (ep : Endpoint α)

def Endpoint.handler (t : UInt8) : Option (List α) :=
  (ep.handlers.find? (fun p ↦ p.1 = t)).map Prod.snd

/-- How one round of the loop ends. -/
inductive Round (α : Type)
  | ret (code : ℤ) (rb : RingBuffer) (calls : List Call)
  | again (rb : RingBuffer) (tb : α → Slot) (calls : List Call)

/-- Parse the message that was read into `buffer` and call its handler. It is `none` where the
message or the array of handlers is overrun. -/
def dispatch (fails : List Call → Bool) (buffer : List UInt8) (rb : RingBuffer) (tb : α → Slot)
    (calls : List Call) : Option (Round α) :=
  -- the pointers of the message before go into the buffer that was just overwritten
  match parseToAttr ep.attribs (buffer.drop 10).length (fun a ↦ (tb a).stale)
      (getData (buffer.drop 10)) (getDataLen (buffer.drop 10)) with
  | none => none
  | some tb =>
    if hdrType buffer = 17 then none
    else
      match ep.handler (hdrType buffer) with
      | none => some (.ret (-1) rb calls)
      | some reads =>
        let calls := calls ++ [⟨buffer, reads.map tb⟩]
        if fails calls then some (.ret (-1) rb calls)
        else if rb.getLen = 0 then some (.ret 1 rb calls)
        else some (.again rb tb calls)

def blobTableLen (rb : RingBuffer) : ℕ := getLen ((rb.peek 15).drop 10)

/-- One round of the loop. -/
def receiveOne (fails : List Call → Bool) (rb : RingBuffer) (tb : α → Slot) (calls : List Call) :
    Option (Round α) :=
  if rb.getLen < 15 then some (.ret 0 rb calls)
  else if ep.accepts (rb.peek 10) = false then some (.ret (-1) rb calls)
  else if rb.getLen - 10 < blobTableLen rb then some (.ret 0 rb calls)
  else
    dispatch ep fails (rb.read (10 + blobTableLen rb)).1 (rb.read (10 + blobTableLen rb)).2 tb calls

/-- The loop over the messages in the ring buffer, with the value the callback returns. -/
def receiveLoop (fails : List Call → Bool) :
    ℕ → RingBuffer → (α → Slot) → List Call → Option (ℤ × RingBuffer × List Call)
  | 0, _, _, _ => none
  | fuel + 1, rb, tb, calls =>
    match receiveOne ep fails rb tb calls with
    | none => none
    | some (.ret code rb calls) => some (code, rb, calls)
    | some (.again rb tb calls) => receiveLoop fails fuel rb tb calls

/-- What the callback finds in memory that nobody has written. -/
structure Memory (α : Type) where
  addr : List UInt8
  buffer : List UInt8
  tb : α → Slot
  length_buffer : buffer.length = BLOB_MAX_SIZE

/-- One call of the receive callback with a chunk. -/
def receive (fails : List Call → Bool) (t : Task) (chunk : List UInt8) (mem : Memory α) :
    Option Task :=
  if chunk = [] then some { t with cache := none }
  else
    let rb := (t.cache.getD ((RingBuffer.new mem.addr).setSize mem.buffer)).write chunk
    match receiveLoop ep fails (rb.getLen + 1) rb mem.tb t.calls with
    | none => none
    | some (ret, rb, calls) =>
      some ⟨if (ep.dropsEmpty = true ∧ rb.getLen = 0) ∨ ret < 0 then none else some rb, calls⟩

def receiveAll (fails : List Call → Bool) (t : Task) : List (List UInt8 × Memory α) → Option Task
  | [] => some t
  | (chunk, mem) :: rest => (receive ep fails t chunk mem).bind fun t ↦ receiveAll fails t rest

/-! ## The messages that are sent -/

structure Msg where
  type : UInt8
  name : Text
  attrs : List Attr
  deriving DecidableEq

def Msg.table (m : Msg) : Attr := ⟨2, m.name, m.attrs.flatMap Attr.bytes⟩

def Msg.bytes (m : Msg) : List UInt8 := reqhdr m.type ++ m.table.bytes

structure Msg.WellFormed (m : Msg) : Prop where
  handled : (ep.handler m.type).isSome = true
  table : m.table.Valid
  name_lt : 5 + (m.name.length + 1) < 256
  attrs : ∀ x ∈ m.attrs, x.Valid

def Msg.reads (m : Msg) : List α := (ep.handler m.type).getD []

/-- The call that the loop makes for a message, with the array as it was before. -/
def Msg.call (tb : α → Slot) (m : Msg) : Call :=
  ⟨m.bytes, (m.reads ep).map (parsed ep.attribs (fun a ↦ (tb a).stale) m.attrs)⟩

/-- The call that the message asks for: each attribute is the message's own or absent. -/
def Msg.intended (m : Msg) : Call :=
  ⟨m.bytes, (m.reads ep).map fun a ↦
    match lastNamed (ep.attribs a) m.attrs with
    | some x => .present x.bytes
    | none => .absent⟩

/-- Every attribute that the handler looks at is there, and no other one stands in for it. -/
def Msg.SelfContained (m : Msg) : Prop :=
  ∀ a ∈ m.reads ep, ∃ x, lastMatch (ep.attribs a) m.attrs = some x ∧ x.name = ep.attribs a

def stream (ms : List Msg) : List UInt8 := ms.flatMap Msg.bytes

variable {ep}

/-! ## One message -/

theorem Endpoint.handler_spec {t : UInt8} (h : (ep.handler t).isSome = true) :
    t < 17 ∧ ep.accepts (reqhdr t) = true := by
  rw [handler, Option.isSome_map, Option.isSome_iff_exists] at h
  obtain ⟨p, hp⟩ := h
  have ht : p.1 = t := by simpa using List.find?_some hp
  rw [← ht]
  exact ep.handled p (List.mem_of_find?_eq_some hp)

@[simp] theorem length_reqhdr (t : UInt8) : (reqhdr t).length = 10 := rfl

variable {m : Msg}

theorem Msg.length_bytes (m : Msg) : m.bytes.length = 10 + m.table.len := by
  rw [bytes, List.length_append, Attr.length_bytes, length_reqhdr]

theorem Msg.len_table_pos (m : Msg) : 6 ≤ m.table.len := by
  rw [Attr.len]
  omega

theorem stream_cons (m : Msg) (ms : List Msg) : stream (m :: ms) = m.bytes ++ stream ms :=
  List.flatMap_cons

theorem stream_append (xs ys : List Msg) : stream (xs ++ ys) = stream xs ++ stream ys :=
  List.flatMap_append

theorem Msg.WellFormed.peeked (h : m.WellFormed ep) {part more rest : List UInt8}
    (hpart : part ++ more = m.bytes ++ rest) (hlen : 15 ≤ part.length) :
    part.take 10 = reqhdr m.type ∧ getLen ((part.take 15).drop 10) = m.table.len := by
  have htake : ∀ n, n ≤ part.length → part.take n = (m.bytes ++ rest).take n := by
    intro n hn
    rw [← hpart, List.take_append_of_le_length hn]
  have hdrop : (m.bytes ++ rest).drop 10 = m.table.bytes ++ rest := by
    rw [bytes, List.append_assoc]
    exact List.drop_left' (length_reqhdr m.type)
  constructor
  · rw [htake 10 (by omega), bytes, List.append_assoc]
    exact List.take_left' (length_reqhdr m.type)
  · rw [htake 15 hlen, List.drop_take, hdrop, Blob.getLen, field_take (by omega)]
    exact h.table.getLen rest

theorem Msg.WellFormed.parsed (h : m.WellFormed ep) (tb : α → Slot) :
    parseToAttr ep.attribs (m.bytes.drop 10).length tb (getData (m.bytes.drop 10))
      (getDataLen (m.bytes.drop 10)) = some (parsed ep.attribs tb m.attrs) := by
  have hdrop : m.bytes.drop 10 = m.table.bytes :=
    List.drop_left' (length_reqhdr m.type)
  have hlen := length_le_flatMap m.attrs
  rw [hdrop, h.table.getData, h.table.getDataLen h.name_lt, Attr.length_bytes]
  refine parseToAttr_eq ep.nul_free h.attrs ?_ tb
  rw [Attr.len]
  change m.attrs.length < 5 + (m.name.length + 1) + (m.attrs.flatMap Attr.bytes).length
  omega

theorem receiveOne_wait (hm : m.WellFormed ep) (fails : List Call → Bool) {rb : RingBuffer}
    (hrb : rb.Valid) (hop : rb.lastOperation ≠ .na) {later rest : List UInt8}
    (hbytes : rb.contents ++ later = m.bytes ++ rest) (hlt : rb.contents.length < m.bytes.length)
    (tb : α → Slot) (calls : List Call) :
    receiveOne ep fails rb tb calls = some (.ret 0 rb calls) := by
  rw [m.length_bytes] at hlt
  rw [receiveOne, RingBuffer.getLen_eq hrb hop]
  by_cases hshort : rb.contents.length < 15
  · exact if_pos hshort
  · obtain ⟨hhdr, hlen⟩ := hm.peeked hbytes (by omega)
    have haccepts := (ep.handler_spec hm.handled).2
    simp only [blobTableLen, RingBuffer.peek_eq hrb, hhdr, hlen]
    rw [if_neg hshort, if_neg (by simp [haccepts]), if_pos (by omega)]

theorem receiveOne_dispatch (hm : m.WellFormed ep) (fails : List Call → Bool) {rb : RingBuffer}
    (hrb : rb.Valid) (hop : rb.lastOperation ≠ .na) {rest : List UInt8}
    (hbytes : rb.contents = m.bytes ++ rest) (tb : α → Slot) (calls : List Call) :
    ∃ rb' : RingBuffer, rb'.Valid ∧ rb'.lastOperation ≠ .na ∧ rb'.size = rb.size ∧
      rb'.contents = rest ∧ receiveOne ep fails rb tb calls = some
        (if fails (calls ++ [m.call ep tb]) then .ret (-1) rb' (calls ++ [m.call ep tb])
        else if rest = [] then .ret 1 rb' (calls ++ [m.call ep tb])
        else .again rb' (parsed ep.attribs (fun a ↦ (tb a).stale) m.attrs)
          (calls ++ [m.call ep tb])) := by
  have hlength : rb.contents.length = 10 + m.table.len + rest.length := by
    rw [hbytes, List.length_append, m.length_bytes]
  have hpos := m.len_table_pos
  have hpart : rb.contents ++ [] = m.bytes ++ rest := by rw [List.append_nil, hbytes]
  obtain ⟨hhdr, hlen⟩ := hm.peeked hpart (by omega)
  obtain ⟨htype, haccepts⟩ := ep.handler_spec hm.handled
  obtain ⟨reads, hreads⟩ := Option.isSome_iff_exists.mp hm.handled
  have htotal : 0 < 10 + m.table.len := by omega
  obtain ⟨hread, hvalid, hcont⟩ := RingBuffer.read_spec hrb htotal
  have hread' : (rb.read (10 + m.table.len)).1 = m.bytes := by
    rw [hread, hbytes, ← m.length_bytes, List.take_left]
  have hcont' : (rb.read (10 + m.table.len)).2.contents = rest := by
    rw [hcont, hbytes, ← m.length_bytes, List.drop_left]
  have hop' := RingBuffer.lastOperation_read hop (10 + m.table.len)
  have hcall : m.call ep tb =
      ⟨m.bytes, reads.map (parsed ep.attribs (fun a ↦ (tb a).stale) m.attrs)⟩ := by
    rw [Msg.call, Msg.reads, hreads, Option.getD_some]
  have hhdrType : hdrType m.bytes = m.type := rfl
  have hne : m.type ≠ 17 := by
    intro heq
    rw [heq] at htype
    exact absurd htype (by decide)
  refine ⟨(rb.read (10 + m.table.len)).2, hvalid, hop', RingBuffer.size_read _ _, hcont', ?_⟩
  rw [receiveOne, RingBuffer.getLen_eq hrb hop]
  simp only [blobTableLen, RingBuffer.peek_eq hrb, hhdr, hlen, hread', dispatch, hm.parsed,
    hhdrType, hreads, RingBuffer.getLen_eq hvalid hop', hcont', List.length_eq_zero_iff, ← hcall]
  rw [if_neg (by omega), if_neg (by simp [haccepts]), if_neg (by omega), if_neg hne]
  split_ifs <;> rfl

/-! ## What the handlers see -/

/-- Every place of the array points somewhere. -/
def Full (tb : α → Slot) : Prop := ∀ a, tb a ≠ .absent

theorem Full.stale {tb : α → Slot} (h : Full tb) (a : α) : (tb a).stale = .dangling := by
  cases htb : tb a with
  | absent => exact (h a htb).elim
  | dangling => rfl
  | present attr => rfl

theorem Full.parsed {tb : α → Slot} (h : Full tb) (attrs : List Attr) :
    Full (parsed ep.attribs (fun a ↦ (tb a).stale) attrs) := by
  intro a
  rw [Blob.parsed]
  split
  · simp
  · simp [h.stale]

theorem lastNamed_of_lastMatch {n : Text} {attrs : List Attr} {x : Attr}
    (hx : lastMatch n attrs = some x) (hname : x.name = n) : lastNamed n attrs = some x := by
  rw [lastMatch] at hx
  rw [lastNamed]
  generalize attrs.reverse = ys at hx ⊢
  induction ys with
  | nil => cases hx
  | cons y ys ih =>
    rw [List.find?_cons] at hx ⊢
    by_cases hy : y.name = n
    · have hpre : n.isPrefixOf y.name = true :=
        List.isPrefixOf_iff_prefix.mpr (hy ▸ List.prefix_rfl)
      rw [hpre] at hx
      simpa [hy] using hx
    · cases hpre : n.isPrefixOf y.name with
      | true =>
        rw [hpre] at hx
        cases hx
        exact (hy hname).elim
      | false =>
        rw [hpre] at hx
        simpa [hy] using ih hx

theorem Msg.SelfContained.call_eq (h : m.SelfContained ep) (tb : α → Slot) :
    m.call ep tb = m.intended ep := by
  rw [call, intended]
  congr 1
  refine List.map_congr_left fun a ha ↦ ?_
  obtain ⟨x, hx, hname⟩ := h a ha
  rw [parsed, hx, lastNamed_of_lastMatch hx hname]

theorem Msg.selfContained_of_call_eq (hm : m.WellFormed ep) {tb : α → Slot} (htb : Full tb)
    (h : m.call ep tb = m.intended ep) : m.SelfContained ep := by
  rw [call, intended, Call.mk.injEq] at h
  have hview := List.map_inj_left.mp h.2
  intro a ha
  have hslot := hview a ha
  rw [parsed] at hslot
  cases hmatch : lastMatch (ep.attribs a) m.attrs with
  | none =>
    rw [hmatch] at hslot
    simp only [htb.stale] at hslot
    split at hslot <;> cases hslot
  | some x =>
    rw [hmatch] at hslot
    cases hnamed : lastNamed (ep.attribs a) m.attrs with
    | none =>
      rw [hnamed] at hslot
      cases hslot
    | some y =>
      rw [hnamed] at hslot
      have hbytes : x.bytes = y.bytes := Slot.present.inj hslot
      have hx : x ∈ m.attrs := List.mem_reverse.mp (List.mem_of_find?_eq_some hmatch)
      have hy : y ∈ m.attrs := List.mem_reverse.mp (List.mem_of_find?_eq_some hnamed)
      have hyname : y.name = ep.attribs a := by simpa using List.find?_some hnamed
      refine ⟨x, rfl, ?_⟩
      rw [← (hm.attrs x hx).getName, hbytes, (hm.attrs y hy).getName, hyname]

/-! ## One chunk -/

/-- The calls made for messages, each with some array: one full of pointers if the first was. -/
def Views (ep : Endpoint α) (tb : α → Slot) : List Msg → List Call → Prop :=
  List.Forall₂ fun m c ↦ ∃ tb', (Full tb → Full tb') ∧ c = m.call ep tb'

def NoneFails (fails : List Call → Bool) (calls new : List Call) : Prop :=
  ∀ pre, pre ≠ [] → pre <+: new → fails (calls ++ pre) = false

def LastFails (fails : List Call → Bool) (calls new : List Call) : Prop :=
  ∃ front last, new = front ++ [last] ∧ NoneFails fails calls front ∧
    fails (calls ++ new) = true

/-- `part` is a proper beginning of the first of the messages, or nothing at all. -/
def Incomplete (part : List UInt8) (ms : List Msg) : Prop :=
  ∀ m ∈ ms.head?, part.length < m.bytes.length

variable {fails : List Call → Bool}

theorem noneFails_nil (calls : List Call) : NoneFails fails calls [] := by
  intro pre hne hpre
  exact (hne (List.prefix_nil.mp hpre)).elim

theorem NoneFails.cons {calls new : List Call} {c : Call} (hc : fails (calls ++ [c]) = false)
    (h : NoneFails fails (calls ++ [c]) new) : NoneFails fails calls (c :: new) := by
  intro pre hne hpre
  obtain ⟨tail, rfl, htail⟩ := (List.prefix_cons_iff.mp hpre).resolve_left hne
  by_cases htailNe : tail = []
  · rw [htailNe]
    exact hc
  · simpa using h tail htailNe htail

theorem LastFails.cons {calls new : List Call} {c : Call} (hc : fails (calls ++ [c]) = false)
    (h : LastFails fails (calls ++ [c]) new) : LastFails fails calls (c :: new) := by
  obtain ⟨front, last, rfl, hfront, hlast⟩ := h
  exact ⟨c :: front, last, rfl, hfront.cons hc, by simpa using hlast⟩

theorem incomplete_nil (ms : List Msg) : Incomplete [] ms := by
  intro m _
  rw [m.length_bytes, List.length_nil]
  omega

theorem LastFails.eq_of_fails {calls new pre : List Call} (h : LastFails fails calls new)
    (hne : pre ≠ []) (hpre : pre <+: new) (hfail : fails (calls ++ pre) = true) : pre = new := by
  obtain ⟨front, last, rfl, hfront, -⟩ := h
  rcases List.prefix_concat_iff.mp hpre with heq | hpre
  · exact heq
  · rw [hfront pre hne hpre] at hfail
    cases hfail

/-- What the loop leaves behind, for the messages `ms` that begin in the buffer: it has called the
handlers of `done`, and the bytes of `rest` that are there stay in the ring buffer. -/
structure LoopResult (ep : Endpoint α) (fails : List Call → Bool) (rb : RingBuffer)
    (tb : α → Slot) (calls : List Call) (ms : List Msg) (ret : ℤ) (rb' : RingBuffer)
    (done rest : List Msg) (new : List Call) : Prop where
  valid : rb'.Valid
  lastOperation : rb'.lastOperation ≠ .na
  size : rb'.size = rb.size
  split : ms = done ++ rest
  views : Views ep tb done new
  contents : rb.contents = stream done ++ rb'.contents
  ending : (0 ≤ ret ∧ NoneFails fails calls new ∧ Incomplete rb'.contents rest) ∨
    (ret < 0 ∧ LastFails fails calls new)

theorem receiveLoop_spec (fails : List Call → Bool) {ms : List Msg}
    (hms : ∀ m ∈ ms, m.WellFormed ep) {rb : RingBuffer}
    (hrb : rb.Valid) (hop : rb.lastOperation ≠ .na) {later : List UInt8}
    (hbytes : rb.contents ++ later = stream ms) (hne : rb.contents ≠ []) {fuel : ℕ}
    (hfuel : rb.contents.length < fuel) (tb : α → Slot) (calls : List Call) :
    ∃ ret rb' done rest new, receiveLoop ep fails fuel rb tb calls = some (ret, rb', calls ++ new) ∧
      LoopResult ep fails rb tb calls ms ret rb' done rest new := by
  induction ms generalizing rb fuel tb calls with
  | nil => exact (hne (List.append_eq_nil_iff.mp hbytes).1).elim
  | cons m ms ih =>
    obtain ⟨fuel, rfl⟩ := Nat.exists_eq_succ_of_ne_zero (Nat.ne_zero_of_lt hfuel)
    have hm := hms m List.mem_cons_self
    rw [stream_cons] at hbytes
    by_cases hlt : rb.contents.length < m.bytes.length
    · have hwait := receiveOne_wait hm fails hrb hop hbytes hlt tb calls
      refine ⟨0, rb, [], m :: ms, [], ?_, ?_⟩
      · simp only [receiveLoop, hwait, List.append_nil]
      refine ⟨hrb, hop, rfl, rfl, .nil, rfl, .inl ⟨le_rfl, noneFails_nil calls, ?_⟩⟩
      rintro _ ⟨⟩
      exact hlt
    · obtain ⟨left, hleft, hrest⟩ : ∃ left, rb.contents = m.bytes ++ left ∧
          left ++ later = stream ms := by
        have hpre : m.bytes <+: rb.contents :=
          List.prefix_of_prefix_length_le ⟨stream ms, hbytes.symm⟩ (List.prefix_append _ _)
            (by omega)
        obtain ⟨left, hleft⟩ := hpre
        refine ⟨left, hleft.symm, ?_⟩
        rw [← hleft, List.append_assoc] at hbytes
        exact List.append_cancel_left hbytes
      obtain ⟨rb', hrb', hop', hsize, hcont, hround⟩ :=
        receiveOne_dispatch hm fails hrb hop hleft tb calls
      have hview : ∃ tb', (Full tb → Full tb') ∧ m.call ep tb = m.call ep tb' := ⟨tb, id, rfl⟩
      have hpos := m.length_bytes
      cases hfail : fails (calls ++ [m.call ep tb]) with
      | true =>
        refine ⟨-1, rb', [m], ms, [m.call ep tb],
          by simp only [receiveLoop, hround, hfail, if_true], hrb', hop', hsize, rfl,
          .cons hview .nil, ?_, .inr ⟨by decide, [], m.call ep tb, rfl, noneFails_nil calls,
            hfail⟩⟩
        rw [hcont, stream_cons, hleft]
        simp [stream]
      | false =>
        rw [hfail, if_neg (by simp)] at hround
        by_cases hnil : left = []
        · refine ⟨1, rb', [m], ms, [m.call ep tb],
            by simp only [receiveLoop, hround, if_pos hnil], hrb', hop', hsize, rfl,
            .cons hview .nil, ?_, .inl ⟨by decide, (noneFails_nil _).cons hfail, ?_⟩⟩
          · rw [hcont, stream_cons, hleft]
            simp [stream]
          · rw [hcont, hnil]
            exact incomplete_nil ms
        · rw [if_neg hnil] at hround
          rw [hleft, List.length_append] at hfuel
          have hfuel' : rb'.contents.length < fuel := by
            rw [hcont]
            omega
          obtain ⟨ret, rb'', done, rest, new, hrun, hres⟩ :=
            ih (fun x hx ↦ hms x (List.mem_cons_of_mem m hx)) hrb' hop' (hcont ▸ hrest)
              (hcont ▸ hnil) hfuel'
              (parsed ep.attribs (fun a ↦ (tb a).stale) m.attrs) (calls ++ [m.call ep tb])
          refine ⟨ret, rb'', m :: done, rest, m.call ep tb :: new, ?_,
            hres.valid, hres.lastOperation, hres.size.trans hsize, ?_, ?_, ?_, ?_⟩
          · simpa [receiveLoop, hround] using hrun
          · rw [hres.split, List.cons_append]
          · refine .cons hview (hres.views.imp fun _ _ h ↦ ?_)
            obtain ⟨tb', hfull, hcall⟩ := h
            exact ⟨tb', fun htb ↦ hfull (htb.parsed m.attrs), hcall⟩
          · rw [stream_cons, List.append_assoc, ← hres.contents, hcont, hleft]
          · rcases hres.ending with ⟨hret, hnone, hinc⟩ | ⟨hret, hlast⟩
            · exact .inl ⟨hret, hnone.cons hfail, hinc⟩
            · exact .inr ⟨hret, hlast.cons hfail⟩

/-- The task keeps the bytes `part`, in a ring buffer unless there are none. -/
def Task.Holds (t : Task) (part : List UInt8) : Prop :=
  match t.cache with
  | none => part = []
  | some rb => rb.Valid ∧ rb.lastOperation ≠ .na ∧ rb.size = BLOB_MAX_SIZE ∧ rb.contents = part

theorem new_setSize (mem : Memory α) :
    let rb := (RingBuffer.new mem.addr).setSize mem.buffer
    rb.Valid ∧ rb.size = BLOB_MAX_SIZE ∧ rb.contents = [] := by
  have hlen := mem.length_buffer
  have hsize : ((RingBuffer.new mem.addr).setSize mem.buffer).size = BLOB_MAX_SIZE := by
    rw [RingBuffer.setSize]
    split
    · exact hlen
    · next heq => exact (not_not.mp heq).symm.trans hlen
  have hoff : ((RingBuffer.new mem.addr).setSize mem.buffer).rOffset = 0 ∧
      ((RingBuffer.new mem.addr).setSize mem.buffer).wOffset = 0 ∧
      ((RingBuffer.new mem.addr).setSize mem.buffer).lastOperation = .na := by
    rw [RingBuffer.setSize]
    split <;> exact ⟨rfl, rfl, rfl⟩
  refine ⟨⟨?_, ?_⟩, hsize, ?_⟩
  · rw [hoff.1, hsize]
    decide
  · rw [hoff.2.1, hsize]
    decide
  · rw [RingBuffer.contents, RingBuffer.readable, hoff.1, hoff.2.1, hoff.2.2]
    rfl

theorem Task.Holds.ring {t : Task} {part : List UInt8} (h : t.Holds part) (mem : Memory α) :
    let rb := t.cache.getD ((RingBuffer.new mem.addr).setSize mem.buffer)
    rb.Valid ∧ rb.size = BLOB_MAX_SIZE ∧ rb.contents = part := by
  rw [Holds] at h
  cases hcache : t.cache with
  | none =>
    rw [hcache] at h
    rw [h]
    exact new_setSize mem
  | some rb =>
    rw [hcache] at h
    exact ⟨h.1, h.2.2.1, h.2.2.2⟩

structure Received (ep : Endpoint α) (fails : List Call → Bool) (t : Task)
    (part chunk : List UInt8) (mem : Memory α) (ms : List Msg) (t' : Task)
    (done rest : List Msg) (new : List Call) (left : List UInt8) : Prop where
  received : receive ep fails t chunk mem = some t'
  calls : t'.calls = t.calls ++ new
  split : ms = done ++ rest
  views : Views ep mem.tb done new
  contents : part ++ chunk = stream done ++ left
  ending : (NoneFails fails t.calls new ∧ Incomplete left rest ∧ t'.Holds left) ∨
    (LastFails fails t.calls new ∧ t'.Holds [])

theorem receive_spec {ms : List Msg} (hms : ∀ m ∈ ms, m.WellFormed ep) {t : Task}
    {part chunk later : List UInt8} (ht : t.Holds part) (hchunk : chunk ≠ [])
    (hfits : part.length + chunk.length ≤ BLOB_MAX_SIZE)
    (hbytes : part ++ chunk ++ later = stream ms) (mem : Memory α) :
    ∃ t' done rest new left, Received ep fails t part chunk mem ms t' done rest new left := by
  obtain ⟨hvalid, hsize, hpart⟩ := ht.ring mem
  obtain ⟨hvalid', hcont, hsize', hop⟩ :=
    RingBuffer.write_spec hvalid hchunk (by rw [hpart, hsize]; exact hfits)
  rw [hpart] at hcont
  rw [← hcont] at hbytes
  obtain ⟨ret, rb', done, rest, new, hloop, hres⟩ :=
    receiveLoop_spec fails hms hvalid' (by simp [hop]) hbytes
      (by simp [hcont, hchunk]) (Nat.lt_succ_self _) mem.tb t.calls
  rw [← RingBuffer.getLen_eq hvalid' (by simp [hop])] at hloop
  have hkept : ∀ calls, Task.Holds ⟨some rb', calls⟩ rb'.contents := fun calls ↦
    ⟨hres.valid, hres.lastOperation, by rw [hres.size, hsize', hsize], rfl⟩
  have hzero := RingBuffer.getLen_eq hres.valid hres.lastOperation
  refine ⟨⟨if (ep.dropsEmpty = true ∧ rb'.getLen = 0) ∨ ret < 0 then none else some rb',
    t.calls ++ new⟩, done, rest, new, rb'.contents, ?_, rfl, hres.split, hres.views,
    hcont.symm.trans hres.contents, ?_⟩
  · simp only [receive, if_neg hchunk, hloop]
  · rcases hres.ending with ⟨hret, hnone, hinc⟩ | ⟨hret, hlast⟩
    · refine .inl ⟨hnone, hinc, ?_⟩
      split
      · next hdrop =>
          have hempty : rb'.getLen = 0 := by
            rcases hdrop with hdrop | hdrop
            · exact hdrop.2
            · omega
          exact List.eq_nil_of_length_eq_zero (hzero.symm.trans hempty)
      · exact hkept _
    · refine .inr ⟨hlast, ?_⟩
      rw [if_pos (.inr hret)]
      exact rfl

end Libobject.Bus
