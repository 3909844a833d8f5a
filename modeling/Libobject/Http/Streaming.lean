import Libobject.Http.Server

/-!
# Requests in chunks

The head of a request is read with the chunk that starts it, and every further chunk goes to the
body. The state of a connection is what the bytes of the unfinished request make of it.
-/

namespace Libobject.Http

open Scan

/-! ## Lines of the ring buffer -/

section Ring

variable {buffer : RingBuffer} {cap : ℕ} {items rest : List UInt8} {line : Text}

theorem not_isNil (h : buffer.Holds ⟨cap, items⟩) (hne : items ≠ []) : ¬buffer.IsNil :=
  fun hnil ↦ hne (h.items_eq_nil hnil)

theorem read_line (line : Text) (h : buffer.Holds ⟨1024, line ++ (CRLF ++ rest)⟩)
    (hop : buffer.lastOperation ≠ .na) (hcr : 13 ∉ line) (hnul : 0 ∉ line)
    (hend : buffer.rOffset + (line.length + 2) < 1024) :
    buffer.get_needle_offset CRLF = some line.length ∧
      ∃ buffer', read_to_string buffer (line.length + 2) = some (buffer', line ++ CRLF) ∧
        buffer'.Holds ⟨1024, rest⟩ ∧ buffer'.lastOperation = .read ∧
          buffer'.rOffset = (buffer.rOffset + (line.length + 2)) % buffer.size := by
  have hlen : (line ++ CRLF).length = line.length + 2 := by
    rw [List.length_append]
    rfl
  have hreadable : line.length + 2 ≤ buffer.readable := by
    rw [h.readable_eq, ← List.append_assoc, List.length_append, hlen]
    omega
  have hmin : min (line.length + 2) buffer.readable = line.length + 2 := Nat.min_eq_left hreadable
  have hzero : 0 ∉ line ++ CRLF := by
    rw [List.mem_append, not_or]
    exact ⟨hnul, by decide⟩
  have hout : buffer.copyOut (line.length + 2) = line ++ CRLF := by
    have hcopy := h.copyOut_min (line.length + 2)
    rw [hmin, ← List.append_assoc, List.take_left' hlen] at hcopy
    exact hcopy
  have hsize : buffer.size = 1024 := h.size
  have hpiece : line.length + 2 < buffer.size - buffer.rOffset := by omega
  have htakes : Str.Takes Str.init.value_max_len Str.init.value_len
      (buffer.pieces (line.length + 2)) := by
    rw [RingBuffer.pieces, if_pos (.inr hpiece)]
    exact ⟨Str.fits_init (by omega), trivial⟩
  obtain ⟨str', hstring, hstr'⟩ := RingBuffer.copyToString_eq h Str.holds_init (Nat.succ_pos _)
    hreadable (hout ▸ hzero) (.inr hpiece.ne) htakes
  have hnil : ¬buffer.IsNil := not_isNil h (by simp [CRLF])
  have hadv := h.advance hreadable (fun hlen ↦ by omega)
  refine ⟨?_, buffer.advance (line.length + 2), ?_, ?_, rfl, rfl⟩
  · rw [RingBuffer.get_needle_offset_eq h.valid hop, h.contents,
      offset?_crlf hcr]
  · have hadded := Str.holds_init.added_eq hstr'
    rw [hout] at hadded
    rw [read_to_string, RingBuffer.call, if_neg hnil, if_pos h.inRange, hmin]
    change Option.map _ (Option.map _ (buffer.copyToString Str.init (line.length + 2))) = _
    rw [hstring]
    have hcstring : cString (line ++ CRLF) = line ++ CRLF := by
      rw [cString, List.takeWhile_eq_self_iff]
      intro c hc
      simpa using fun hc0 : c = 0 ↦ hzero (hc0 ▸ hc)
    rw [Option.map_some, Option.map_some]
    change some (_, cString (Str.init.added str')) = _
    rw [hadded, hcstring]
  · rwa [← List.append_assoc, List.drop_left' hlen] at hadv

end Ring

/-! ## The body -/

/-- The body holds `items`, with room for `len` bytes in all. -/
structure BodyHolds (body : IoBuffer) (items : List UInt8) (len : ℕ) : Prop where
  holds : body.Holds items
  r_offset : body.r_offset = 0
  capacity : len ≤ body.capacity

section Body

variable {body : IoBuffer} {items src : List UInt8} {len : ℕ}

theorem store_frame {b b' : IoBuffer} {src : List UInt8} (h : b.store src = some b') :
    b'.r_offset = b.r_offset ∧ b'.capacity = b.capacity := by
  obtain ⟨addr, -, rfl⟩ := Option.map_eq_some_iff.mp h
  exact ⟨rfl, rfl⟩

theorem write_frame {b b' : IoBuffer} {src : List UInt8} {o : IoBuffer.Answer}
    (h : b.write src true = some (b', o)) : b'.r_offset = b.r_offset ∧
    b.capacity ≤ b'.capacity := by
  simp only [IoBuffer.write, if_true] at h
  split at h
  · obtain ⟨b₁, hstore, h⟩ := Option.bind_eq_some_iff.mp h
    obtain ⟨rfl, -⟩ := Prod.mk.inj (Option.some.inj h)
    obtain ⟨hr, hcap⟩ := store_frame hstore
    exact ⟨hr, hcap.ge⟩
  · obtain ⟨capacity, hwant, h⟩ := Option.bind_eq_some_iff.mp h
    obtain ⟨b₁, hgrow, h⟩ := Option.bind_eq_some_iff.mp h
    obtain ⟨b₂, hstore, h⟩ := Option.bind_eq_some_iff.mp h
    obtain ⟨rfl, -⟩ := Prod.mk.inj (Option.some.inj h)
    obtain ⟨hr, hcap⟩ := store_frame hstore
    unfold IoBuffer.grow at hgrow
    split at hgrow
    · obtain ⟨addr, -, rfl⟩ := Option.map_eq_some_iff.mp hgrow
      have hle := IoBuffer.add_le_write_capacity hwant
      refine ⟨hr, ?_⟩
      change b.capacity ≤ b₂.capacity
      have hcap' : b₂.capacity = capacity := hcap
      omega
    · cases hgrow

theorem BodyHolds.write (h : BodyHolds body items len) (src : List UInt8)
    (hfit : items.length + src.length ≤ len)
    (hsrc : src.length ≤ 2 ^ 20) (hmax : len < 2 ^ 31 - 2 ^ 20) :
    ∃ body' o, body.write src true = some (body', o) ∧ BodyHolds body' (items ++ src) len := by
  have hw := h.holds.w_offset
  have hcap := h.capacity
  have hr := h.r_offset
  have hreg : IoBuffer.Regular body (.write src true) := by
    by_cases hroom : src.length < body.capacity - body.w_offset
    · exact .inl hroom
    · refine .inr ?_
      have hfull : body.capacity = len := by omega
      have hstep : max src.length (1024 * 1024) = 1024 * 1024 := Nat.max_eq_right (by omega)
      rw [IoBuffer.write_capacity, hfull, Nat.max_eq_left (by omega), hstep]
      split
      · rw [IoBuffer.int32, if_pos (by omega)]
        rfl
      · rw [IoBuffer.int32, if_pos (by omega)]
        rfl
  obtain ⟨body', o, hwrite, hallowed, hholds⟩ := h.holds.write hreg
  have ho : o = ⟨[], src.length⟩ := hallowed.resolve_right (by simp)
  subst ho
  obtain ⟨hr', hcap'⟩ := write_frame hwrite
  refine ⟨body', _, hwrite, ?_, hr'.trans hr, hcap.trans hcap'⟩
  rwa [IoBuffer.next, if_neg (by simp)] at hholds

theorem BodyHolds.read_to_buffer {buffer : RingBuffer} {cap : ℕ} (h : BodyHolds body items len)
    (hbuffer : buffer.Holds ⟨cap, src⟩) (hop : buffer.lastOperation ≠ .na) (hcap : cap ≤ 2 ^ 20)
    (hfit : items.length + src.length ≤ len) (hmax : len < 2 ^ 31 - 2 ^ 20) :
    ∃ buffer' body', buffer.read_to_buffer body buffer.getLen = some (buffer', body') ∧
      buffer'.Holds ⟨cap, []⟩ ∧ buffer'.lastOperation = .read ∧
        BodyHolds body' (items ++ src) len := by
  have hreadable : buffer.readable = src.length := hbuffer.readable_eq
  have hlen : buffer.getLen = src.length := by
    rw [RingBuffer.getLen_eq hbuffer.valid hop, hbuffer.contents]
  have hsize : buffer.readable ≤ buffer.size := RingBuffer.readable_le hbuffer.valid
  have hcapEq : buffer.size = cap := hbuffer.size
  unfold RingBuffer.read_to_buffer
  split
  · next hnil =>
      have hempty : src = [] := hbuffer.items_eq_nil ⟨by rw [hnil.1]; decide, hnil.2⟩
      subst hempty
      exact ⟨buffer, body, rfl, hbuffer, hnil.1, by rwa [List.append_nil]⟩
  · next hnil =>
      have hnotNil : src = [] → False := by
        rintro rfl
        have heq : buffer.wOffset = buffer.rOffset := by
          by_contra hne
          have hread := RingBuffer.readable_of_ne hbuffer.valid hne
          have hr := hbuffer.valid.read_lt
          rw [hreadable, List.length_nil] at hread
          split_ifs at hread <;> omega
        have hzero := hreadable
        rw [RingBuffer.readable, if_pos heq] at hzero
        have hr := hbuffer.valid.read_lt
        cases hlast : buffer.lastOperation with
        | na => exact hop hlast
        | read => exact hnil ⟨hlast, heq⟩
        | write =>
          rw [if_pos hlast, List.length_nil] at hzero
          omega
      have hpos : 0 < src.length := List.length_pos_iff.mpr fun h ↦ hnotNil h
      have hall : min buffer.getLen buffer.readable = buffer.readable := by
        rw [hlen, hreadable, Nat.min_self]
      have hout : buffer.copyOut buffer.readable = src := by
        have hcopy := hbuffer.copyOut_min buffer.readable
        rwa [Nat.min_self, hreadable, List.take_length, ← hreadable] at hcopy
      have hadv := hbuffer.advance le_rfl (fun hzero ↦ by omega)
      rw [hreadable, List.drop_length, ← hreadable] at hadv
      rw [hall, RingBuffer.copyToBuffer]
      rw [RingBuffer.copyOut] at hout
      split at hout
      · next hone =>
          obtain ⟨body', o, hwrite, hbody⟩ := h.write src hfit (by omega) hmax
          rw [if_pos hone, hout, hwrite]
          exact ⟨_, body', rfl, hadv, rfl, hbody⟩
      · next htwo =>
          obtain ⟨first, hfirst⟩ : ∃ first, (buffer.addr.drop buffer.rOffset).take
            (buffer.size - buffer.rOffset) = first := ⟨_, rfl⟩
          obtain ⟨second, hsecond⟩ : ∃ second, buffer.addr.take
            (buffer.readable - (buffer.size - buffer.rOffset)) = second := ⟨_, rfl⟩
          rw [hfirst, hsecond] at hout
          subst hout
          rw [List.length_append] at hfit hreadable hpos
          obtain ⟨body₁, o₁, hwrite₁, hbody₁⟩ := h.write first (by omega) (by omega) hmax
          obtain ⟨body₂, o₂, hwrite₂, hbody₂⟩ := hbody₁.write second
            (by rw [List.length_append]; omega) (by omega) hmax
          rw [if_neg htwo, hfirst, hsecond, hwrite₁]
          simp only [Option.bind_eq_bind, Option.bind_some, hwrite₂]
          refine ⟨_, body₂, rfl, hadv, rfl, ?_⟩
          rwa [List.append_assoc] at hbody₂

theorem BodyHolds.set_capacity (h : BodyHolds body [] 0) (hlen : len < 2 ^ 31) :
    ∃ body' o, body.set_capacity len (some []) = some (body', o) ∧ BodyHolds body' [] len := by
  have hw := h.holds.w_offset
  have hreg : IoBuffer.Regular body (.set_capacity len (some [])) :=
    .inr ⟨by rw [hw, List.length_nil, Nat.add_zero], hlen, rfl⟩
  obtain ⟨body', o, hset, -, hholds⟩ := h.holds.set_capacity hreg
  suffices hframe : body'.r_offset = 0 ∧ len ≤ body'.capacity from
    ⟨body', o, hset, hholds, hframe.1, hframe.2⟩
  unfold IoBuffer.set_capacity at hset
  split at hset
  · rw [IoBuffer.int32, if_pos hlen] at hset
    obtain ⟨rfl, -⟩ := Prod.mk.inj (Option.some.inj hset)
    exact ⟨h.r_offset, le_rfl⟩
  · next hle =>
      obtain ⟨rfl, -⟩ := Prod.mk.inj (Option.some.inj hset)
      exact ⟨h.r_offset, not_lt.mp hle⟩

theorem bodyHolds_new : BodyHolds IoBuffer.new [] 0 := ⟨IoBuffer.holds_new, rfl, Nat.zero_le _⟩

end Body

/-! ## The head -/

theorem Word.notMem {s : Text} (h : Word s) {c : UInt8}
    (hc : c = 0 ∨ isSpace c = true) : c ∉ s := by
  intro hmem
  obtain ⟨hne, hspace⟩ := h.2 c hmem
  rcases hc with rfl | hc
  · exact hne rfl
  · rw [hc] at hspace
    cases hspace

theorem Word.trim {s : Text} (h : Word s) : trim s = s := trim_eq_self fun c hc ↦ (h.2 c hc).2

namespace Header

variable {h : Header}

theorem WellFormed.line_notMem (hwf : h.WellFormed) : 13 ∉ h.line ∧ 0 ∉ h.line := by
  have hname := hwf.name
  constructor
  · rw [Header.line, List.mem_append, List.mem_cons, not_or, not_or]
    exact ⟨hname.notMem (.inr (by decide)), by decide, fun hc ↦ (hwf.raw 13 hc).2.1 rfl⟩
  · rw [Header.line, List.mem_append, List.mem_cons, not_or, not_or]
    exact ⟨hname.notMem (.inl rfl), by decide, fun hc ↦ (hwf.raw 0 hc).1 rfl⟩

theorem line_ne (h : Header) : h.line ++ CRLF ≠ CRLF := by
  intro heq
  have hlen := congrArg List.length heq
  rw [List.length_append, Header.line, List.length_append, List.length_cons] at hlen
  omega

theorem WellFormed.split (hwf : h.WellFormed) (hraw : h.raw ≠ []) :
    split (fun c ↦ c = 58) 1 (replace_crlf (h.line ++ CRLF)) = [h.name, h.raw] := by
  have hname : ∀ c ∈ h.name, decide (c = 58) = false := by
    intro c hc
    exact decide_eq_false fun heq ↦ hwf.colon (heq ▸ hc)
  rw [replace_crlf_eq hwf.line_notMem.1, Http.split, if_pos (by decide)]
  exact (splitFrom_piece hwf.name.1 hname rfl 0 h.raw).trans (by rw [splitFrom_zero hraw])

end Header

section Headers

variable (rb : Rebalance (Text × Text))

/-- What a header does to the map of the headers. -/
def addHeader (map : RbTreeMap strcmp Text) (h : Header) : RbTreeMap strcmp Text :=
  map.add rb (str_to_lower h.name) (trim h.raw)

/-- The body is empty and has room for the `n` bytes that are announced. -/
structure Announced (request : Request) (n : ℕ) : Prop where
  content_len : request.content_len = n
  body : BodyHolds request.body [] n

variable {rb}

theorem read_header_eq (rb : Rebalance (Text × Text)) (request : Request) {h : Header}
    (hwf : h.WellFormed) (hraw : h.raw ≠ []) {n : ℕ}
    (hn : n < 2 ^ 31) (hlen : h.IsContentLength → atoi (trim h.raw) = n)
    (hbody : BodyHolds request.body [] 0) :
    ∃ request', request.read_header rb (h.line ++ CRLF) = some (some request') ∧
      request'.headers = addHeader rb request.headers h ∧ request'.buffer = request.buffer ∧
        request'.method = request.method ∧ request'.uri = request.uri ∧
          BodyHolds request'.body [] 0 ∧
            (h.IsContentLength ∨ Announced request n → Announced request' n) := by
  rw [Request.read_header, hwf.split hraw]
  simp only [hwf.name.trim]
  by_cases hcl : h.IsContentLength
  · obtain ⟨body', o, hset, hbody'⟩ := hbody.set_capacity hn
    have hvalue := hlen hcl
    have hkey : str_to_lower h.name = ascii "content-length" := hcl
    rw [if_pos hkey, hvalue, Int.toNat_natCast, hset]
    exact ⟨_, rfl, rfl, rfl, rfl, rfl, ⟨hbody'.holds, hbody'.r_offset, Nat.zero_le _⟩,
      fun _ ↦ ⟨rfl, hbody'⟩⟩
  · have hkey : ¬str_to_lower h.name = ascii "content-length" := hcl
    rw [if_neg hkey]
    exact ⟨_, rfl, rfl, rfl, rfl, rfl, hbody, fun hann ↦
      ⟨(hann.resolve_left hcl).content_len, (hann.resolve_left hcl).body⟩⟩

theorem readHeadersFrom_eq (rb : Rebalance (Text × Text)) {hs : List Header}
    (hwf : ∀ h ∈ hs, h.WellFormed)
    (hraw : ∀ h ∈ hs, h.raw ≠ []) {n : ℕ} (hn : n < 2 ^ 31)
    (hlen : ∀ h ∈ hs, h.IsContentLength → atoi (trim h.raw) = n) (request : Request)
    {fuel : ℕ} (hfuel : hs.length < fuel) {rest : List UInt8}
    (hbuffer : request.buffer.Holds
      ⟨1024, hs.flatMap (fun h ↦ h.line ++ CRLF) ++ (CRLF ++ rest)⟩)
    (hop : request.buffer.lastOperation ≠ .na)
    (hend : request.buffer.rOffset + ((hs.flatMap (fun h ↦ h.line ++ CRLF)).length + 2) < 1024)
    (hbody : BodyHolds request.body [] 0)
    (hann : (∃ h ∈ hs, h.IsContentLength) ∨ Announced request n) :
    ∃ request', Request.readHeadersFrom rb fuel request = request'.read_body ∧
      request'.headers = hs.foldl (addHeader rb) request.headers ∧
        request'.method = request.method ∧ request'.uri = request.uri ∧
          request'.buffer.Holds ⟨1024, rest⟩ ∧ request'.buffer.lastOperation = .read ∧
            Announced request' n := by
  have hsize : request.buffer.size = 1024 := hbuffer.size
  obtain ⟨fuel, rfl⟩ := Nat.exists_eq_succ_of_ne_zero (Nat.ne_zero_of_lt hfuel)
  induction hs generalizing request fuel with
  | nil =>
    rw [List.flatMap_nil, List.length_nil] at hend
    obtain ⟨hoffset, buffer', hread, hholds, hlast, -⟩ := read_line [] hbuffer hop
      (by simp) (by simp) (by rw [List.length_nil]; omega)
    rw [List.length_nil] at hoffset hread
    rw [List.nil_append] at hread
    refine ⟨{ request with buffer := buffer' }, ?_, rfl, rfl, rfl, hholds, hlast, ?_⟩
    · rw [Request.readHeadersFrom, hoffset]
      simp only [hread, Option.bind_eq_bind, Option.bind_some, if_true]
    · have hann' := hann.resolve_left (by simp)
      exact ⟨hann'.content_len, hann'.body⟩
  | cons h hs ih =>
    rw [List.flatMap_cons] at hbuffer hend
    rw [List.length_append, List.length_append] at hend
    have htwo : CRLF.length = 2 := rfl
    have hwfh := hwf h List.mem_cons_self
    obtain ⟨hcr, hnul⟩ := hwfh.line_notMem
    simp only [List.append_assoc] at hbuffer
    obtain ⟨hoffset, buffer', hread, hholds, hlast, hroff⟩ := read_line _ hbuffer hop hcr hnul
      (by omega)
    obtain ⟨request', hheader, hheaders, hbuf, hmethod, huri, hbody', hann'⟩ :=
      read_header_eq rb { request with buffer := buffer' } hwfh (hraw h List.mem_cons_self) hn
        (hlen h List.mem_cons_self) hbody
    have hmod : (request.buffer.rOffset + (h.line.length + 2)) % request.buffer.size =
        request.buffer.rOffset + (h.line.length + 2) := Nat.mod_eq_of_lt (by omega)
    have hbuf' : request'.buffer = buffer' := hbuf
    rw [List.length_cons] at hfuel
    obtain ⟨fuel, rfl⟩ := Nat.exists_eq_succ_of_ne_zero (show fuel ≠ 0 by omega)
    obtain ⟨final, hfinal, hmap, hmethod', huri', hrest⟩ := ih
      (fun x hx ↦ hwf x (List.mem_cons_of_mem h hx)) (fun x hx ↦ hraw x (List.mem_cons_of_mem h hx))
      (fun x hx ↦ hlen x (List.mem_cons_of_mem h hx)) request' (by rwa [hbuf'])
      (by rw [hbuf', hlast]; decide) (by rw [hbuf', hroff, hmod]; omega) hbody'
      (by
        rcases hann with ⟨x, hx, hcl⟩ | hann
        · rcases List.mem_cons.mp hx with rfl | hx
          · exact .inr (hann' (.inl hcl))
          · exact .inl ⟨x, hx, hcl⟩
        · exact .inr (hann' (.inr ⟨hann.content_len, hann.body⟩)))
      (by rw [hbuf']; exact hholds.size) fuel (by omega)
    refine ⟨final, ?_, ?_, hmethod'.trans hmethod, huri'.trans huri, hrest⟩
    · rw [Request.readHeadersFrom, hoffset]
      simp only [hread, Option.bind_eq_bind, Option.bind_some, if_neg h.line_ne, hheader,
        hfinal]
    · rw [hmap, hheaders, List.foldl_cons]

end Headers

/-! ## A request that is being read -/

section Requests

variable {rb : Rebalance (Text × Text)} {m : Message}

/-- The head of `m` has been read, and its first `n` bytes have arrived. -/
structure Reading (rb : Rebalance (Text × Text)) (m : Message) (n : ℕ) (req : Request) : Prop where
  status : req.status = .STATUS_READ_BODY
  method : req.method = m.method
  uri : req.uri = (read_form m.uri).uri
  headers : req.headers = Message.headerMap rb m.headers
  content_len : req.content_len = m.body.length
  buffer : req.buffer.Holds ⟨1024, []⟩
  last : req.buffer.lastOperation = .read
  head : m.head.length ≤ n
  body : BodyHolds req.body (m.body.take (n - m.head.length)) m.body.length

theorem Reading.handed {req : Request} (h : Reading rb m m.wire.length req) :
    req.handed = m.handed rb := by
  have hlen : m.wire.length - m.head.length = m.body.length := by
    rw [Message.wire, List.length_append, Nat.add_sub_cancel_left]
  have hbody := h.body.holds
  rw [hlen, List.take_length] at hbody
  have htake := hbody.take_drop m.body.length
  rw [Nat.min_self, List.take_length] at htake
  rw [Request.handed, Message.handed, h.method, h.uri, h.headers, hbody.get_len, htake]

theorem read_body_eq (rb : Rebalance (Text × Text)) (req : Request) {n : ℕ} {src : List UInt8}
    (hmethod : req.method = m.method) (huri : req.uri = (read_form m.uri).uri)
    (hheaders : req.headers = Message.headerMap rb m.headers)
    (hlen : req.content_len = m.body.length) (hmax : m.body.length < 2 ^ 31 - 2 ^ 20)
    (hbuffer : req.buffer.Holds ⟨1024, src⟩) (hop : req.buffer.lastOperation ≠ .na)
    (hhead : m.head.length ≤ n) (hend : n ≤ m.wire.length)
    (hbody : BodyHolds req.body (m.body.take (n - m.head.length)) m.body.length)
    (hsrc : src <+: m.wire.drop n) :
    ∃ req', req.read_body =
        some (req', if n + src.length = m.wire.length then 1 else 0) ∧
      Reading rb m (n + src.length) req' := by
  have hwire : m.wire.length = m.head.length + m.body.length := List.length_append
  obtain ⟨tail, htail⟩ := hsrc
  have hdrop : m.wire.drop n = m.body.drop (n - m.head.length) := by
    rw [Message.wire, List.drop_append, List.drop_of_length_le hhead, List.nil_append]
  have hsrcLen := congrArg List.length (htail.trans hdrop)
  rw [List.length_append, List.length_drop] at hsrcLen
  have hnext : m.body.take (n - m.head.length) ++ src =
      m.body.take (n + src.length - m.head.length) := by
    have hidx : n + src.length - m.head.length = (n - m.head.length) + src.length := by omega
    rw [hidx, List.take_add, ← hdrop, ← htail, List.take_left]
  have htakeLen : (m.body.take (n - m.head.length)).length =
      min (n - m.head.length) m.body.length :=
    List.length_take
  obtain ⟨buffer', body', hread, hbuffer', hlast, hbody'⟩ := hbody.read_to_buffer hbuffer hop
    (by decide) (by omega) hmax
  have hget := hbody'.holds.get_len
  rw [hnext] at hbody' hget
  rw [List.length_take] at hget
  refine ⟨{ req with status := .STATUS_READ_BODY, buffer := buffer', body := body' }, ?_, ?_⟩
  · simp only [Request.read_body, hread, Option.bind_eq_bind, Option.bind_some, hget, hlen,
      Option.pure_def, Option.some.injEq, Prod.mk.injEq, true_and]
    split_ifs <;> first | rfl | omega
  · exact ⟨rfl, hmethod, huri, hheaders, hlen, hbuffer', hlast, by omega, hbody'⟩

theorem write_ring {buffer : RingBuffer} (h : buffer.Holds ⟨1024, []⟩) {buf : List UInt8}
    (hne : buf ≠ []) :
    ∃ buffer' answer, buffer.call (.write buf) = some (buffer', answer) ∧
      answer.ret.getD 0 = min buf.length 1024 ∧ buffer'.Holds ⟨1024, buf.take 1024⟩ ∧
        buffer'.lastOperation = .write ∧ buffer'.rOffset = buffer.rOffset := by
  have hfree : buffer.writable = 1024 := h.writable_eq
  have hfull : ¬buffer.IsFull := by
    intro hfull
    have hzero := hfull.writable_eq
    omega
  have hwrite := h.write hfull (.inl hne)
  refine ⟨buffer.write buf, ⟨[], some (min buf.length buffer.writable)⟩, ?_, ?_, hwrite, ?_, ?_⟩
  · rw [RingBuffer.call, if_neg hfull, if_pos h.inRange]
  · rw [hfree]
    rfl
  · rw [RingBuffer.write, if_neg (by omega)]
  · rw [RingBuffer.write, if_neg (by omega)]

theorem Reading.read {req : Request} {n : ℕ} (h : Reading rb m n req)
    (hmax : m.body.length < 2 ^ 31 - 2 ^ 20) {buffer : RingBuffer} {src : List UInt8}
    (hbuffer : buffer.Holds ⟨1024, src⟩) (hop : buffer.lastOperation ≠ .na)
    (hend : n ≤ m.wire.length) (hsrc : src <+: m.wire.drop n) :
    ∃ req', Request.read rb { req with buffer := buffer } =
        some (req', if n + src.length = m.wire.length then 1 else 0) ∧
      Reading rb m (n + src.length) req' := by
  obtain ⟨req', hread, hreading⟩ := read_body_eq rb { req with buffer := buffer }
    h.method h.uri h.headers h.content_len hmax hbuffer hop h.head hend h.body hsrc
  refine ⟨req', ?_, hreading⟩
  rw [Request.read, h.status]
  exact hread

theorem feed_turn (req : Request) (n fuel : ℕ) {req' : Request} {buf : List UInt8}
    {buffer : RingBuffer}
    {answer : RingBuffer.Answer} (hwrite : req.buffer.call (.write buf) = some (buffer, answer))
    (hret : answer.ret.getD 0 = min buf.length 1024) (hend : n + buf.length ≤ m.wire.length)
    (hread : Request.read rb { req with buffer := buffer } =
      some (req', if n + min 1024 buf.length = m.wire.length then 1 else 0))
    (hreading : Reading rb m (n + min 1024 buf.length) req')
    (hmore : 1024 < buf.length → ∃ final, Http.feed rb fuel req' (buf.drop 1024) =
        some (final, if n + buf.length = m.wire.length then 1 else 0) ∧
      Reading rb m (n + buf.length) final) :
    ∃ final, Http.feed rb (fuel + 1) req buf =
        some (final, if n + buf.length = m.wire.length then 1 else 0) ∧
      Reading rb m (n + buf.length) final := by
  simp only [Http.feed, hwrite, Option.bind_eq_bind, Option.bind_some, hread, hret,
    List.drop_eq_nil_iff]
  rcases Nat.lt_or_ge 1024 buf.length with hlong | hshort
  · -- the ring buffer was filled, and there is more
    obtain ⟨final, hfeed, hfinal⟩ := hmore hlong
    rw [Nat.min_eq_left hlong.le, Nat.min_eq_right hlong.le,
      if_neg (show ¬n + 1024 = m.wire.length by omega), if_neg (by decide),
      if_neg (show ¬buf.length ≤ 1024 by omega), hfeed]
    exact ⟨final, rfl, hfinal⟩
  · rw [Nat.min_eq_right hshort] at hreading ⊢
    refine ⟨req', ?_, hreading⟩
    rw [if_pos (show buf.length ≤ min buf.length 1024 by omega), ite_self]
    rfl

theorem Reading.feed {req : Request} {n : ℕ} (h : Reading rb m n req)
    (hmax : m.body.length < 2 ^ 31 - 2 ^ 20) {buf : List UInt8} (hne : buf ≠ [])
    (hbuf : buf <+: m.wire.drop n) (hend : n ≤ m.wire.length) (fuel : ℕ)
    (hfuel : buf.length < fuel) :
    ∃ req', Http.feed rb fuel req buf =
        some (req', if n + buf.length = m.wire.length then 1 else 0) ∧
      Reading rb m (n + buf.length) req' := by
  induction fuel generalizing req n buf with
  | zero => omega
  | succ fuel ih =>
    obtain ⟨buffer, answer, hwrite, hret, hbuffer, hlast, -⟩ := write_ring h.buffer hne
    have htake : buf.take 1024 <+: m.wire.drop n := (List.take_prefix 1024 buf).trans hbuf
    have hlen := hbuf.length_le
    rw [List.length_drop] at hlen
    obtain ⟨req', hread, hreading⟩ := h.read hmax hbuffer (by rw [hlast]; decide) hend htake
    rw [List.length_take] at hread hreading
    refine feed_turn req n fuel hwrite hret (by omega) hread hreading fun hlong ↦ ?_
    rw [Nat.min_eq_left hlong.le] at hreading
    obtain ⟨tail, htail⟩ := hbuf
    have hbuf' : buf.drop 1024 <+: m.wire.drop (n + 1024) := by
      rw [← List.drop_drop, ← htail, List.drop_append_of_le_length hlong.le]
      exact List.prefix_append _ _
    obtain ⟨final, hfeed, hfinal⟩ := ih hreading (by rw [Ne, List.drop_eq_nil_iff]; omega) hbuf'
      (by omega) (by rw [List.length_drop]; omega)
    have hsum : n + 1024 + (buf.length - 1024) = n + buf.length := by omega
    rw [List.length_drop, hsum] at hfeed hfinal
    exact ⟨final, hfeed, hfinal⟩

/-! ## The first chunk -/

theorem Message.WellFormed.start_line_notMem (hwf : m.WellFormed) {c : UInt8}
    (hc : c = 0 ∨ isSpace c = true) (h32 : c ≠ 32) : c ∉ m.start_line := by
  simp only [Message.start_line, List.mem_append, List.mem_cons, not_or]
  exact ⟨hwf.method.notMem hc, h32, hwf.uri.notMem hc, h32, hwf.version.notMem hc⟩

theorem Message.WellFormed.split (hwf : m.WellFormed) :
    split (fun c ↦ c = 32) 2 (replace_crlf (m.start_line ++ CRLF)) =
      [m.method, m.uri, m.version] := by
  have hspace : ∀ {s : Text}, Word s → ∀ c ∈ s, decide (c = 32) = false := by
    intro s hs c hc
    refine decide_eq_false fun heq ↦ ?_
    subst heq
    exact hs.notMem (.inr (by decide)) hc
  have hline := hwf.start_line_notMem (c := 13) (.inr (by decide)) (by decide)
  rw [replace_crlf_eq hline, Http.split, if_pos (by decide)]
  calc splitFrom (fun c ↦ decide (c = 32)) 2 m.start_line
      = m.method :: splitFrom (fun c ↦ decide (c = 32)) 1 (m.uri ++ 32 :: m.version) :=
        splitFrom_piece hwf.method.1 (hspace hwf.method) rfl 1 _
    _ = m.method :: m.uri :: splitFrom (fun c ↦ decide (c = 32)) 0 m.version := by
        rw [splitFrom_piece hwf.uri.1 (hspace hwf.uri) rfl 0]
    _ = [m.method, m.uri, m.version] := by rw [splitFrom_zero hwf.version.1]

theorem holds_new_ring (size : ℕ) (hpos : 0 < size) :
    (RingBuffer.new (List.replicate size 0)).Holds ⟨size, []⟩ := by
  refine ⟨RingBuffer.valid_new ?_, List.length_replicate, RingBuffer.contents_new _⟩
  rw [← List.length_pos_iff, List.length_replicate]
  exact hpos

theorem length_le_flatMap_line (hs : List Header) :
    hs.length ≤ (hs.flatMap (fun h ↦ h.line ++ CRLF)).length := by
  induction hs with
  | nil => exact Nat.le_refl 0
  | cons h hs ih =>
    have htwo : CRLF.length = 2 := rfl
    rw [List.flatMap_cons, List.length_append, List.length_append, List.length_cons]
    omega

theorem read_new (rb : Rebalance (Text × Text)) (hwf : m.WellFormed) (hm : m.Readable)
    (hhead : m.head.length < 1024)
    {buffer : RingBuffer} {src : List UInt8} (hbuffer : buffer.Holds ⟨1024, m.head ++ src⟩)
    (hop : buffer.lastOperation = .write) (hr : buffer.rOffset = 0)
    (hsrc : src <+: m.wire.drop m.head.length) :
    ∃ req', Request.read rb { Request.new with buffer := buffer } =
        some (req', if m.head.length + src.length = m.wire.length then 1 else 0) ∧
      Reading rb m (m.head.length + src.length) req' := by
  have htwo : CRLF.length = 2 := rfl
  have hlen : m.head.length = m.start_line.length + (2 +
      ((m.headers.flatMap (fun h ↦ h.line ++ CRLF)).length + 2)) := by
    simp only [Message.head, List.length_append, htwo]
  have hsize : buffer.size = 1024 := hbuffer.size
  rw [Message.head, List.append_assoc, List.append_assoc, List.append_assoc] at hbuffer
  obtain ⟨hoffset, buffer', hread, hholds, hlast, hroff⟩ :=
    read_line _ hbuffer (by rw [hop]; decide)
    (hwf.start_line_notMem (c := 13) (.inr (by decide)) (by decide))
    (hwf.start_line_notMem (c := 0) (.inl rfl) (by decide)) (by omega)
  rw [hr, Nat.zero_add, hsize, Nat.mod_eq_of_lt (by omega)] at hroff
  have hmax := hm.body
  -- the length is announced, or there is no body
  have hann : (∃ h ∈ m.headers, h.IsContentLength) ∨
      Announced { Request.new with buffer := buffer } m.body.length := by
    by_cases hcl : ∃ h ∈ m.headers, h.IsContentLength
    · exact .inl hcl
    · have hnil := hwf.noLength fun h hmem hc ↦ hcl ⟨h, hmem, hc⟩
      rw [hnil]
      exact .inr ⟨rfl, bodyHolds_new⟩
  have hgetLen : buffer'.getLen = (m.headers.flatMap (fun h ↦ h.line ++ CRLF) ++
      (CRLF ++ src)).length := by
    rw [RingBuffer.getLen_eq hholds.valid (by rw [hlast]; decide), hholds.contents]
  have hfuel : m.headers.length < buffer'.getLen + 1 := by
    have hle := length_le_flatMap_line m.headers
    rw [hgetLen, List.length_append]
    omega
  obtain ⟨request', hloop, hheaders, hmethod, huri, hbuffer', hlast', hann'⟩ := readHeadersFrom_eq
    rb hwf.headers hm.raw (by omega) hwf.length
    { Request.new with
      buffer := buffer', method := m.method, uri := (read_form m.uri).uri
      forms := (read_form m.uri).forms, status := .STATUS_READ_HEADERS } hfuel hholds
    (by rw [hlast]; decide) (by rw [hroff]; omega) bodyHolds_new
    (by
      rcases hann with hcl | hann
      · exact .inl hcl
      · exact .inr ⟨hann.content_len, hann.body⟩)
  obtain ⟨req', hbody, hreading⟩ := read_body_eq rb request' hmethod huri hheaders
    hann'.content_len hmax hbuffer' (by rw [hlast']; decide) le_rfl
    (by rw [Message.wire, List.length_append]; omega)
    (by rw [Nat.sub_self, List.take_zero]; exact hann'.body) hsrc
  refine ⟨req', ?_, hreading⟩
  rw [← hbody, ← hloop, Request.read]
  simp only [Request.new, Request.read_start_line, hoffset, hread, Option.bind_eq_bind,
    Option.bind_some, hwf.split, hwf.uri.trim, hwf.method.trim, if_neg hm.form.not_gt,
    Request.read_headers]

theorem feed_new (rb : Rebalance (Text × Text)) (hwf : m.WellFormed) (hm : m.Readable)
    (hhead : m.head.length < 1024)
    {buf : List UInt8} (hbuf : buf <+: m.wire) (hfit : m.head.length ≤ buf.length) {fuel : ℕ}
    (hfuel : buf.length < fuel) :
    ∃ req', feed rb fuel .new buf =
        some (req', if buf.length = m.wire.length then 1 else 0) ∧
      Reading rb m buf.length req' := by
  obtain ⟨fuel, rfl⟩ := Nat.exists_eq_succ_of_ne_zero (Nat.ne_zero_of_lt hfuel)
  have htwo : CRLF.length = 2 := rfl
  have hpos : 0 < m.head.length := by
    simp only [Message.head, List.length_append, htwo]
    omega
  have hlen := hbuf.length_le
  have hempty : Request.new.buffer.Holds ⟨1024, []⟩ := holds_new_ring 1024 (by decide)
  obtain ⟨buffer, answer, hwrite, hret, hbuffer, hlast, hr⟩ := write_ring hempty
    (List.length_pos_iff.mp (by omega) : buf ≠ [])
  obtain ⟨tail, htail⟩ := hbuf
  -- what the ring buffer has taken is the head and the start of the body
  obtain ⟨src, hsrc⟩ : ∃ src, buf.take 1024 = m.head ++ src := by
    refine ⟨(buf.take 1024).drop m.head.length, ?_⟩
    have hfront : (buf.take 1024).take m.head.length = m.head := by
      calc (buf.take 1024).take m.head.length = buf.take m.head.length := by
            rw [List.take_take, Nat.min_eq_left hhead.le]
        _ = (buf ++ tail).take m.head.length := (List.take_append_of_le_length hfit).symm
        _ = m.head := by rw [htail, Message.wire, List.take_left]
    conv_lhs => rw [← List.take_append_drop m.head.length (buf.take 1024), hfront]
  have hsrcLen := congrArg List.length hsrc
  rw [List.length_take, List.length_append] at hsrcLen
  have hprefix : src <+: m.wire.drop m.head.length := by
    have hwire : m.wire = m.head ++ (src ++ (buf.drop 1024 ++ tail)) := by
      calc m.wire = buf.take 1024 ++ buf.drop 1024 ++ tail := by
            rw [List.take_append_drop, htail]
        _ = m.head ++ (src ++ (buf.drop 1024 ++ tail)) := by
            rw [hsrc, List.append_assoc, List.append_assoc]
    rw [hwire, List.drop_left]
    exact List.prefix_append _ _
  rw [hsrc] at hbuffer
  obtain ⟨req', hread, hreading⟩ := read_new rb hwf hm hhead hbuffer hlast hr hprefix
  have hturn := feed_turn (m := m) .new 0 fuel hwrite hret
    (by omega) (by rw [Nat.zero_add, hsrcLen]; exact hread)
    (by rw [Nat.zero_add, hsrcLen]; exact hreading)
  rw [Nat.zero_add] at hturn
  refine hturn fun hlong ↦ ?_
  rw [← hsrcLen, Nat.min_eq_left hlong.le] at hreading
  have hbuf' : buf.drop 1024 <+: m.wire.drop 1024 := by
    rw [← htail, List.drop_append_of_le_length hlong.le]
    exact List.prefix_append _ _
  obtain ⟨final, hfeed, hfinal⟩ := hreading.feed hm.body
    (by rw [Ne, List.drop_eq_nil_iff]; omega) hbuf' (by omega) fuel
    (by rw [List.length_drop]; omega)
  have hsum : 1024 + (buf.length - 1024) = buf.length := by omega
  rw [List.length_drop, hsum] at hfeed hfinal
  exact ⟨final, hfeed, hfinal⟩

/-! ## The connection -/

theorem Message.head_pos (m : Message) : 0 < m.head.length := by
  have htwo : CRLF.length = 2 := rfl
  simp only [Message.head, List.length_append, htwo]
  omega

theorem Message.head_le_wire (m : Message) : m.head.length ≤ m.wire.length := by
  rw [Message.wire, List.length_append]
  exact Nat.le_add_right _ _

theorem complete_of_lt {ms : List Message} {n : ℕ} (h : n < m.wire.length) :
    Stream.complete (m :: ms) n = ([], m :: ms, n) := if_neg h.not_ge

theorem complete_zero (ms : List Message) : Stream.complete ms 0 = ([], ms, 0) := by
  cases ms with
  | nil => rfl
  | cons m ms => exact complete_of_lt (m.head_pos.trans_le m.head_le_wire)

theorem complete_wire (ms : List Message) :
    Stream.complete (m :: ms) m.wire.length = ([m], ms, 0) := by
  rw [Stream.complete, if_pos le_rfl, Nat.sub_self, complete_zero]

/-- What the cache of the connection holds of the stream: nothing between two requests, the request
that has begun to arrive, or the one that a file is sent for. -/
inductive Connected (rb : Rebalance (Text × Text)) : Option Request → Stream → Prop
  | idle {ms : List Message} (hms : ∀ m ∈ ms, m.WellFormed) : Connected rb none ⟨ms, 0, false⟩
  | reading {m : Message} {ms : List Message} {n : ℕ} {req : Request}
      (hms : ∀ x ∈ m :: ms, x.WellFormed) (hm : m.Readable) (hn : n < m.wire.length)
      (hreq : Reading rb m n req) : Connected rb (some req) ⟨m :: ms, n, false⟩
  | sending {ms : List Message} (hms : ∀ m ∈ ms, m.WellFormed) (req : Request) :
      Connected rb (some req) ⟨ms, 0, true⟩

theorem callback_eq {cache : Option Request} {ms : List Message} {n : ℕ} {req' : Request}
    {buf : List UInt8} {file : Bool} (hms : ∀ x ∈ m :: ms, x.WellFormed) (hm : m.Readable)
    (hne : buf ≠ []) (hend : n + buf.length ≤ m.wire.length)
    (hfeed : feed rb (buf.length + 1) (cache.getD .new) buf =
      some (req', if n + buf.length = m.wire.length then 1 else 0))
    (hreq : Reading rb m (n + buf.length) req') :
    ∃ cache' o, serve rb cache (.recv buf file) = some (cache', o) ∧
      (requests rb).ok ⟨m :: ms, n, false⟩ (.recv buf file) o ∧
        Connected rb cache' (Stream.next ⟨m :: ms, n, false⟩ (.recv buf file)) := by
  simp only [serve, http_work_for_read_callback, if_neg hne, hfeed, Option.bind_eq_bind,
    Option.bind_some, requests, Stream.next]
  rcases hend.lt_or_eq with hlt | heq
  · rw [if_neg hlt.ne, complete_of_lt hlt]
    exact ⟨_, _, rfl, rfl, .reading hms hm hlt hreq⟩
  · rw [heq] at hreq
    rw [if_pos heq, if_pos rfl, heq, complete_wire, hreq.handed]
    refine ⟨_, _, rfl, rfl, ?_⟩
    have hms' : ∀ x ∈ ms, x.WellFormed := fun x hx ↦ hms x (List.mem_cons_of_mem m hx)
    cases file with
    | false => exact .idle hms'
    | true => exact .sending hms' req'

theorem Connected.serve {cache : Option Request} {s : Stream} (h : Connected rb cache s) {e : Event}
    (harrives : Arrives s e) (hreg : Regular s e) :
    ∃ cache' o, serve rb cache e = some (cache', o) ∧ (requests rb).ok s e o ∧
      Connected rb cache' (s.next e) := by
  cases e with
  | sent =>
    cases h with
    | idle hms => cases harrives
    | reading hms hm hn hreq => cases harrives
    | sending hms req => exact ⟨none, _, rfl, rfl, .idle hms⟩
  | recv buf file =>
    obtain ⟨hne, hbuf⟩ := harrives
    obtain ⟨hsending, hcut⟩ := hreg
    cases h with
    | sending hms req => cases hsending
    | reading hms hm hn hreq =>
      rename_i m ms n req
      obtain ⟨hend, -⟩ := hcut m rfl
      have hprefix : buf <+: m.wire.drop n := by
        rw [Stream.bytes, List.flatMap_cons, List.drop_append_of_le_length hn.le] at hbuf
        exact List.prefix_of_prefix_length_le hbuf (List.prefix_append _ _)
          (by rw [List.length_drop]; simp only at hend; omega)
      obtain ⟨req', hfeed, hreq'⟩ := hreq.feed hm.body hne hprefix hn.le
        (buf.length + 1) (Nat.lt_succ_self buf.length)
      exact callback_eq hms hm hne hend hfeed hreq'
    | idle hms =>
      rename_i ms
      cases ms with
      | nil =>
        rw [Stream.bytes, List.flatMap_nil, List.drop_nil, List.prefix_nil] at hbuf
        exact (hne hbuf).elim
      | cons m ms =>
        obtain ⟨hend, hfirst⟩ := hcut m rfl
        obtain ⟨hm, hhead, hfit⟩ := hfirst rfl
        have hprefix : buf <+: m.wire := by
          rw [Stream.bytes, List.drop_zero, List.flatMap_cons] at hbuf
          exact List.prefix_of_prefix_length_le hbuf (List.prefix_append _ _)
            (by simp only at hend; omega)
        obtain ⟨req', hfeed, hreq'⟩ := feed_new rb (hms m List.mem_cons_self) hm hhead
          hprefix hfit (Nat.lt_succ_self buf.length)
        rw [← Nat.zero_add buf.length] at hreq'
        refine callback_eq hms hm hne hend ?_ hreq'
        rwa [Nat.zero_add]

end Requests

/-- In every run whose chunks are cut so, each request is handed over exactly once, with the chunk
that completes it, as it was sent. -/
theorem refines_requests (rb : Rebalance (Text × Text)) {ms : List Message}
    (hms : ∀ m ∈ ms, m.WellFormed) {es : List Event}
    (hrun : Run.Steps Stream.next (fun s e _ ↦ Arrives s e ∧ Regular s e) ⟨ms, 0, false⟩ es) :
    (∃ cache, Run.final (Refine.step (serve rb) (requests rb)) (some none, ⟨ms, 0, false⟩) es =
        (some cache, Run.final Stream.next ⟨ms, 0, false⟩ es) ∧
          Connected rb cache (Run.final Stream.next ⟨ms, 0, false⟩ es)) ∧
      Refine.Refines (serve rb) (requests rb) none ⟨ms, 0, false⟩ es :=
  Refine.refines_of_inputs (fun _ _ _ ↦ rfl) (fun _ _ _ hconn he ↦ hconn.serve he.1 he.2)
    (.idle hms) hrun

/-- A form with a body that comes in two chunks, and a request behind it. -/
theorem refines_requests_two :
    let post : Message := ⟨ascii "POST", ascii "/a?x=1&y=2", ascii "HTTP/1.1",
      [⟨ascii "Host", ascii " b"⟩, ⟨ascii "Content-Length", ascii " 5"⟩], ascii "hello"⟩
    let get : Message := ⟨ascii "GET", ascii "/", ascii "HTTP/1.1", [], []⟩
    Refine.Refines (serve (Rebalance.small _)) (requests (Rebalance.small _)) none
      ⟨[post, get], 0, false⟩
      [.recv (post.wire.take 60) false, .recv (post.wire.drop 60) true, .sent,
        .recv get.wire false] :=
  (refines_requests (Rebalance.small _) (by decide +kernel) (by decide)).2

/-- A chunk that ends inside the start line is reported as an error. -/
theorem not_refines_requests :
    ¬ ∀ (rb : Rebalance (Text × Text)) (ms : List Message) (es : List Event),
      (∀ m ∈ ms, m.WellFormed) →
        Run.Steps Stream.next (fun s e _ ↦ Arrives s e) ⟨ms, 0, false⟩ es →
          Refine.Refines (serve rb) (requests rb) none ⟨ms, 0, false⟩ es := by
  intro h
  have hrun := h (Rebalance.small _) [⟨ascii "GET", ascii "/", ascii "HTTP/1.1", [], []⟩]
    [.recv (ascii "GET /") false] (by decide +kernel) (by decide)
  revert hrun
  decide +kernel

end Libobject.Http
