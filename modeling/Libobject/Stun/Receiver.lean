import Libobject.Lib.Stride
import Libobject.Stun.Freshness

/-!
# Reading a datagram that says anything

A response keeps its datagram in a header of fixed size and goes through the attributes there, as
far as the message length says. Nothing compares that with what was received, so a reading is
judged by what it does when the header ends where the datagram ends.
-/

namespace Libobject.Stun

open Buffer Stride

structure Receiver (A : Type) where
  header : List UInt8
  attribs : A
  buffer : RingBuffer

variable {A γ : Type}

/-- `__read`, which is the same for both protocols but for the attributes. -/
def Receiver.read (read_attribs : ℕ → ℕ → List UInt8 → A → Option (ℤ × List UInt8 × A))
    (resp : Receiver A) : Option ((ℤ × Option ℕ) × Receiver A) :=
  let len := resp.buffer.getLen
  if header_max_len < len ∨ len < 20 then some ((-1, none), resp)
  else do
    let (bs, buffer) := resp.buffer.read len
    let mem ← put resp.header 0 bs
    let (msgtype, mem) ← ntohs mem 0
    let (msglen, mem) ← ntohs mem 2
    if msglen = 0 then return ((1, some msgtype), ⟨mem, resp.attribs, buffer⟩)
    let (ret, mem, attribs) ← read_attribs msglen msglen mem resp.attribs
    return ((ret, some msgtype), ⟨mem, attribs, buffer⟩)

/-- What the attribute at the offset `i` tells of its type. -/
def typeAt (mem : List UInt8) (i : ℕ) : ℕ := beNat (field mem (20 + i) 2)

/-- What it tells of its length. -/
def lenAt (mem : List UInt8) (i : ℕ) : ℕ := beNat (field mem (20 + i + 2) 2)

/-- The attributes of a protocol: the loop, one round of it, and what is kept of an attribute, with
its length. Of a round it is known when it stays in the memory, when it gives up and when it keeps
something. -/
structure Reader (A γ : Type) where
  read_attribs : ℕ → ℕ → List UInt8 → A → Option (ℤ × List UInt8 × A)
  visit : List UInt8 → ℕ → Option (Visit UInt8 (ℕ × γ))
  store : A → ℕ × ℕ × γ → A
  fits : List UInt8 → ℕ → Prop
  refuses : List UInt8 → ℕ → Prop
  keeps : List UInt8 → ℕ → Prop
  local_visit : Stride.Local visit
  read_attribs_eq : ∀ msglen fuel mem attribs, read_attribs msglen fuel mem attribs =
    (walk visit msglen fuel 0 mem).map
      (fun r ↦ (if r.1 then 1 else -1, r.2.1, r.2.2.foldl store attribs))
  fits_iff : ∀ mem i, (visit mem i).isSome ↔ fits mem i
  refuses_iff : ∀ {mem i v}, visit mem i = some v → (v.kept = none ↔ refuses mem i)
  keeps_iff : ∀ {mem i v}, visit mem i = some v → ¬ refuses mem i →
    (keeps mem i ↔ ∃ c, v.kept = some (some c))
  kept_len : ∀ {mem i v c}, visit mem i = some v → v.kept = some (some c) → c.1 = lenAt mem i

namespace Reader

variable (R : Reader A γ) (resp : Receiver A) (buf : List UInt8)

def msglen : ℕ := beNat (field buf 2 2)

/-- Behind the header the attribute ends inside the message, and inside what was received. -/
def Lies (i n : ℕ) : Prop := i + 4 + n ≤ msglen buf ∧ 20 + i + 4 + n ≤ buf.length

instance (i n : ℕ) : Decidable (Lies buf i n) := instDecidableAnd

/-- The attributes that are kept, each with its offset and its length. -/
def stored : List (ℕ × ℕ × γ) :=
  match walk R.visit (msglen buf) (msglen buf) 0 (received [] buf) with
  | none => []
  | some r => r.2.2

/-- The reading is the same with a header that ends with the datagram: what stands behind is neither
read nor written. The loop ends, and the attributes that it keeps lie inside unless it fails. -/
def Safe (read : Receiver A → Option ((ℤ × Option ℕ) × Receiver A)) : Prop :=
  ∃ ret msgtype s,
    read ⟨resp.header.take buf.length, resp.attribs, resp.buffer.write buf⟩ =
        some ((ret, msgtype), s) ∧
      read ⟨resp.header, resp.attribs, resp.buffer.write buf⟩ =
        some ((ret, msgtype), { s with header := s.header ++ resp.header.drop buf.length }) ∧
      (∀ mem attribs k, R.read_attribs (msglen buf) (msglen buf + k) mem attribs =
        R.read_attribs (msglen buf) (msglen buf) mem attribs) ∧
      (0 ≤ ret → s.attribs = (R.stored buf).foldl R.store resp.attribs ∧
        ∀ x ∈ R.stored buf, Lies buf x.1 x.2.1)

/-- The attributes that the loop comes to, as it finds them. -/
def visited : List (ℕ × List UInt8) :=
  places R.visit (msglen buf) (msglen buf) 0 (received [] buf)

/-- Either the length of what is held is refused, or nothing of an earlier datagram is left, every
attribute that the loop comes to fits, and those that are kept lie inside or the loop gives up. -/
def Bounded : Prop :=
  (resp.buffer.write buf).getLen < 20 ∨ header_max_len < (resp.buffer.write buf).getLen ∨
    resp.buffer.contents = [] ∧ (∀ x ∈ R.visited buf, R.fits x.2 x.1) ∧
      ((∃ x ∈ R.visited buf, R.refuses x.2 x.1) ∨
        ∀ x ∈ R.visited buf, R.keeps x.2 x.1 → Lies buf x.1 (lenAt x.2 x.1))

instance [∀ mem i, Decidable (R.fits mem i)] [∀ mem i, Decidable (R.refuses mem i)]
    [∀ mem i, Decidable (R.keeps mem i)] : Decidable (R.Bounded resp buf) := by
  unfold Bounded
  infer_instance

end Reader

/-- A buffer between two operations. -/
structure Live (buffer : RingBuffer) : Prop where
  valid : buffer.Valid
  size : header_max_len < buffer.size
  started : buffer.lastOperation ≠ .na ∨ buffer.contents = []

theorem Drained.live {buffer : RingBuffer} (h : Drained buffer) : Live buffer where
  valid := h.valid
  size := by
    rw [h.size]
    decide
  started := Or.inr h.empty

/-! ## What the buffer holds -/

theorem write_nil {buffer : RingBuffer} (h : Live buffer) :
    (buffer.write []).Valid ∧ (buffer.write []).contents = buffer.contents ∧
        (buffer.write []).getLen = buffer.contents.length ∨
      header_max_len < (buffer.write []).getLen := by
  by_cases hfull : buffer.writable = 0
  · have hwrite : buffer.write [] = buffer := by rw [RingBuffer.write, if_pos hfull]
    have hsum := RingBuffer.readable_add_writable h.valid
    have hlength := RingBuffer.length_contents h.valid
    have hsize := h.size
    have hne : buffer.contents ≠ [] := by
      rw [← List.length_pos_iff]
      omega
    rw [hwrite]
    exact Or.inl ⟨h.valid, rfl, RingBuffer.getLen_eq h.valid (h.started.resolve_right hne)⟩
  · have hw := h.valid.write_lt
    have hcopy : buffer.copyIn [] = buffer.addr := by
      rw [RingBuffer.copyIn, if_pos (by simpa using hw.le), RingBuffer.poke]
      simp
    have hwrite : buffer.write [] = { buffer with lastOperation := .write } := by
      rw [RingBuffer.write, if_neg hfull]
      simp [hcopy, Nat.mod_eq_of_lt hw]
    have hvalid : (buffer.write []).Valid := by
      rw [hwrite]
      exact ⟨h.valid.read_lt, h.valid.write_lt⟩
    by_cases heq : buffer.wOffset = buffer.rOffset
    · right
      rw [hwrite, RingBuffer.getLen]
      have hsize' : header_max_len <
          RingBuffer.size { buffer with lastOperation := .write } := h.size
      simpa [heq] using hsize'
    · left
      have hcontents : (buffer.write []).contents = buffer.contents := by
        rw [hwrite]
        simp only [RingBuffer.contents, RingBuffer.readable, if_neg heq]
        rfl
      refine ⟨hvalid, hcontents, ?_⟩
      rw [RingBuffer.getLen_eq hvalid (by simp [hwrite]), hcontents]

theorem contents_write {buffer : RingBuffer} (h : Live buffer) (buf : List UInt8) :
    (buffer.write buf).Valid ∧ (buffer.write buf).contents = buffer.contents ++ buf ∧
        (buffer.write buf).getLen = buffer.contents.length + buf.length ∨
      header_max_len < (buffer.write buf).getLen := by
  by_cases hnil : buf = []
  · subst hnil
    rcases write_nil h with ⟨hvalid, hcontents, hlen⟩ | hmax
    · exact Or.inl ⟨hvalid, by rw [hcontents, List.append_nil], hlen⟩
    · exact Or.inr hmax
  · have hsum := RingBuffer.readable_add_writable h.valid
    have hlength := RingBuffer.length_contents h.valid
    obtain ⟨hvalid, hsize, hop, -⟩ := RingBuffer.write_le h.valid hnil h.started
    have hlen := RingBuffer.getLen_eq hvalid hop
    rcases Nat.lt_or_ge buffer.size (buffer.contents.length + buf.length) with hover | hfit
    · -- the room is filled, and a full buffer is longer than the header
      right
      have hroom : (buffer.write buf).contents.length = buffer.size := by
        by_cases hfull : buffer.writable = 0
        · have hwrite : buffer.write buf = buffer := by rw [RingBuffer.write, if_pos hfull]
          rw [hwrite]
          omega
        · have htake : (buf.take buffer.writable).length = buffer.writable := by
            rw [List.length_take, Nat.min_eq_left (by omega)]
          have hne : buf.take buffer.writable ≠ [] := by
            rw [← List.length_pos_iff]
            omega
          obtain ⟨-, hcontents, -, -⟩ := RingBuffer.write_spec h.valid hne (by omega)
          rw [RingBuffer.write_take, hcontents, List.length_append]
          omega
      rw [hlen, hroom]
      exact h.size
    · obtain ⟨-, hcontents, -, -⟩ := RingBuffer.write_spec h.valid hnil hfit
      refine Or.inl ⟨hvalid, hcontents, ?_⟩
      rw [hlen, hcontents, List.length_append]

/-! ## Reading -/

namespace Receiver

variable {read_attribs : ℕ → ℕ → List UInt8 → A → Option (ℤ × List UInt8 × A)}
  {header buf : List UInt8} {attribs : A} {buffer : RingBuffer}

theorem read_refused (h : buffer.getLen < 20 ∨ header_max_len < buffer.getLen) :
    read read_attribs ⟨header, attribs, buffer⟩ =
      some ((-1, none), ⟨header, attribs, buffer⟩) := by
  rw [read, if_pos h.symm]

theorem read_over (hvalid : buffer.Valid) (hlen : buffer.getLen = buffer.contents.length)
    (h20 : 20 ≤ buffer.getLen) (hmax : buffer.getLen ≤ header_max_len)
    (hover : header.length < buffer.getLen) :
    read read_attribs ⟨header, attribs, buffer⟩ = none := by
  have hrange : ¬ (header_max_len < buffer.getLen ∨ buffer.getLen < 20) := by omega
  have hpos : 0 < buffer.getLen := by omega
  obtain ⟨hbs, -, -⟩ := RingBuffer.read_spec hvalid hpos
  have hput : put header 0 (buffer.read buffer.getLen).1 = none := by
    have htake : (buffer.read buffer.getLen).1.length = buffer.getLen := by
      rw [hbs, List.length_take, ← hlen, Nat.min_self]
    rw [put, if_neg (by omega)]
  simp only [read, if_neg hrange, hput, Option.bind_eq_bind, Option.bind_none]

theorem read_received (hvalid : buffer.Valid) (hcontents : buffer.contents = buf)
    (hlen : buffer.getLen = buf.length) (h20 : 20 ≤ buf.length)
    (hmax : buf.length ≤ header_max_len) (hheader : buf.length ≤ header.length)
    (hzero : ∀ mem, read_attribs 0 0 mem attribs = some (1, mem, attribs)) :
    read read_attribs ⟨header, attribs, buffer⟩ =
      (read_attribs (Reader.msglen buf) (Reader.msglen buf) (received header buf) attribs).map
        (fun r ↦ ((r.1, some (beNat (buf.take 2))),
          ⟨r.2.1, r.2.2, (buffer.read buffer.getLen).2⟩)) := by
  have hrange : ¬ (header_max_len < buffer.getLen ∨ buffer.getLen < 20) := by omega
  have hpos : 0 < buffer.getLen := by omega
  obtain ⟨hbs, -, -⟩ := RingBuffer.read_spec hvalid hpos
  have hread : (buffer.read buffer.getLen).1 = buf := by
    rw [hbs, hcontents, hlen, List.take_length]
  obtain ⟨mem₀, mem₁, hput, htype, hmsglen⟩ := received_eq h20 hheader
  simp only [read, if_neg hrange, hread, hput, htype, hmsglen, Option.bind_eq_bind,
    Option.bind_some]
  by_cases hmsg : beNat (field buf 2 2) = 0
  · rw [if_pos hmsg, Reader.msglen, hmsg, hzero]
    rfl
  · rw [if_neg hmsg]
    cases hattrs : read_attribs (Reader.msglen buf) (Reader.msglen buf) (received header buf)
      attribs with
    | none =>
      rw [Reader.msglen] at hattrs
      rw [hattrs]
      rfl
    | some r =>
      rw [Reader.msglen] at hattrs
      rw [hattrs]
      rfl

end Receiver

theorem received_nil_append {header buf : List UInt8} :
    received header buf = received [] buf ++ header.drop buf.length := by
  simp [received]

theorem received_take (header buf : List UInt8) :
    received (header.take buf.length) buf = received [] buf := by
  rw [received_nil_append, List.drop_eq_nil_of_le (List.length_take_le _ _), List.append_nil]

namespace Reader

variable (R : Reader A γ)

theorem read_attribs_zero (mem : List UInt8) (attribs : A) :
    R.read_attribs 0 0 mem attribs = some (1, mem, attribs) := by
  rw [R.read_attribs_eq]
  rfl

theorem read_attribs_fuel (msglen k : ℕ) (mem : List UInt8) (attribs : A) :
    R.read_attribs msglen (msglen + k) mem attribs = R.read_attribs msglen msglen mem attribs := by
  rw [R.read_attribs_eq, R.read_attribs_eq, R.local_visit.walk_fuel (by omega)]

theorem walk_isSome_iff (buf : List UInt8) :
    (walk R.visit (msglen buf) (msglen buf) 0 (received [] buf)).isSome ↔
      ∀ x ∈ R.visited buf, R.fits x.2 x.1 := by
  rw [Stride.walk_isSome_iff]
  exact forall₂_congr fun x _ ↦ R.fits_iff x.2 x.1

section Walked

variable {R} {buf mem : List UInt8} {ok : Bool} {kept : List (ℕ × ℕ × γ)}

theorem visit_visited
    (h : walk R.visit (msglen buf) (msglen buf) 0 (received [] buf) = some (ok, mem, kept))
    {x : ℕ × List UInt8} (hx : x ∈ R.visited buf) : ∃ v, R.visit x.2 x.1 = some v :=
  Option.isSome_iff_exists.mp (Stride.walk_isSome_iff.mp (Option.isSome_of_eq_some h) x hx)

theorem walk_refused_iff
    (h : walk R.visit (msglen buf) (msglen buf) 0 (received [] buf) = some (ok, mem, kept)) :
    ok = false ↔ ∃ x ∈ R.visited buf, R.refuses x.2 x.1 := by
  have hok : ok = true ↔ ∀ x ∈ R.visited buf, ∀ v ∈ R.visit x.2 x.1, v.kept ≠ none :=
    (walk_spec h).1
  rw [← Bool.not_eq_true, hok]
  push Not
  refine exists_congr fun x ↦ and_congr_right fun hx ↦ ?_
  obtain ⟨v, hv⟩ := visit_visited h hx
  rw [← R.refuses_iff hv]
  constructor
  · rintro ⟨v', hv', hnone⟩
    obtain rfl := Option.some.inj (hv.symm.trans hv')
    exact hnone
  · exact fun hnone ↦ ⟨v, hv, hnone⟩

theorem kept_lies_iff
    (h : walk R.visit (msglen buf) (msglen buf) 0 (received [] buf) = some (ok, mem, kept))
    (hok : ∀ x ∈ R.visited buf, ¬ R.refuses x.2 x.1) :
    (∀ y ∈ kept, Lies buf y.1 y.2.1) ↔
      ∀ x ∈ R.visited buf, R.keeps x.2 x.1 → Lies buf x.1 (lenAt x.2 x.1) := by
  have hmem : ∀ y, y ∈ kept ↔ ∃ x ∈ R.visited buf, y.1 = x.1 ∧
      ∃ v ∈ R.visit x.2 x.1, v.kept = some (some y.2) := (walk_spec h).2
  constructor
  · intro hall x hx hkeeps
    obtain ⟨v, hv⟩ := visit_visited h hx
    obtain ⟨c, hc⟩ := (R.keeps_iff hv (hok x hx)).mp hkeeps
    rw [← R.kept_len hv hc]
    exact hall (x.1, c) ((hmem _).mpr ⟨x, hx, rfl, v, hv, hc⟩)
  · intro hall y hy
    obtain ⟨x, hx, hplace, v, hv, hc⟩ := (hmem y).mp hy
    rw [hplace, R.kept_len hv hc]
    exact hall x hx ((R.keeps_iff hv (hok x hx)).mpr ⟨y.2, hc⟩)

end Walked

variable {resp : Receiver A} {buf : List UInt8}

theorem safe_received_iff (hheader : resp.header.length = header_max_len)
    (hvalid : (resp.buffer.write buf).Valid) (hcontents : (resp.buffer.write buf).contents = buf)
    (hlen : (resp.buffer.write buf).getLen = buf.length) (h20 : 20 ≤ buf.length)
    (hmax : buf.length ≤ header_max_len) :
    R.Safe resp buf (Receiver.read R.read_attribs) ↔
      (∀ x ∈ R.visited buf, R.fits x.2 x.1) ∧ ((∃ x ∈ R.visited buf, R.refuses x.2 x.1) ∨
        ∀ x ∈ R.visited buf, R.keeps x.2 x.1 → Lies buf x.1 (lenAt x.2 x.1)) := by
  have hzero := fun mem ↦ R.read_attribs_zero mem resp.attribs
  have hwhole : buf.length ≤ resp.header.length := by omega
  have hpart : buf.length ≤ (resp.header.take buf.length).length := by
    rw [List.length_take, Nat.min_eq_left hwhole]
  have hcut := Receiver.read_received hvalid hcontents hlen h20 hmax hpart hzero
  have hread := Receiver.read_received hvalid hcontents hlen h20 hmax hwhole hzero
  rw [received_take, R.read_attribs_eq] at hcut
  rw [received_nil_append, R.read_attribs_eq] at hread
  rw [← R.walk_isSome_iff]
  cases hwalk : walk R.visit (msglen buf) (msglen buf) 0 (received [] buf) with
  | none =>
    rw [hwalk, Option.map_none, Option.map_none] at hcut
    constructor
    · rintro ⟨ret, msgtype, s, hs, -⟩
      rw [hcut] at hs
      cases hs
    · rintro ⟨hsome, -⟩
      cases hsome
  | some r =>
    obtain ⟨ok, mem, kept⟩ := r
    have hstored : R.stored buf = kept := by rw [stored, hwalk]
    have hrefused := walk_refused_iff hwalk
    rw [hwalk, Option.map_some, Option.map_some] at hcut
    rw [R.local_visit.walk_append hwalk, Option.map_some, Option.map_some] at hread
    have hfuel := fun mem attribs k ↦ R.read_attribs_fuel (msglen buf) k mem attribs
    simp only [Option.isSome_some, true_and]
    cases ok with
    | false =>
      have hex := hrefused.mp rfl
      have hneg : ¬ (0 : ℤ) ≤ if (false : Bool) = true then 1 else -1 := by decide
      exact iff_of_true ⟨_, _, _, hcut, hread, hfuel, fun hret ↦ (hneg hret).elim⟩
        (Or.inl hex)
    | true =>
      have hnone : ¬ ∃ x ∈ R.visited buf, R.refuses x.2 x.1 := by
        rw [← hrefused]
        decide
      have hlies := kept_lies_iff hwalk fun x hx hrefuses ↦ hnone ⟨x, hx, hrefuses⟩
      rw [or_iff_right hnone, ← hlies, ← hstored]
      constructor
      · rintro ⟨ret, msgtype, s, hs, -, -, hinside⟩
        obtain ⟨hret, -⟩ := Prod.mk.inj (Prod.mk.inj (Option.some.inj (hcut.symm.trans hs))).1
        have hone : (0 : ℤ) ≤ 1 := by decide
        exact (hinside (hone.trans_eq hret)).2
      · intro hinside
        refine ⟨_, _, _, hcut, hread, hfuel, fun _ ↦ ⟨?_, hinside⟩⟩
        rw [hstored]

theorem safe_iff (hheader : resp.header.length = header_max_len) (hlive : Live resp.buffer) :
    R.Safe resp buf (Receiver.read R.read_attribs) ↔ R.Bounded resp buf := by
  rw [Bounded]
  by_cases hout : (resp.buffer.write buf).getLen < 20 ∨
      header_max_len < (resp.buffer.write buf).getLen
  · have hneg : ¬ (0 : ℤ) ≤ -1 := by decide
    refine iff_of_true ⟨-1, none, _, Receiver.read_refused hout, ?_,
      fun mem attribs k ↦ R.read_attribs_fuel _ k mem attribs, fun h ↦ (hneg h).elim⟩
      (or_assoc.mp (Or.inl hout))
    rw [Receiver.read_refused hout, List.take_append_drop]
  · rw [← or_assoc, or_iff_right hout]
    rw [not_or, Nat.not_lt, Nat.not_lt] at hout
    obtain ⟨h20, hmax⟩ := hout
    obtain ⟨hvalid, hcontents, hlen⟩ :=
      (contents_write hlive buf).resolve_right (Nat.not_lt_of_le hmax)
    by_cases hleft : resp.buffer.contents = []
    · rw [hleft, List.nil_append] at hcontents
      rw [hleft, List.length_nil, Nat.zero_add] at hlen
      rw [R.safe_received_iff hheader hvalid hcontents hlen (by omega) (by omega),
        and_iff_right hleft]
    · refine iff_of_false ?_ fun h ↦ hleft h.1
      -- the bytes that were left stand where the datagram should
      have hpos := List.length_pos_iff.mpr hleft
      have hover : Receiver.read R.read_attribs
          ⟨resp.header.take buf.length, resp.attribs, resp.buffer.write buf⟩ = none :=
        Receiver.read_over hvalid (by rw [hcontents, List.length_append, hlen]) h20 hmax
          (by rw [List.length_take]; omega)
      rintro ⟨ret, msgtype, s, hs, -⟩
      rw [hover] at hs
      cases hs

end Reader

end Libobject.Stun
