import Libobject.Core.RingSearch
import Libobject.Lib.Occurs

/-!
# Where a needle stands in a buffer

`rfind` of a stream buffer looks from the back for the last place of a needle among the unread
bytes, `find` of a ring buffer from the front for the first one, also around the end of the memory.
Both answer with a place in the memory.
-/

namespace Libobject

namespace IoBuffer

def memcmp (b : IoBuffer) (off : ℕ) (needle : List UInt8) : Option Bool :=
  (Buffer.get b.addr off needle.length).map fun bs ↦ decide (bs = needle)

/-- The loop of `__rfind` with `n` places to go. `target` is the place that was looked at last. -/
def rfindFrom (b : IoBuffer) (needle : List UInt8) : ℕ → Option ℕ → Option (Option ℕ)
  | 0, target => some target
  | n + 1, _ => do
    let same ← b.memcmp (b.r_offset + n) needle
    if same then return some (b.r_offset + n)
    else rfindFrom b needle n (some (b.r_offset + n))

/-- The inner `none` is a null pointer. -/
def rfind (b : IoBuffer) (needle : List UInt8) : Option (Option ℕ) :=
  if b.get_len < needle.length then some none
  else rfindFrom b needle (b.get_len - needle.length + 1) none

/-- The answer is the last place of the needle among the unread bytes, or null. -/
def FindsLast (b : IoBuffer) (items needle : List UInt8) : Prop :=
  ∃ place, IsLast needle items place ∧ b.rfind needle = some (place.map (b.r_offset + ·))

variable {b : IoBuffer} {items needle : List UInt8}

theorem Holds.memcmp (hb : Holds b items) {i : ℕ} (hi : i + needle.length ≤ items.length) :
    b.memcmp (b.r_offset + i) needle = some (decide (OccursAt needle items i)) := by
  obtain ⟨⟨old, rest, haddr, hold⟩, -, -⟩ := hb
  have hfits : b.r_offset + i + needle.length ≤ b.addr.length := by
    rw [haddr, List.length_append, List.length_append]
    omega
  have hdrop : (b.addr.drop (b.r_offset + i)).take needle.length =
      (items.drop i).take needle.length := by
    rw [haddr, ← hold, ← List.drop_drop, List.drop_left, List.drop_append_of_le_length (by omega),
      List.take_append_of_le_length (by rw [List.length_drop]; omega)]
  rw [IoBuffer.memcmp, Buffer.get, if_pos hfits, Option.map_some, hdrop]
  congr 1
  exact decide_eq_decide.mpr (and_iff_right hi).symm

theorem Holds.rfindFrom (hb : Holds b items) {n : ℕ} (hn : n + needle.length ≤ items.length + 1)
    (target : Option ℕ) : ∃ r, b.rfindFrom needle n target = some r ∧
      ((∃ i < n, OccursAt needle items i ∧ (∀ j < n, OccursAt needle items j → j ≤ i) ∧
          r = some (b.r_offset + i)) ∨
        (∀ i < n, ¬OccursAt needle items i) ∧ r = if n = 0 then target else some b.r_offset) := by
  induction n generalizing target with
  | zero => exact ⟨target, rfl, .inr ⟨fun _ h ↦ (nomatch h), rfl⟩⟩
  | succ n ih =>
    rw [IoBuffer.rfindFrom, hb.memcmp (by omega), Option.bind_eq_bind, Option.bind_some]
    by_cases hocc : OccursAt needle items n
    · rw [if_pos (decide_eq_true hocc)]
      exact ⟨_, rfl, .inl ⟨n, by omega, hocc, fun j hj _ ↦ by omega, rfl⟩⟩
    · rw [if_neg (by rw [decide_eq_true_iff]; exact hocc)]
      obtain ⟨r, hr, ⟨i, hi, hfound, hlast, heq⟩ | ⟨hnone, heq⟩⟩ :=
        ih (by omega) (some (b.r_offset + n))
      · refine ⟨r, hr, .inl ⟨i, by omega, hfound, fun j hj hj' ↦ ?_, heq⟩⟩
        rcases Nat.lt_succ_iff_lt_or_eq.mp hj with hlt | rfl
        · exact hlast j hlt hj'
        · exact absurd hj' hocc
      · refine ⟨r, hr, .inr ⟨fun i hi ↦ ?_, ?_⟩⟩
        · rcases Nat.lt_succ_iff_lt_or_eq.mp hi with hlt | rfl
          · exact hnone i hlt
          · exact hocc
        · rw [heq, if_neg (Nat.succ_ne_zero n)]
          split_ifs with hzero
          · rw [hzero, Nat.add_zero]
          · rfl

/-- A needle that is short enough for the loop to look for it is found if it is there, and what is
returned otherwise is not null. -/
theorem finds_last_iff (hb : Holds b items) (needle : List UInt8) :
    b.FindsLast items needle ↔
      items.length < needle.length ∨ ∃ i, OccursAt needle items i := by
  rw [FindsLast, rfind, hb.get_len]
  by_cases hlong : items.length < needle.length
  · rw [if_pos hlong]
    refine iff_of_true ⟨none, fun i ↦ not_occursAt_of_length_lt hlong, rfl⟩ (.inl hlong)
  · have hsize : items.length - needle.length + 1 + needle.length ≤ items.length + 1 := by omega
    rw [if_neg hlong, or_iff_right hlong]
    obtain ⟨r, hr, ⟨i, hi, hfound, hlast, rfl⟩ | ⟨hnone, rfl⟩⟩ :=
      hb.rfindFrom hsize none
    · refine iff_of_true ⟨some i, ⟨hfound, fun j hj ↦ hlast j ?_ hj⟩, hr⟩ ⟨i, hfound⟩
      have hle := hj.le
      omega
    · have hnot : ∀ i, ¬OccursAt needle items i := by
        intro i hi
        have hle := hi.le
        exact hnone i (by omega) hi
      refine iff_of_false ?_ fun ⟨i, hi⟩ ↦ hnot i hi
      rintro ⟨place, hplace, heq⟩
      cases place with
      | none =>
        rw [hr, if_neg (Nat.succ_ne_zero _)] at heq
        cases heq
      | some i => exact hnot i hplace.1

/-- The text `abcab`, read up to its second byte. -/
def sampleText : IoBuffer := ⟨[97, 98, 99, 97, 98, 0, 0, 0], 1, 5, 8⟩

theorem holds_sampleText : Holds sampleText [98, 99, 97, 98] :=
  ⟨⟨[97], [0, 0, 0], rfl, rfl⟩, rfl, rfl⟩

theorem finds_last_sampleText : sampleText.FindsLast [98, 99, 97, 98] [98] :=
  (finds_last_iff holds_sampleText [98]).mpr (.inr ⟨3, by decide⟩)

/-- Nothing ends in `z`, and the start of the unread bytes is returned. -/
theorem not_finds_last : ¬∀ (b : IoBuffer) (items needle : List UInt8), Holds b items →
    b.FindsLast items needle := by
  intro h
  obtain ⟨place, hplace, heq⟩ := h _ _ [122] holds_sampleText
  have hrfind : sampleText.rfind [122] = some (some 1) := by decide
  rw [hrfind] at heq
  cases place with
  | none => cases heq
  | some i =>
    have hle := hplace.1.le
    have hnot : ∀ i < 4, ¬OccursAt [122] ([98, 99, 97, 98] : List UInt8) i := by decide
    exact hnot i hle hplace.1

end IoBuffer

namespace RingBuffer

/-- The loop of `__find` from the `cnt`-th byte on, `n` times around. `none` is a sum of offsets
that no C integer holds. -/
def findFrom (rb : RingBuffer) (needle : List UInt8) : ℕ → ℕ → Option (Option ℕ)
  | 0, _ => some none
  | n + 1, cnt =>
    if 2 ^ 31 ≤ rb.rOffset + cnt + needle.length then none
    else if rb.matchAt needle cnt then
      some (some (if rb.size ≤ rb.rOffset + cnt then (cnt + rb.rOffset) % rb.size
        else rb.rOffset + cnt))
    else findFrom rb needle n (cnt + 1)

/-- `find` where the offsets are C integers. -/
def findInt (rb : RingBuffer) (needle : List UInt8) : Option (Option ℕ) :=
  if rb.getLen < needle.length then some none
  else findFrom rb needle (rb.getLen - needle.length + 1) 0

/-- Both answers are the first place of the needle in what the buffer holds: `find` gives it in the
memory, `get_needle_offset` behind the read offset. -/
def FindsFirst (rb : RingBuffer) (needle : List UInt8) : Prop :=
  ∃ place, IsFirst needle rb.contents place ∧
    rb.findInt needle = some (place.map fun i ↦ (rb.rOffset + i) % rb.size) ∧
    rb.get_needle_offset needle = place

/-- Nothing has been read or written yet. -/
def Fresh (rb : RingBuffer) : Prop := rb.lastOperation = .na ∧ rb.wOffset = rb.rOffset

/-- The bytes that `get_len` counts: in a new buffer, all of its memory. -/
def counted (rb : RingBuffer) : List UInt8 :=
  (rb.addr.drop rb.rOffset ++ rb.addr.take rb.rOffset).take rb.getLen

/-- The places where the needle is looked for are counted by C integers. -/
def Small (rb : RingBuffer) (needle : List UInt8) : Prop :=
  ∀ i, i + needle.length ≤ rb.counted.length → (∀ j < i, ¬OccursAt needle rb.counted j) →
    rb.rOffset + i + needle.length < 2 ^ 31

variable {rb : RingBuffer} {needle : List UInt8}

theorem findFrom_eq (rb : RingBuffer) (needle : List UInt8) (n cnt : ℕ) :
    ((∀ i, cnt ≤ i → i < cnt + n → (∀ j, cnt ≤ j → j < i → rb.matchAt needle j = false) →
        rb.rOffset + i + needle.length < 2 ^ 31) ∧
      rb.findFrom needle n cnt = some (((List.range' cnt n).find? (rb.matchAt needle)).map fun c ↦
        if rb.size ≤ rb.rOffset + c then (c + rb.rOffset) % rb.size else rb.rOffset + c)) ∨
    (¬(∀ i, cnt ≤ i → i < cnt + n → (∀ j, cnt ≤ j → j < i → rb.matchAt needle j = false) →
        rb.rOffset + i + needle.length < 2 ^ 31) ∧ rb.findFrom needle n cnt = none) := by
  induction n generalizing cnt with
  | zero => exact .inl ⟨fun i hle hlt ↦ by omega, rfl⟩
  | succ n ih =>
    rw [findFrom, List.range'_succ, List.find?_cons]
    by_cases hbig : 2 ^ 31 ≤ rb.rOffset + cnt + needle.length
    · rw [if_pos hbig]
      refine .inr ⟨fun h ↦ ?_, rfl⟩
      have hlt := h cnt le_rfl (by omega) fun j hle hlt ↦ by omega
      omega
    rw [if_neg hbig]
    cases hmatch : rb.matchAt needle cnt with
    | true =>
      refine .inl ⟨fun i hle hlt hbefore ↦ ?_, rfl⟩
      rcases hle.eq_or_lt with rfl | hgt
      · omega
      · have hnot := hbefore cnt le_rfl hgt
        rw [hmatch] at hnot
        cases hnot
    | false =>
      have hbounds : (∀ i, cnt ≤ i → i < cnt + (n + 1) →
          (∀ j, cnt ≤ j → j < i → rb.matchAt needle j = false) →
            rb.rOffset + i + needle.length < 2 ^ 31) ↔
          ∀ i, cnt + 1 ≤ i → i < cnt + 1 + n →
            (∀ j, cnt + 1 ≤ j → j < i → rb.matchAt needle j = false) →
              rb.rOffset + i + needle.length < 2 ^ 31 := by
        constructor
        · intro h i hle hlt hbefore
          refine h i (by omega) (by omega) fun j hj hji ↦ ?_
          rcases hj.eq_or_lt with rfl | hgt
          · exact hmatch
          · exact hbefore j hgt hji
        · intro h i hle hlt hbefore
          rcases hle.eq_or_lt with rfl | hgt
          · omega
          · exact h i hgt (by omega) fun j hj hji ↦ hbefore j (by omega) hji
      rw [hbounds]
      exact ih (cnt + 1)

/-- What `get_len` counts is what the buffer would hold after another operation, and what it does
hold unless it is new. -/
theorem exists_operation (h : rb.Valid) : ∃ op, op ≠ .na ∧
    ({ rb with lastOperation := op } : RingBuffer).getLen = rb.getLen ∧
    ({ rb with lastOperation := op } : RingBuffer).contents = rb.counted := by
  obtain ⟨op, hop, hlen⟩ : ∃ op, op ≠ .na ∧
      ({ rb with lastOperation := op } : RingBuffer).getLen = rb.getLen := by
    by_cases hread : rb.lastOperation = .read
    · exact ⟨.read, by decide, by rw [← hread]⟩
    · refine ⟨.write, by decide, ?_⟩
      have hno : ¬(rb.lastOperation = .read ∧ rb.wOffset = rb.rOffset) := fun h ↦ hread h.1
      have hno' : ¬(Operation.write = .read ∧ rb.wOffset = rb.rOffset) := fun h ↦ nomatch h.1
      rw [getLen, getLen, if_neg hno]
      dsimp only
      rw [if_neg hno']
      rfl
  refine ⟨op, hop, hlen, ?_⟩
  have hvalid : ({ rb with lastOperation := op } : RingBuffer).Valid := ⟨h.1, h.2⟩
  have hcount := getLen_eq hvalid hop
  rw [length_contents hvalid, hlen] at hcount
  rw [contents, counted, hcount]

theorem length_counted (h : rb.Valid) : rb.counted.length = rb.getLen := by
  obtain ⟨op, hop, hlen, hcont⟩ := exists_operation h
  have hvalid : ({ rb with lastOperation := op } : RingBuffer).Valid := ⟨h.1, h.2⟩
  rw [← hcont, ← hlen, getLen_eq hvalid hop]

theorem contents_eq_counted (h : rb.Valid) (hnew : ¬rb.Fresh) : rb.contents = rb.counted := by
  have hreadable : rb.readable = rb.getLen := by
    by_cases hop : rb.lastOperation = .na
    · have hne : rb.wOffset ≠ rb.rOffset := fun heq ↦ hnew ⟨hop, heq⟩
      rw [readable_of_ne h hne, getLen, if_neg (c := _ ∧ _) fun hread ↦ hne hread.2]
    · rw [getLen_eq h hop, length_contents h]
  rw [contents, counted, hreadable]

theorem contents_fresh (hnew : rb.Fresh) : rb.contents = [] := by
  have hreadable : rb.readable = 0 := by
    rw [readable, if_pos hnew.2, if_neg]
    rw [hnew.1]
    decide
  rw [contents, hreadable, List.take_zero]

theorem matchAt_iff_counted (h : rb.Valid) {i : ℕ} (hi : i + needle.length ≤ rb.getLen) :
    rb.matchAt needle i = true ↔ OccursAt needle rb.counted i := by
  obtain ⟨op, hop, hlen, hcont⟩ := exists_operation h
  have hvalid : ({ rb with lastOperation := op } : RingBuffer).Valid := ⟨h.1, h.2⟩
  have hcount := getLen_eq hvalid hop
  rw [length_contents hvalid] at hcount
  have hmatch := @matchAt_iff _ hvalid needle i (by omega)
  rw [hcont] at hmatch
  rw [OccursAt, length_counted h, and_iff_right hi]
  exact hmatch

theorem find_operation {op : Operation}
    (hlen : ({ rb with lastOperation := op } : RingBuffer).getLen = rb.getLen)
    (needle : List UInt8) :
    ({ rb with lastOperation := op } : RingBuffer).find needle = rb.find needle := by
  rw [find, find, hlen]
  rfl

theorem find_eq (h : rb.Valid) (needle : List UInt8) : rb.find needle =
    (offset? needle rb.counted).map fun i ↦ (rb.rOffset + i) % rb.size := by
  obtain ⟨op, hop, hlen, hcont⟩ := exists_operation h
  have hvalid : ({ rb with lastOperation := op } : RingBuffer).Valid := ⟨h.1, h.2⟩
  have hfind := find_contents hvalid hop needle
  rw [find_operation hlen, hcont] at hfind
  exact hfind

theorem get_needle_offset_counted (h : rb.Valid) (needle : List UInt8) :
    rb.get_needle_offset needle = offset? needle rb.counted := by
  obtain ⟨op, hop, hlen, hcont⟩ := exists_operation h
  have hvalid : ({ rb with lastOperation := op } : RingBuffer).Valid := ⟨h.1, h.2⟩
  have hget := get_needle_offset_eq hvalid hop needle
  rw [get_needle_offset, find_operation hlen, hcont] at hget
  exact hget

theorem findInt_eq (h : rb.Valid) (needle : List UInt8) :
    rb.Small needle ∧ rb.findInt needle = some (rb.find needle) ∨
      ¬rb.Small needle ∧ rb.findInt needle = none := by
  rw [findInt, find, Small, length_counted h]
  by_cases hlong : rb.getLen < needle.length
  · rw [if_pos hlong, if_pos hlong]
    exact .inl ⟨fun i hi ↦ by omega, rfl⟩
  rw [if_neg hlong, if_neg hlong]
  have hsmall : (∀ i, i + needle.length ≤ rb.getLen →
      (∀ j < i, ¬OccursAt needle rb.counted j) → rb.rOffset + i + needle.length < 2 ^ 31) ↔
      ∀ i, 0 ≤ i → i < 0 + (rb.getLen - needle.length + 1) →
        (∀ j, 0 ≤ j → j < i → rb.matchAt needle j = false) →
          rb.rOffset + i + needle.length < 2 ^ 31 := by
    refine forall_congr' fun i ↦ ?_
    rw [forall_prop_of_true (Nat.zero_le i)]
    have hbound : i + needle.length ≤ rb.getLen ↔ i < 0 + (rb.getLen - needle.length + 1) := by
      omega
    rw [← hbound]
    refine forall_congr' fun hi ↦ ?_
    have hbefore : (∀ j < i, ¬OccursAt needle rb.counted j) ↔
        ∀ j, 0 ≤ j → j < i → rb.matchAt needle j = false := by
      refine forall_congr' fun j ↦ ?_
      rw [forall_prop_of_true (Nat.zero_le j)]
      refine forall_congr' fun hj ↦ ?_
      rw [← matchAt_iff_counted h (by omega), Bool.not_eq_true]
    rw [hbefore]
  rw [hsmall, List.range_eq_range']
  exact findFrom_eq rb needle _ 0

/-- The buffer is found to hold what it holds, unless it is new and its memory happens to hold the
needle, or the places to look at are too many for a C integer. -/
theorem finds_first_iff (h : rb.Valid) (needle : List UInt8) : rb.FindsFirst needle ↔
    (rb.Fresh → needle ≠ [] → ∀ i, ¬OccursAt needle rb.counted i) ∧ rb.Small needle := by
  have hfirst := isFirst_offset? needle rb.counted
  rw [FindsFirst, get_needle_offset_counted h]
  constructor
  · rintro ⟨place, hplace, hfind, rfl⟩
    have hsmall : rb.Small needle := by
      rcases findInt_eq h needle with ⟨hsmall, -⟩ | ⟨-, hnone⟩
      · exact hsmall
      · rw [hnone] at hfind
        cases hfind
    refine ⟨fun hnew hne ↦ ?_, hsmall⟩
    rw [contents_fresh hnew] at hplace
    have hnowhere : offset? needle rb.counted = none := by
      cases hcase : offset? needle rb.counted with
      | none => rfl
      | some i =>
        rw [hcase] at hplace
        have hle := hplace.1.le
        have hpos := List.length_pos_iff.mpr hne
        rw [List.length_nil] at hle
        omega
    rwa [hnowhere] at hfirst
  · rintro ⟨hstale, hsmall⟩
    refine ⟨_, ?_, ?_, rfl⟩
    · by_cases hnew : rb.Fresh
      · rw [contents_fresh hnew]
        by_cases hnil : needle = []
        · subst hnil
          have hzero : IsFirst [] rb.counted (some 0) :=
            ⟨occursAt_nil.mpr (Nat.zero_le _), fun _ _ ↦ Nat.zero_le _⟩
          rw [hfirst.eq hzero]
          exact ⟨occursAt_nil.mpr le_rfl, fun _ _ ↦ Nat.zero_le _⟩
        · have hnone : IsFirst needle rb.counted none := hstale hnew hnil
          rw [hfirst.eq hnone]
          intro i hi
          have hle := hi.le
          have hpos := List.length_pos_iff.mpr hnil
          rw [List.length_nil] at hle
          omega
      · rw [contents_eq_counted h hnew]
        exact hfirst
    · rcases findInt_eq h needle with ⟨-, hfind⟩ | ⟨hnot, -⟩
      · rw [hfind, find_eq h]
      · exact absurd hsmall hnot

/-- Four bytes around the end of the memory, of which the middle two are looked for. -/
def wrapped : RingBuffer := ⟨[99, 100, 0, 0, 97, 98], 4, 2, .write⟩

theorem valid_wrapped : wrapped.Valid := ⟨by decide, by decide⟩

theorem finds_first_wrapped : wrapped.FindsFirst [98, 99] := by
  refine (finds_first_iff valid_wrapped [98, 99]).mpr ⟨fun hnew ↦ ?_, fun i hi _ ↦ ?_⟩
  · exact nomatch hnew.1
  · have hle : wrapped.counted.length = 4 := by decide
    have hr : wrapped.rOffset = 4 := rfl
    change i + 2 ≤ _ at hi
    change wrapped.rOffset + i + 2 < _
    omega

/-- The memory of a new buffer is searched although nothing was written. -/
theorem not_finds_first : ¬∀ (rb : RingBuffer) (needle : List UInt8), rb.Valid →
    rb.FindsFirst needle := by
  intro h
  obtain ⟨place, hplace, hfind, -⟩ := h (new [97]) [97] (valid_new (by decide))
  have hanswer : (new [97]).findInt [97] = some (some 0) := by decide
  rw [hanswer] at hfind
  cases place with
  | none => cases hfind
  | some i =>
    rw [contents_new] at hplace
    have hle := hplace.1.le
    exact absurd hle (by simp)

end RingBuffer

end Libobject
