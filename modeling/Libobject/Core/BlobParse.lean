import Libobject.Core.Blob
import Libobject.Lib.Digits
import Libobject.Lib.Machine
import Mathlib.Data.List.FinRange

/-!
# Parsing attributes of arbitrary bytes

The attributes of a table follow one another by the lengths they give themselves. Each is compared
with all names of a policy, as far as a name is long, and the slots of those that agree are set to
it. Nothing is said about slots that no attribute is compared equal with.
-/

namespace Libobject.Blob

/-- `blob_policy_t` -/
structure Policy where
  type : UInt8
  name : Text
  plain : 0 ∉ name

/-- A blob as it is received: its header, and as many bytes as the header says. -/
structure Received where
  bytes : List UInt8
  length_eq : bytes.length = max 5 (getLen bytes)

namespace Received

variable (r : Received)

/-- The length of the attribute at a place. -/
def lenAt (p : ℕ) : ℕ := getLen (r.bytes.drop p)

/-- Where the data of the blob begin. -/
def head : ℕ := 5 + getNameLen r.bytes

/-- Where the walk over the attributes ends. -/
def stop : ℕ := r.head + getDataLen r.bytes

end Received

/-- Whether `strncmp(s, name, strlen(name))` is zero; `none` where it reads behind the last byte. -/
def strncmp : List UInt8 → Text → Option Bool
  | _, [] => some true
  | [], _ :: _ => none
  | b :: s, c :: name => if b = c then strncmp s name else some false

/-- The walk: the place of the attribute and the slots, which are addresses or null. -/
structure Parsing (n : ℕ) where
  pos : ℕ
  tb : Fin n → Option ℕ

section Turn

variable {n : ℕ} (policy : Fin n → Policy) (base : ℕ) (r : Received)

/-- An attribute takes the slots of the names that it begins with. -/
def taken (p : ℕ) (i : Fin n) : Bool :=
  strncmp (r.bytes.drop (p + 5)) (policy i).name = some true

/-- All comparisons with the names end inside the blob. -/
def compared (p : ℕ) : Bool :=
  (List.finRange n).all fun i ↦ (strncmp (r.bytes.drop (p + 5)) (policy i).name).isSome

/-- One turn of `blob_parse_to_attr` over a blob that lies at `base`. -/
def parseTurn (s : Parsing n) : Move (Parsing n) (Fin n → Option ℕ) :=
  if s.pos < r.stop then
    if compared policy r s.pos ∧ s.pos + 3 ≤ r.bytes.length then
      .next ⟨s.pos + r.lenAt s.pos,
        fun i ↦ if taken policy r s.pos i then some (base + s.pos) else s.tb i⟩
    else .wild
  else .done s.tb

end Turn

/-! ## What parsing is for -/

namespace Received

/-- The places that the lengths of the attributes lead to. -/
inductive At (r : Received) : ℕ → Prop
  | head : At r r.head
  | next {p : ℕ} (hp : At r p) (hlt : p < r.bytes.length) : At r (p + r.lenAt p)

/-- There is a whole attribute of the policy's type and with just its name. -/
structure Proper (r : Received) (q : Policy) (p : ℕ) : Prop where
  type_eq : r.bytes[p]? = some q.type
  name_eq : q.name ++ [0] <+: r.bytes.drop (p + 5)
  room : 5 + (q.name.length + 1) ≤ r.lenAt p
  whole : p + r.lenAt p ≤ r.bytes.length

end Received

/-- A slot holds an attribute of its policy, or nothing where the blob has none. -/
def SlotRight (base : ℕ) (r : Received) (q : Policy) : Option ℕ → Prop
  | some a => ∃ p, a = base + p ∧ r.At p ∧ r.Proper q p
  | none => ∀ p, r.At p → ¬r.Proper q p

/-- The parser comes to an end inside the blob, and every slot is right. -/
def Parses {n : ℕ} (policy : Fin n → Policy) (base : ℕ) (r : Received) (tb : Fin n → Option ℕ) :
    Prop :=
  ∃ k tb', Machine.after (parseTurn policy base r) k ⟨r.head, tb⟩ = .done tb' ∧
    ∀ i, SlotRight base r (policy i) (tb' i)

/-- The walk goes through these places and comes to the end. -/
inductive Walk (r : Received) : ℕ → List ℕ → Prop
  | stop {p : ℕ} (h : r.stop ≤ p) : Walk r p []
  | step {p : ℕ} {ps : List ℕ} (h : p < r.stop) (hrest : Walk r (p + r.lenAt p) ps) :
      Walk r p (p :: ps)

section Walking

variable {n : ℕ} (policy : Fin n → Policy) (r : Received)

/-- The last attribute on the way that takes the slot. -/
def lastTaken (ps : List ℕ) (i : Fin n) : Option ℕ := ps.reverse.find? fun p ↦ taken policy r p i

/-- What can be read at a place. -/
def Readable (p : ℕ) : Prop := compared policy r p ∧ p + 3 ≤ r.bytes.length

/-- The lengths lead to the end through places that can be read, and the last attribute that takes a
slot is one for it; where there is none the slot has been empty before. -/
def Parseable (tb : Fin n → Option ℕ) : Prop :=
  ∃ ps, Walk r r.head ps ∧ (∀ p ∈ ps, Readable policy r p) ∧
    ∀ i, match lastTaken policy r ps i with
      | some p => r.Proper (policy i) p
      | none => tb i = none

variable {policy r}

theorem lastTaken_cons (p : ℕ) (ps : List ℕ) (i : Fin n) :
    lastTaken policy r (p :: ps) i =
      (lastTaken policy r ps i).or (if taken policy r p i then some p else none) := by
  rw [lastTaken, List.reverse_cons, List.find?_append, List.find?_singleton]
  rfl

theorem lastTaken_some {ps : List ℕ} {i : Fin n} {p : ℕ} (h : lastTaken policy r ps i = some p) :
    p ∈ ps ∧ taken policy r p i := by
  refine ⟨List.mem_reverse.mp (List.mem_of_find?_eq_some h), ?_⟩
  simpa using List.find?_some h

theorem lastTaken_none {ps : List ℕ} {i : Fin n} (h : lastTaken policy r ps i = none) :
    ∀ p ∈ ps, ¬taken policy r p i := by
  intro p hp
  simpa using List.find?_eq_none.mp h p (List.mem_reverse.mpr hp)

theorem parseTurn_cases (policy : Fin n → Policy) (base : ℕ) (r : Received) (s : Parsing n) :
    (r.stop ≤ s.pos ∧ parseTurn policy base r s = .done s.tb) ∨
    (s.pos < r.stop ∧ Readable policy r s.pos ∧ parseTurn policy base r s =
      .next ⟨s.pos + r.lenAt s.pos,
        fun i ↦ if taken policy r s.pos i then some (base + s.pos) else s.tb i⟩) ∨
    (s.pos < r.stop ∧ ¬Readable policy r s.pos ∧ parseTurn policy base r s = .wild) := by
  rw [parseTurn]
  split_ifs with hp hread
  · exact .inr (.inl ⟨hp, hread, rfl⟩)
  · exact .inr (.inr ⟨hp, hread, rfl⟩)
  · exact .inl ⟨not_lt.mp hp, rfl⟩

theorem after_eq_done {base : ℕ} {k : ℕ} {s : Parsing n} {tb' : Fin n → Option ℕ}
    (h : Machine.after (parseTurn policy base r) k s = .done tb') :
    ∃ ps, Walk r s.pos ps ∧ (∀ p ∈ ps, Readable policy r p) ∧
      ∀ i, tb' i = ((lastTaken policy r ps i).map (base + ·)).or (s.tb i) := by
  induction k generalizing s with
  | zero => cases h
  | succ k ih =>
    rw [Machine.after] at h
    rcases parseTurn_cases policy base r s with
      ⟨hle, hturn⟩ | ⟨hlt, hread, hturn⟩ | ⟨-, -, hturn⟩
    · rw [hturn] at h
      obtain rfl := Move.done.inj h
      exact ⟨[], .stop hle, by simp, fun i ↦ rfl⟩
    · rw [hturn] at h
      obtain ⟨ps, hwalk, hreads, htb⟩ := ih h
      refine ⟨s.pos :: ps, .step hlt hwalk, ?_, fun i ↦ ?_⟩
      · intro q hq
        rcases List.mem_cons.mp hq with rfl | hq
        · exact hread
        · exact hreads q hq
      · rw [htb, lastTaken_cons]
        cases lastTaken policy r ps i with
        | some q => rfl
        | none => by_cases htaken : taken policy r s.pos i <;> simp [htaken]
    · rw [hturn] at h
      cases h

theorem exists_after (base : ℕ) {p : ℕ} {ps : List ℕ} (hwalk : Walk r p ps)
    (hreads : ∀ p ∈ ps, Readable policy r p) (tb : Fin n → Option ℕ) :
    ∃ k tb', Machine.after (parseTurn policy base r) k ⟨p, tb⟩ = .done tb' := by
  induction hwalk generalizing tb with
  | @stop p hp =>
    rcases parseTurn_cases policy base r ⟨p, tb⟩ with
      ⟨-, hturn⟩ | ⟨hlt, -, -⟩ | ⟨hlt, -, -⟩
    · exact ⟨1, tb, by rw [Machine.after, hturn]⟩
    · exact absurd hp (not_le.mpr hlt)
    · exact absurd hp (not_le.mpr hlt)
  | @step p ps hp hrest ih =>
    rcases parseTurn_cases policy base r ⟨p, tb⟩ with
      ⟨hle, -⟩ | ⟨-, -, hturn⟩ | ⟨-, hread, -⟩
    · exact absurd hle (not_le.mpr hp)
    · obtain ⟨k, tb', hk⟩ := ih (fun q hq ↦ hreads q (List.mem_cons_of_mem p hq)) _
      exact ⟨k + 1, tb', (Machine.after_succ_of_next hturn k).trans hk⟩
    · exact absurd (hreads p List.mem_cons_self) hread

end Walking

/-! ## The places on the way -/

namespace Walk

variable {r : Received} {p : ℕ} {ps : List ℕ}

theorem unique (h : Walk r p ps) {ps' : List ℕ} (h' : Walk r p ps') : ps = ps' := by
  induction h generalizing ps' with
  | stop hle =>
    cases h' with
    | stop _ => rfl
    | step hlt _ => omega
  | @step p ps hlt hrest ih =>
    cases h' with
    | stop hle => omega
    | step _ hrest' => rw [ih hrest']

theorem head_mem (h : Walk r p ps) (hp : p < r.stop) : p ∈ ps := by
  cases h with
  | stop hle => omega
  | step _ _ => exact List.mem_cons_self

theorem next_mem (h : Walk r p ps) {q : ℕ} (hq : q ∈ ps) (hlt : q + r.lenAt q < r.stop) :
    q + r.lenAt q ∈ ps := by
  induction h with
  | stop _ => cases hq
  | @step p ps hp hrest ih =>
    rcases List.mem_cons.mp hq with rfl | hq
    · exact List.mem_cons_of_mem _ (hrest.head_mem hlt)
    · exact List.mem_cons_of_mem p (ih hq)

theorem at_mem (h : Walk r p ps) (hp : r.At p) (hin : ∀ q ∈ ps, q < r.bytes.length) :
    ∀ q ∈ ps, r.At q := by
  induction h with
  | stop _ => simp
  | @step p ps _ _ ih =>
    intro q hq
    rcases List.mem_cons.mp hq with rfl | hq
    · exact hp
    · exact ih (.next hp (hin p List.mem_cons_self))
        (fun q hq ↦ hin q (List.mem_cons_of_mem p hq)) q hq

theorem mem_of_at (h : Walk r r.head ps) {q : ℕ} (hq : r.At q) (hlt : q < r.stop) : q ∈ ps := by
  induction hq with
  | head => exact h.head_mem hlt
  | @next p _ _ ih => exact h.next_mem (ih (by omega)) hlt

end Walk

namespace Received

variable {r : Received} {q : Policy} {p : ℕ}

theorem At.head_le (h : r.At p) : r.head ≤ p := by
  induction h with
  | head => exact Nat.le_refl _
  | next _ _ ih => omega

theorem Proper.lt_length (h : r.Proper q p) : p < r.bytes.length := by
  have hroom := h.room
  have hwhole := h.whole
  omega

theorem getLen_lt (bs : List UInt8) : getLen bs < 65536 := by
  have hlen : (field bs 1 2).reverse.length ≤ 2 := by simp [field]
  calc
    getLen bs < 256 ^ (field bs 1 2).reverse.length := leNat_lt _
    _ ≤ 256 ^ 2 := Nat.pow_le_pow_right (by decide) hlen

theorem length_le_stop (h : r.head < r.bytes.length) : r.bytes.length ≤ r.stop := by
  have hlen := r.length_eq
  have hlt := getLen_lt r.bytes
  have hhead : 5 ≤ r.head := Nat.le_add_right 5 _
  have hmod : (5 + getNameLen r.bytes) % 256 ≤ r.head := Nat.mod_le _ _
  have hmax : r.bytes.length = getLen r.bytes := by omega
  rw [stop, getDataLen]
  omega

theorem At.lt_stop (h : r.At p) (hq : r.Proper q p) : p < r.stop := by
  have hle := h.head_le
  have hlt := hq.lt_length
  exact Nat.lt_of_lt_of_le hlt (length_le_stop (by omega))

end Received

theorem strncmp_append (name : Text) (rest : List UInt8) :
    strncmp (name ++ rest) name = some true := by
  induction name with
  | nil => cases rest <;> rfl
  | cons c name ih => rw [List.cons_append, strncmp, if_pos rfl, ih]

theorem Received.Proper.taken {n : ℕ} {policy : Fin n → Policy} {r : Received} {i : Fin n} {p : ℕ}
    (h : r.Proper (policy i) p) : taken policy r p i := by
  obtain ⟨rest, hrest⟩ := h.name_eq
  rw [Blob.taken, ← hrest, List.append_assoc, strncmp_append]
  rfl

/-- A blob is parsed as it should where the last attributes on the way are the right ones, and
only there. -/
theorem parses_iff {n : ℕ} (policy : Fin n → Policy) (base : ℕ) (r : Received)
    (tb : Fin n → Option ℕ) : Parses policy base r tb ↔ Parseable policy r tb := by
  constructor
  · rintro ⟨k, tb', hdone, hright⟩
    obtain ⟨ps, hwalk, hreads, htb⟩ := after_eq_done hdone
    refine ⟨ps, hwalk, hreads, fun i ↦ ?_⟩
    have hslot := hright i
    rw [htb] at hslot
    cases hlast : lastTaken policy r ps i with
    | some p =>
      rw [hlast] at hslot
      obtain ⟨p', hp', -, hproper⟩ := hslot
      obtain rfl : p = p' := Nat.add_left_cancel hp'
      exact hproper
    | none =>
      rw [hlast] at hslot
      have hold : SlotRight base r (policy i) (tb i) := hslot
      show tb i = none
      cases htb : tb i with
      | none => rfl
      | some a =>
        rw [htb] at hold
        obtain ⟨p, -, hat, hproper⟩ := hold
        have hmem := hwalk.mem_of_at hat (hat.lt_stop hproper)
        exact absurd hproper.taken (lastTaken_none hlast p hmem)
  · rintro ⟨ps, hwalk, hreads, hlast⟩
    obtain ⟨k, tb', hdone⟩ := exists_after base hwalk hreads tb
    obtain ⟨ps', hwalk', -, htb⟩ := after_eq_done hdone
    obtain rfl := hwalk.unique hwalk'
    have hin : ∀ p ∈ ps, p < r.bytes.length := fun p hp ↦ by
      have hread := (hreads p hp).2
      omega
    refine ⟨k, tb', hdone, fun i ↦ ?_⟩
    have hi := hlast i
    rw [htb]
    cases htaken : lastTaken policy r ps i with
    | some p =>
      rw [htaken] at hi
      exact ⟨p, rfl, hwalk.at_mem .head hin p (lastTaken_some htaken).1, hi⟩
    | none =>
      rw [htaken] at hi
      have hempty : tb i = none := hi
      show SlotRight base r (policy i) (tb i)
      rw [hempty]
      intro p hat hproper
      have hmem := hwalk.mem_of_at hat (hat.lt_stop hproper)
      exact lastTaken_none htaken p hmem hproper.taken

/-- The policy asks for a string `a`. -/
def asksA (_ : Fin 1) : Policy := ⟨3, [97], by decide⟩

/-- A table with a string `ab`. -/
def hasAB : Received where
  bytes := [2, 0, 14, 0, 1, 0, 3, 0, 8, 0, 3, 97, 98, 0]
  length_eq := by decide

/-- The slot of `a` is set to the attribute `ab`. -/
theorem not_parses : ¬Parses asksA 100 hasAB fun _ ↦ none := by
  rintro ⟨k, tb', hdone, hright⟩
  obtain ⟨ps, hwalk, -, htb⟩ := after_eq_done hdone
  have hway : Walk hasAB hasAB.head [6] := .step (by decide) (.stop (by decide))
  obtain rfl := hwalk.unique hway
  have hlast : lastTaken asksA hasAB [6] 0 = some 6 := by decide
  have hset : tb' 0 = some 106 := by rw [htb, hlast]; rfl
  have hslot := hright 0
  rw [hset] at hslot
  obtain ⟨p, hp, -, hproper⟩ := hslot
  obtain rfl : p = 6 := by omega
  exact absurd hproper.name_eq (by decide)

end Libobject.Blob
