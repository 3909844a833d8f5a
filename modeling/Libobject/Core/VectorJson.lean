import Libobject.Core.String
import Libobject.Core.VectorMove
import Libobject.Lib.Occurs

/-!
# Vectors from a JSON text and back

A text may name the class of its elements in front of the array. An element of the array is kept as
an address: a number is made one, so that zero is an empty slot, and a string or an object is the
address of a new one. Of which kind the elements are is told once, by the last of them.
-/

namespace Libobject.VectorJson

open Scan

/-- What `cjson_parse` makes; `D` are the doubles. -/
inductive Json (D : Type)
  | null
  | bool (b : Bool)
  | number (valuedouble : D)
  | string (valuestring : CText)
  | array (child : List (Json D))
  | object (child : List (CText × Json D))

/-- `valueint` is what `toInt` makes of a number; `ofInt` is a conversion from at most 32 bits. -/
structure Cjson (D : Type) where
  ofInt : ℤ → D
  toInt : D → BitVec 32
  toInt_ofInt : ∀ n : BitVec 32, toInt (ofInt n.toInt) = n
  print : Json D → CText
  parse : Text → Option (Json D)

/-- The classes of objects, and what a class, or the vector where it has none, knows of structs. -/
structure Classes (D O S : Type) where
  object_new : Text → CText → Option O
  to_json : O → Option Text
  new_method : Option Text → Option (List (CText × Json D) → Option S)
  struct_to_json : Option Text → Option (Option S → Option (List (Json D)))

/-- What an address that is not null is. -/
inductive Cell (O S : Type)
  | word (w : BitVec 64)
  | string (s : Str)
  | object (e : O)
  | struct (s : S)

/-- What is to be done with an element of the array. -/
inductive Turn (O S : Type)
  | add (data : Option (Cell O S)) (value_type : ValueType)
  | pass
  | throw

structure Assigned (O S : Type) where
  object : VectorObject (Cell O S)
  ret : ℤ

/-- The length of `object_name`. -/
def OBJECT_NAME_LEN : ℕ := 20

def pointer {O S : Type} (valueint : BitVec 32) : Option (Cell O S) :=
  let w := valueint.signExtend 64
  if w = 0 then none else some (.word w)

def elements {D : Type} : Json D → List (Json D)
  | .array child => child
  | c => [c]

section Code

variable {D O S : Type} (cj : Cjson D) (cls : Classes D O S)

/-- `none` where a string is too long. -/
def turn (o : VectorObject (Cell O S)) (c : Json D) : Option (Turn O S) :=
  match c with
  | .number d => some (.add (pointer (cj.toInt d)) .int32_t)
  | .string s => (Str.init.assign s.1).map fun s ↦ .add (some (.string s)) .string_pointer
  | .object child =>
    if o.value_type = .struct_pointer then
      match (cls.new_method o.class_name).bind fun new_method ↦ new_method child with
      | none => some .throw
      | some s => some (.add (some (.struct s)) .struct_pointer)
    else
      match o.class_name.bind fun name ↦ cls.object_new name (cj.print c) with
      | none => some .throw
      | some e => some (.add (some (.object e)) .obj_pointer)
  | _ => some .pass

/-- The loop over the elements, with the type of those before. -/
def assignFrom (o : VectorObject (Cell O S)) (value_type : ValueType) :
    List (Json D) → Option (Assigned O S)
  | [] => some ⟨{ o with trustee_flag := 1, value_type := value_type }, 1⟩
  | c :: cs => do
    match ← turn cj cls o c with
    | .add data ty => do
      let v ← o.vector.add_back data
      assignFrom { o with vector := v } ty cs
    | .pass => assignFrom o value_type cs
    | .throw => return ⟨o, -1⟩

/-- A text that cannot be parsed is not noticed. -/
def assignJson (o : VectorObject (Cell O S)) (json : Text) : Option (Assigned O S) :=
  (cj.parse json).bind fun c ↦ assignFrom cj cls o .undefined (elements c)

/-- `__assign`. `none` where the name does not fit or is not ended, and where there is no colon. -/
def assign (o : VectorObject (Cell O S)) (value : Text) : Option (Assigned O S) :=
  match value with
  | 91 :: _ => assignJson cj cls o value
  | 40 :: rest =>
    if 41 ∈ rest then
      let name := rest.takeWhile (· ≠ 41)
      if OBJECT_NAME_LEN ≤ name.length then none
      else if 58 ∈ rest then
        assignJson cj cls { o with class_name := some name } (rest.dropWhile (· ≠ 58)).tail
      else none
    else some ⟨o, -1⟩
  | _ => some ⟨o, -1⟩

/-- The number that an address is. -/
def numberOf : Option (Cell O S) → Option (BitVec 64)
  | none => some 0
  | some (.word w) => some w
  | some _ => none

/-- The items that the policy of the type adds for an element, if it succeeds; a type without a
policy adds none. `none` where the address is not of the type, where a float is read through it, and
where the address `-1` is returned. -/
def policy (o : VectorObject (Cell O S)) (element : Option (Cell O S)) :
    Option (Option (List (Json D))) :=
  let number (f : BitVec 64 → ℤ) := (numberOf element).map fun w ↦ some [.number (cj.ofInt (f w))]
  match o.value_type with
  | .int8_t => number fun w ↦ (w.setWidth 8).toInt
  | .uint8_t => number fun w ↦ (w.setWidth 8).toNat
  | .int16_t => number fun w ↦ (w.setWidth 16).toInt
  | .uint16_t => number fun w ↦ (w.setWidth 16).toNat
  | .int32_t => number fun w ↦ (w.setWidth 32).toInt
  | .uint32_t => number fun w ↦ (w.setWidth 32).toNat
  | .float_t => none
  | .string_pointer =>
    match element with
    | none => some (some [])
    | some (.string s) => some (some [.string ⟨cString s.value, notMem_cString s.value⟩])
    | some _ => none
  | .obj_pointer =>
    match element with
    | none => some (some [])
    | some (.object e) => some (some ((cls.to_json e).bind cj.parse).toList)
    | some _ => none
  | .struct_pointer =>
    match cls.struct_to_json o.class_name, element with
    | none, _ => if o.class_name.isSome then none else some (some [])
    | some f, none => some (f none)
    | some f, some (.struct s) => some (f (some s))
    | some _, some _ => none
  | _ => some (some [])

/-- The loop of `__to_json` from slot `i` on, with `n` turns to go. -/
def itemsFrom (o : VectorObject (Cell O S)) :
    ℕ → ℕ → List (Json D) → Option (Option (List (Json D)))
  | 0, _, root => some (some root)
  | n + 1, i, root => do
    let (_, element) ← o.vector.peek_at (BitVec.ofNat 32 i)
    match ← policy cj cls o element with
    | none => return none
    | some items => itemsFrom o n (i + 1) (root ++ items)

/-- `__to_json`; every `ValueType` is below `ENTRY_TYPE_MAX_TYPE`. -/
def to_json (o : VectorObject (Cell O S)) : Option (Option Text) := do
  match ← itemsFrom cj cls o o.vector.end_pos 0 [] with
  | none => return none
  | some root => do
    let json ← Str.init.assign (cj.print (.array root)).1
    return some (cString json.value)

end Code

/-- A new vector whose class may have been set. -/
def fresh {O S : Type} (class_name : Option Text) : VectorObject (Cell O S) :=
  ⟨PtrVector.init 0, 0, .undefined, class_name, false⟩

/-- A JSON text with or without the class of the elements in front of it. -/
inductive Form : Text → Option Text → Text → Prop
  | plain {json : Text} : json.head? = some 91 → Form json none json
  | named {name json : Text} : 41 ∉ name → 58 ∉ name →
      Form (40 :: (name ++ 41 :: 58 :: json)) (some name) json

/-- What is taken for the name and for the JSON text: that behind the first colon, wherever it is.
-/
inductive Reads : Text → Option Text → Text → Prop
  | plain {json : Text} : json.head? = some 91 → Reads json none json
  | named {rest name tail before json : Text} : rest = name ++ 41 :: tail → 41 ∉ name →
      rest = before ++ 58 :: json → 58 ∉ before → Reads (40 :: rest) (some name) json

def LongName (name : Option Text) : Prop := ∃ n, name = some n ∧ OBJECT_NAME_LEN ≤ n.length

/-- A `String` can be given the text. -/
def Short (t : Text) : Prop := t.length < 1073741823

/-- What a vector can hold at most: its array cannot be doubled once more. -/
def MAX_SLOTS : ℕ := 335544320

section Spec

variable {D O S : Type} (cj : Cjson D) (cls : Classes D O S) (class_name : Option Text)

/-- An object that cannot be made. -/
def Refused (c : Json D) : Prop :=
  ∃ child, c = .object child ∧
    class_name.bind (fun name ↦ cls.object_new name (cj.print c)) = none

/-- An object of the class that is made from its text and gives it back. -/
def RoundTrips (c : Json D) : Prop :=
  ∃ child e, c = .object child ∧
    class_name.bind (fun name ↦ cls.object_new name (cj.print c)) = some e ∧
    (cls.to_json e).bind cj.parse = some c

def Supported (c : Json D) : Prop :=
  (∃ n : BitVec 32, c = .number (cj.ofInt n.toInt)) ∨ (∃ s, c = .string s) ∨
    ∃ child, c = .object child ∧ ¬ Refused cj cls class_name c

/-- All integers, all strings, or all objects of the class. -/
def Uniform (cs : List (Json D)) : Prop :=
  (∀ c ∈ cs, ∃ n : BitVec 32, c = .number (cj.ofInt n.toInt)) ∨ (∀ c ∈ cs, ∃ s, c = .string s) ∨
    ∀ c ∈ cs, RoundTrips cj cls class_name c

/-- The text is malformed, has a name that is too long, or has an element that is not supported. -/
def Faulty (value : Text) : Prop :=
  ∀ name json, Form value name json → ¬ LongName name → ∀ c, cj.parse json = some c →
    ∃ e ∈ elements c, ¬ Supported cj cls (name.or class_name) e

/-- An error for a text that is faulty; an array of one kind succeeds and is printed again. -/
structure Meets (value : Text) : Prop where
  fails : Faulty cj cls class_name value →
    ∃ r, assign cj cls (fresh class_name) value = some r ∧ r.ret < 0
  prints : ∀ name json cs, Form value name json → ¬ LongName name →
    cj.parse json = some (.array cs) → Uniform cj cls (name.or class_name) cs →
    ∃ r, assign cj cls (fresh class_name) value = some r ∧ 0 ≤ r.ret ∧
      to_json cj cls r.object = some (some (cj.print (.array cs)).1)

def isKept : Json D → Bool
  | .number _ | .string _ | .object _ => true
  | _ => false

/-- The loop goes on behind the element. -/
def Passes (c : Json D) : Prop := ¬ Refused cj cls class_name c ∧ ∀ s, c = .string s → Short s.1

/-- An object that cannot be made is met. -/
def Stops (cs : List (Json D)) : Prop :=
  ∃ before c after, cs = before ++ c :: after ∧ (∀ b ∈ before, Passes cj cls class_name b) ∧
    before.countP isKept ≤ MAX_SLOTS ∧ Refused cj cls class_name c

def Fits (cs : List (Json D)) : Prop :=
  cs.length ≤ MAX_SLOTS ∧ (∀ s, .string s ∈ cs → Short s.1) ∧ Short (cj.print (.array cs)).1

/-- Neither a bracket nor a parenthesis that is closed comes first; or the name fits, there is a
JSON text behind the colon, and either an object in it cannot be made, or all is as it should be and
of a length that the vector and its strings can have. -/
def Served (value : Text) : Prop :=
  value.head? ≠ some 91 ∧ value.head? ≠ some 40 ∨
    (∃ rest, value = 40 :: rest ∧ 41 ∉ rest) ∨
    ∃ name json c, Reads value name json ∧ ¬ LongName name ∧ cj.parse json = some c ∧
      (Stops cj cls (name.or class_name) (elements c) ∨
        Form value name json ∧ (∀ e ∈ elements c, Supported cj cls (name.or class_name) e) ∧
          ∀ cs, c = .array cs → Uniform cj cls (name.or class_name) cs → Fits cj cs)

end Spec

/-! ## The room of a new vector -/

theorem roomFor_iff {n k len : ℕ} (hk : k ≤ 24) (hlen : len ≤ 20 * 2 ^ k) :
    VectorObject.RoomFor (20 * 2 ^ k) len n ↔ len + n ≤ MAX_SLOTS := by
  have hle : 20 * 2 ^ k ≤ MAX_SLOTS :=
    Nat.mul_le_mul_left 20 (Nat.pow_le_pow_right (by decide) hk)
  induction n generalizing k len with
  | zero => exact iff_of_true trivial (hlen.trans hle)
  | succ n ih =>
    rw [VectorObject.RoomFor, ← Nat.add_assoc, Nat.add_right_comm]
    split_ifs with hlt
    · exact ih hk hlt hle
    · have hdouble : 2 * (20 * 2 ^ k) = 20 * 2 ^ (k + 1) := by
        rw [pow_succ]
        omega
      have hpos : 1 ≤ 2 ^ k := Nat.one_le_two_pow
      rcases hk.eq_or_lt with rfl | hlt'
      · refine iff_of_false (fun h ↦ ?_) ?_
        · exact absurd h.1 (by decide)
        · rw [MAX_SLOTS]
          omega
      · have hle' : 20 * 2 ^ (k + 1) ≤ MAX_SLOTS :=
          Nat.mul_le_mul_left 20 (Nat.pow_le_pow_right (by decide) hlt')
        have hfits : 20 * 2 ^ (k + 1) * 8 < 4294967296 := by
          rw [MAX_SLOTS] at hle'
          omega
        have hin : len + 1 ≤ 20 * 2 ^ (k + 1) := by
          rw [← hdouble]
          omega
        have hnext : VectorObject.RoomFor (20 * 2 ^ (k + 1)) (len + 1) n ↔
            len + 1 + n ≤ MAX_SLOTS :=
          ih hlt' hin hle'
        rw [hdouble, hnext]
        exact and_iff_right hfits

/-! ## The elements -/

theorem init_assign {s : CText} (h : Short s.1) :
    ∃ str, Str.init.assign s.1 = some str ∧ cString str.value = s.1 := by
  have hroom : Str.Room Str.init.value_max_len Str.init.value_len s.1.length s.1.length := by
    refine .inl ⟨?_, ?_⟩
    · rw [Str.value_max_len, Str.init, List.length_replicate]
      decide
    · have hzero : Str.init.value_len = 0 := rfl
      rw [Short] at h
      omega
  obtain ⟨str, hassign, hstr⟩ := Str.holds_init.assign s hroom
  obtain ⟨rest, hrest⟩ := hstr.value_eq
  exact ⟨str, hassign, by rw [hrest, cString_append s.2]⟩

theorem not_init_assign {s : Text} (h : ¬ Short s) : Str.init.assign s = none := by
  have hmax : Str.init.value_max_len = 256 := by
    rw [Str.value_max_len, Str.init, List.length_replicate]
  rw [Short] at h
  have hroom : Str.roomFor 256 0 s.length = 2 * (0 + s.length + 1) := if_pos (by omega)
  have hmodulate : Str.init.modulate_capacity s.length = none := by
    have hzero : Str.init.value_len = 0 := rfl
    simp only [Str.modulate_capacity, hmax, hzero, hroom]
    rw [if_neg (by omega), if_neg (by omega)]
  rw [Str.assign, hmodulate]
  rfl

theorem numberOf_pointer {O S : Type} (n : BitVec 32) :
    numberOf (pointer n : Option (Cell O S)) = some (n.signExtend 64) := by
  rw [pointer]
  split_ifs with h
  · rw [h]
    rfl
  · rfl

theorem setWidth_signExtend (n : BitVec 32) : (n.signExtend 64).setWidth 32 = n := by
  apply BitVec.eq_of_getLsbD_eq
  intro i hi
  simp [BitVec.getLsbD_signExtend, hi]
  omega

section Turns

variable {D O S : Type} {cj : Cjson D} {cls : Classes D O S} {class_name : Option Text}

theorem turn_refused {o : VectorObject (Cell O S)} (ho : o.value_type ≠ .struct_pointer)
    {c : Json D} (h : Refused cj cls o.class_name c) : turn cj cls o c = some .throw := by
  obtain ⟨child, rfl, hnone⟩ := h
  simp only [turn, if_neg ho, hnone]

theorem not_turn {o : VectorObject (Cell O S)} {c : Json D}
    (h : ¬ Passes cj cls o.class_name c) (hnot : ¬ Refused cj cls o.class_name c) :
    turn cj cls o c = none := by
  have hlong : ∃ s, c = .string s ∧ ¬ Short s.1 := by
    by_contra hshort
    exact h ⟨hnot, fun s hs ↦ by_contra fun hlong ↦ hshort ⟨s, hs, hlong⟩⟩
  obtain ⟨s, rfl, hlong⟩ := hlong
  rw [turn, not_init_assign hlong, Option.map_none]

/-- The slots that are taken. -/
def Turn.slots : Turn O S → List (Option (Cell O S))
  | .add data _ => [data]
  | _ => []

/-- The type of the elements so far. -/
def Turn.after (value_type : ValueType) : Turn O S → ValueType
  | .add _ ty => ty
  | _ => value_type

theorem turn_passes {o : VectorObject (Cell O S)} (ho : o.value_type ≠ .struct_pointer)
    {c : Json D} (h : Passes cj cls o.class_name c) :
    ∃ t, turn cj cls o c = some t ∧ t ≠ .throw ∧ t.slots.length = if isKept c then 1 else 0 := by
  cases c with
  | number d => exact ⟨_, rfl, nofun, rfl⟩
  | string s =>
    obtain ⟨str, hassign, -⟩ := init_assign (h.2 s rfl)
    refine ⟨.add (some (.string str)) .string_pointer, ?_, nofun, rfl⟩
    rw [turn, hassign, Option.map_some]
  | object child =>
    cases hnew : o.class_name.bind fun name ↦ cls.object_new name (cj.print (.object child)) with
    | none => exact absurd ⟨child, rfl, hnew⟩ h.1
    | some e =>
      refine ⟨.add (some (.object e)) .obj_pointer, ?_, nofun, rfl⟩
      simp only [turn, if_neg ho, hnew]
  | null | bool _ | array _ => exact ⟨.pass, rfl, nofun, rfl⟩

theorem turns_of_passes {o : VectorObject (Cell O S)} (ho : o.value_type ≠ .struct_pointer)
    {cs : List (Json D)} (h : ∀ c ∈ cs, Passes cj cls o.class_name c) :
    ∃ ts, List.Forall₂ (fun c t ↦ turn cj cls o c = some t) cs ts ∧ (∀ t ∈ ts, t ≠ .throw) ∧
      (ts.flatMap Turn.slots).length = cs.countP isKept := by
  induction cs with
  | nil => exact ⟨[], .nil, fun _ h ↦ absurd h List.not_mem_nil, rfl⟩
  | cons c cs ih =>
    rw [List.forall_mem_cons] at h
    obtain ⟨t, ht, hgo, hslots⟩ := turn_passes ho h.1
    obtain ⟨ts, hts, hall, hlen⟩ := ih h.2
    refine ⟨t :: ts, .cons ht hts, List.forall_mem_cons.mpr ⟨hgo, hall⟩, ?_⟩
    rw [List.flatMap_cons, List.length_append, hslots, hlen, List.countP_cons, Nat.add_comm]

theorem assignFrom_append {o : VectorObject (Cell O S)} (ho : o.vector.Sound)
    {before : List (Json D)} {ts : List (Turn O S)}
    (hts : List.Forall₂ (fun b t ↦ turn cj cls o b = some t) before ts)
    (hgo : ∀ t ∈ ts, t ≠ .throw) (ty : ValueType) (after : List (Json D)) :
    (VectorObject.RoomFor o.vector.capacity o.vector.end_pos (ts.flatMap Turn.slots).length →
        ∃ v : PtrVector (Cell O S), v.Sound ∧
          v.slots.take v.end_pos =
            o.vector.slots.take o.vector.end_pos ++ ts.flatMap Turn.slots ∧
          assignFrom cj cls o ty (before ++ after) =
            assignFrom cj cls { o with vector := v } (ts.foldl Turn.after ty) after) ∧
      (¬ VectorObject.RoomFor o.vector.capacity o.vector.end_pos
          (ts.flatMap Turn.slots).length →
        assignFrom cj cls o ty (before ++ after) = none) := by
  induction before generalizing o ts ty with
  | nil =>
    cases hts
    exact ⟨fun _ ↦ ⟨o.vector, ho, (List.append_nil _).symm, rfl⟩, fun h ↦ absurd trivial h⟩
  | cons b before ih =>
    obtain ⟨t, ts, ht, hrest, rfl⟩ := List.forall₂_cons_left_iff.mp hts
    rw [List.forall_mem_cons] at hgo
    rw [List.cons_append, assignFrom, ht]
    cases t with
    | throw => exact absurd rfl hgo.1
    | pass => exact ih ho hrest hgo.2 ty
    | add data kind =>
      rw [List.flatMap_cons, List.length_append, Turn.slots, List.length_singleton,
        Nat.add_comm, VectorObject.roomFor_succ]
      by_cases hroom : o.vector.end_pos < o.vector.capacity ∨ o.vector.Room
      · obtain ⟨v, hadd, hv, hshow, hend, hcapacity⟩ := ho.add_back data hroom
        obtain ⟨hfits, hwild⟩ := ih (o := { o with vector := v }) hv hrest hgo.2 kind
        simp only [Option.bind_eq_bind, Option.bind_some, hadd]
        dsimp only at hfits hwild
        rw [hshow, hend, hcapacity] at hfits
        rw [hend, hcapacity] at hwild
        constructor
        · intro h
          obtain ⟨w, hw, hslots, hback⟩ := hfits h.2
          refine ⟨w, hw, ?_, hback⟩
          rw [hslots, List.append_assoc]
        · exact fun h ↦ hwild fun hrest ↦ h ⟨hroom, hrest⟩
      · have hnone := ho.not_add_back data hroom
        simp only [Option.bind_eq_bind, Option.bind_some, hnone, Option.bind_none]
        exact ⟨fun h ↦ absurd h.1 hroom, fun _ ↦ trivial⟩

/-- The array of a new vector. -/
structure New (o : VectorObject (Cell O S)) : Prop where
  sound : o.vector.Sound
  capacity_eq : o.vector.capacity = 20
  end_eq : o.vector.end_pos = 0
  type_ne : o.value_type ≠ .struct_pointer

theorem new_fresh (class_name : Option Text) :
    New (fresh class_name : VectorObject (Cell O S)) where
  sound := (PtrVector.holds_init (by decide)).sound
  capacity_eq := rfl
  end_eq := rfl
  type_ne := nofun

theorem New.roomFor_iff {o : VectorObject (Cell O S)} (ho : New o) {n : ℕ} :
    VectorObject.RoomFor o.vector.capacity o.vector.end_pos n ↔ n ≤ MAX_SLOTS := by
  rw [ho.capacity_eq, ho.end_eq]
  have hroom : VectorObject.RoomFor (20 * 2 ^ 0) 0 n ↔ 0 + n ≤ MAX_SLOTS :=
    VectorJson.roomFor_iff (Nat.zero_le 24) (Nat.zero_le _)
  rwa [Nat.zero_add] at hroom

theorem New.fails_iff {o : VectorObject (Cell O S)} (ho : New o) (ty : ValueType)
    (cs : List (Json D)) :
    (∃ r, assignFrom cj cls o ty cs = some r ∧ r.ret < 0) ↔ Stops cj cls o.class_name cs := by
  constructor
  · rintro ⟨r, hr, hret⟩
    rcases none_or_first (fun c ↦ ¬ Passes cj cls o.class_name c) cs with
      hall | ⟨before, c, after, rfl, hbefore, hc⟩
    · obtain ⟨ts, hts, hgo, -⟩ := turns_of_passes ho.type_ne fun c h ↦ not_not.mp (hall c h)
      obtain ⟨hfits, hwild⟩ := assignFrom_append ho.sound hts hgo ty []
      rw [List.append_nil] at hfits hwild
      by_cases hroom : VectorObject.RoomFor o.vector.capacity o.vector.end_pos
          (ts.flatMap Turn.slots).length
      · obtain ⟨v, -, -, hrun⟩ := hfits hroom
        cases hr.symm.trans hrun
        exact absurd hret (by decide : ¬ (1 : ℤ) < 0)
      · cases hr.symm.trans (hwild hroom)
    · have hpass : ∀ b ∈ before, Passes cj cls o.class_name b := fun b h ↦
        not_not.mp (hbefore b h)
      obtain ⟨ts, hts, hgo, hlen⟩ := turns_of_passes ho.type_ne hpass
      obtain ⟨hfits, hwild⟩ := assignFrom_append ho.sound hts hgo ty (c :: after)
      rw [hlen, ho.roomFor_iff] at hfits hwild
      by_cases hroom : before.countP isKept ≤ MAX_SLOTS
      · by_cases hrefused : Refused cj cls o.class_name c
        · exact ⟨before, c, after, rfl, hpass, hroom, hrefused⟩
        · obtain ⟨v, -, -, hrun⟩ := hfits hroom
          rw [hrun, assignFrom, not_turn (o := { o with vector := v }) hc hrefused] at hr
          cases hr
      · cases hr.symm.trans (hwild hroom)
  · rintro ⟨before, c, after, rfl, hpass, hroom, hrefused⟩
    obtain ⟨ts, hts, hgo, hlen⟩ := turns_of_passes ho.type_ne hpass
    obtain ⟨hfits, -⟩ := assignFrom_append ho.sound hts hgo ty (c :: after)
    rw [hlen, ho.roomFor_iff] at hfits
    obtain ⟨v, -, -, hrun⟩ := hfits hroom
    have hthrow : turn cj cls { o with vector := v } c = some .throw :=
      turn_refused ho.type_ne hrefused
    refine ⟨⟨{ o with vector := v }, -1⟩, ?_, (by decide : (-1 : ℤ) < 0)⟩
    rw [hrun, assignFrom, hthrow]
    rfl

/-! ## Printing -/

/-- What is added for the element is printed as the element. -/
def Kept (cj : Cjson D) (cls : Classes D O S) (class_name : Option Text) (ty : ValueType)
    (c : Json D) (data : Option (Cell O S)) : Prop :=
  (∀ o : VectorObject (Cell O S), o.class_name = class_name → o.value_type ≠ .struct_pointer →
      turn cj cls o c = some (.add data ty)) ∧
    ∀ o : VectorObject (Cell O S), o.value_type = ty → policy cj cls o data = some (some [c])

theorem kept_of_uniform {cs : List (Json D)} (h : Uniform cj cls class_name cs)
    (hshort : ∀ s, .string s ∈ cs → Short s.1) :
    ∃ ty ds, List.Forall₂ (Kept cj cls class_name ty) cs ds := by
  have hall : ∃ ty, ∀ c ∈ cs, ∃ data, Kept cj cls class_name ty c data := by
    rcases h with hint | hstr | hobj
    · refine ⟨.int32_t, fun c hc ↦ ?_⟩
      obtain ⟨n, rfl⟩ := hint c hc
      refine ⟨pointer n, fun o _ _ ↦ by rw [turn, cj.toInt_ofInt], fun o ho ↦ ?_⟩
      simp only [policy, ho, numberOf_pointer, Option.map_some, setWidth_signExtend]
    · refine ⟨.string_pointer, fun c hc ↦ ?_⟩
      obtain ⟨s, rfl⟩ := hstr c hc
      obtain ⟨str, hassign, hvalue⟩ := init_assign (hshort s hc)
      refine ⟨some (.string str), fun o _ _ ↦ by rw [turn, hassign, Option.map_some], fun o ho ↦ ?_⟩
      simp only [policy, ho, hvalue]
    · refine ⟨.obj_pointer, fun c hc ↦ ?_⟩
      obtain ⟨child, e, rfl, hnew, hback⟩ := hobj c hc
      refine ⟨some (.object e), fun o hname ho ↦ ?_, fun o ho ↦ ?_⟩
      · rw [← hname] at hnew
        simp only [turn, if_neg ho, hnew]
      · simp only [policy, ho, hback, Option.toList_some]
  obtain ⟨ty, hty⟩ := hall
  choose! f hf using hty
  exact ⟨ty, cs.map f, List.forall₂_map_right_iff.mpr (List.forall₂_same.mpr hf)⟩

theorem length_slots {o : VectorObject (Cell O S)} (ho : o.vector.Sound) :
    o.slots.length = o.vector.end_pos := by
  have hend := ho.end_le
  have hlen := ho.length_eq
  rw [VectorObject.slots, List.length_take]
  omega

theorem itemsFrom_eq {o : VectorObject (Cell O S)} (ho : o.vector.Sound)
    {xs ys : List (Option (Cell O S))} {cs : List (Json D)} (hslots : o.slots = xs ++ ys)
    (h : List.Forall₂ (fun c data ↦ policy cj cls o data = some (some [c])) cs ys)
    (root : List (Json D)) :
    itemsFrom cj cls o ys.length xs.length root = some (some (root ++ cs)) := by
  induction h generalizing xs root with
  | nil => rw [List.append_nil]; rfl
  | @cons c data cs ys hdata _ ih =>
    have hget : (o.vector.slots.take o.vector.end_pos)[xs.length]? = some data := by
      have hget' : o.slots[xs.length]? = some data := by
        rw [hslots, List.getElem?_append_right le_rfl, Nat.sub_self]
        rfl
      exact hget'
    obtain ⟨hpeek, -⟩ := ho.remove hget
    have hslots' : o.slots = xs ++ [data] ++ ys := by
      rw [hslots, List.append_assoc]
      rfl
    have hrest := ih hslots' (root ++ [c])
    rw [List.length_append, List.length_singleton, List.append_assoc] at hrest
    rw [List.length_cons, itemsFrom, hpeek]
    simp only [Option.bind_eq_bind, Option.bind_some, hdata]
    exact hrest

theorem foldl_after {ds : List (Option (Cell O S))} (hne : ds ≠ []) (ty kind : ValueType) :
    (ds.map fun data ↦ Turn.add data ty).foldl Turn.after kind = ty := by
  induction ds generalizing kind with
  | nil => exact absurd rfl hne
  | cons data ds ih =>
    rw [List.map_cons, List.foldl_cons]
    by_cases hds : ds = []
    · rw [hds]
      rfl
    · exact ih hds _

theorem New.items {o : VectorObject (Cell O S)} (ho : New o) {cs : List (Json D)}
    (h : Uniform cj cls o.class_name cs) (hshort : ∀ s, .string s ∈ cs → Short s.1)
    (hlen : cs.length ≤ MAX_SLOTS) :
    ∃ r, assignFrom cj cls o .undefined cs = some r ∧ r.ret = 1 ∧
      itemsFrom cj cls r.object r.object.vector.end_pos 0 [] = some (some cs) := by
  obtain ⟨ty, ds, hds⟩ := kept_of_uniform h hshort
  have hts : List.Forall₂ (fun c t ↦ turn cj cls o c = some t) cs
      (ds.map fun data ↦ .add data ty) :=
    List.forall₂_map_right_iff.mpr (hds.imp fun c data hkept ↦ hkept.1 o rfl ho.type_ne)
  have hgo : ∀ t ∈ ds.map fun data ↦ Turn.add data ty, t ≠ .throw := by
    intro t ht
    obtain ⟨data, -, rfl⟩ := List.mem_map.mp ht
    nofun
  have hslots : (ds.map fun data ↦ Turn.add data ty).flatMap Turn.slots = ds := by
    rw [List.flatMap_map]
    exact List.flatMap_singleton' ds
  obtain ⟨hfits, -⟩ := assignFrom_append ho.sound hts hgo .undefined []
  rw [hslots, ← hds.length_eq, ho.roomFor_iff, List.append_nil] at hfits
  obtain ⟨v, hv, hshow, hrun⟩ := hfits hlen
  rw [ho.end_eq, List.take_zero, List.nil_append] at hshow
  let o' : VectorObject (Cell O S) := { o with
    vector := v
    trustee_flag := 1
    value_type := (ds.map fun data ↦ Turn.add data ty).foldl Turn.after .undefined }
  refine ⟨⟨o', 1⟩, hrun, rfl, ?_⟩
  have hpolicy : List.Forall₂ (fun c data ↦ policy cj cls o' data = some (some [c])) cs ds := by
    cases hds with
    | nil => exact .nil
    | cons hdata hrest =>
      have hty : o'.value_type = ty := foldl_after (List.cons_ne_nil _ _) ty .undefined
      exact (List.Forall₂.cons hdata hrest).imp fun c data hkept ↦ hkept.2 o' hty
  have hslots' : o'.slots = [] ++ ds := hshow
  have hend : o'.vector.end_pos = ds.length :=
    (length_slots (o := o') hv).symm.trans (congrArg List.length hshow)
  rw [hend]
  exact itemsFrom_eq (o := o') hv hslots' hpolicy []

theorem to_json_eq {o : VectorObject (Cell O S)} {cs : List (Json D)}
    (h : itemsFrom cj cls o o.vector.end_pos 0 [] = some (some cs)) :
    to_json cj cls o = some (some (cj.print (.array cs)).1) ↔ Short (cj.print (.array cs)).1 := by
  rw [to_json, h]
  simp only [Option.bind_eq_bind, Option.bind_some]
  by_cases hshort : Short (cj.print (.array cs)).1
  · obtain ⟨json, hassign, hvalue⟩ := init_assign hshort
    rw [hassign]
    exact iff_of_true (congrArg (fun t ↦ some (some t)) hvalue) hshort
  · rw [not_init_assign hshort]
    exact iff_of_false nofun hshort

theorem Uniform.not_refused {cs : List (Json D)} (h : Uniform cj cls class_name cs) {c : Json D}
    (hc : c ∈ cs) : ¬ Refused cj cls class_name c ∧ isKept c = true := by
  rcases h with hint | hstr | hobj
  · obtain ⟨n, rfl⟩ := hint c hc
    exact ⟨fun h ↦ (nomatch h.choose_spec.1), rfl⟩
  · obtain ⟨s, rfl⟩ := hstr c hc
    exact ⟨fun h ↦ (nomatch h.choose_spec.1), rfl⟩
  · obtain ⟨child, e, rfl, hnew, -⟩ := hobj c hc
    exact ⟨fun h ↦ (nomatch hnew.symm.trans h.choose_spec.2), rfl⟩

theorem New.prints_iff {o : VectorObject (Cell O S)} (ho : New o) {cs : List (Json D)}
    (h : Uniform cj cls o.class_name cs) :
    (∃ r, assignFrom cj cls o .undefined cs = some r ∧ 0 ≤ r.ret ∧
        to_json cj cls r.object = some (some (cj.print (.array cs)).1)) ↔ Fits cj cs := by
  constructor
  · rintro ⟨r, hr, -, hprint⟩
    have hpass : ∀ c ∈ cs, Passes cj cls o.class_name c := by
      rcases none_or_first (fun c ↦ ¬ Passes cj cls o.class_name c) cs with
        hall | ⟨before, c, after, rfl, hbefore, hc⟩
      · exact fun c h ↦ not_not.mp (hall c h)
      · have hmem : c ∈ before ++ c :: after := List.mem_append_right _ List.mem_cons_self
        obtain ⟨ts, hts, hgo, -⟩ := turns_of_passes ho.type_ne fun b h ↦ not_not.mp (hbefore b h)
        obtain ⟨hfits, hwild⟩ := assignFrom_append ho.sound hts hgo .undefined (c :: after)
        by_cases hroom : VectorObject.RoomFor o.vector.capacity o.vector.end_pos
            (ts.flatMap Turn.slots).length
        · obtain ⟨v, -, -, hrun⟩ := hfits hroom
          rw [hrun, assignFrom,
            not_turn (o := { o with vector := v }) hc (h.not_refused hmem).1] at hr
          cases hr
        · cases hr.symm.trans (hwild hroom)
    have hshort : ∀ s, .string s ∈ cs → Short s.1 := fun s hs ↦ (hpass _ hs).2 s rfl
    have hlen : cs.length ≤ MAX_SLOTS := by
      obtain ⟨ts, hts, hgo, hcount⟩ := turns_of_passes ho.type_ne hpass
      rw [List.countP_eq_length.mpr fun c hc ↦ (h.not_refused hc).2] at hcount
      obtain ⟨-, hwild⟩ := assignFrom_append ho.sound hts hgo .undefined []
      rw [hcount, ho.roomFor_iff, List.append_nil] at hwild
      by_contra hlong
      cases hr.symm.trans (hwild hlong)
    obtain ⟨r', hr', -, hitems⟩ := ho.items h hshort hlen
    cases hr.symm.trans hr'
    exact ⟨hlen, hshort, (to_json_eq hitems).mp hprint⟩
  · rintro ⟨hlen, hshort, htext⟩
    obtain ⟨r, hr, hret, hitems⟩ := ho.items h hshort hlen
    exact ⟨r, hr, by rw [hret]; decide, (to_json_eq hitems).mpr htext⟩

/-! ## The text -/

theorem takeWhile_notMem {t s : Text} {c : UInt8} (h : c ∉ t) :
    (t ++ c :: s).takeWhile (· ≠ c) = t := by
  have hall : ∀ d ∈ t, decide (d ≠ c) = true := fun d hd ↦ decide_eq_true fun heq ↦ h (heq ▸ hd)
  rw [List.takeWhile_append_of_pos hall, List.takeWhile_cons, if_neg (by simp), List.append_nil]

theorem dropWhile_notMem {t s : Text} {c : UInt8} (h : c ∉ t) :
    ((t ++ c :: s).dropWhile (· ≠ c)).tail = s := by
  have hall : ∀ d ∈ t, decide (d ≠ c) = true := fun d hd ↦ decide_eq_true fun heq ↦ h (heq ▸ hd)
  rw [List.dropWhile_append_of_pos hall, List.dropWhile_cons, if_neg (by simp), List.tail_cons]

theorem reads_named_iff {rest json : Text} {name : Option Text} :
    Reads (40 :: rest) name json ↔ 41 ∈ rest ∧ 58 ∈ rest ∧
      name = some (rest.takeWhile (· ≠ 41)) ∧ json = (rest.dropWhile (· ≠ 58)).tail := by
  constructor
  · intro h
    cases h with
    | plain hhead => exact absurd hhead (by decide : ¬ some (40 : UInt8) = some 91)
    | named hrest hname hrest' hbefore =>
      refine ⟨?_, ?_, ?_, ?_⟩
      · exact hrest ▸ List.mem_append_right _ List.mem_cons_self
      · exact hrest' ▸ List.mem_append_right _ List.mem_cons_self
      · rw [hrest, takeWhile_notMem hname]
      · rw [hrest', dropWhile_notMem hbefore]
  · rintro ⟨hclose, hcolon, rfl, rfl⟩
    obtain ⟨n, tail, hrest, hname⟩ := List.eq_append_cons_of_mem hclose
    obtain ⟨before, j, hrest', hbefore⟩ := List.eq_append_cons_of_mem hcolon
    have hn : rest.takeWhile (· ≠ 41) = n := by rw [hrest, takeWhile_notMem hname]
    have hj : (rest.dropWhile (· ≠ 58)).tail = j := by rw [hrest', dropWhile_notMem hbefore]
    rw [hn, hj]
    exact .named hrest hname hrest' hbefore

theorem Reads.unique {value json json' : Text} {name name' : Option Text}
    (h : Reads value name json) (h' : Reads value name' json') : name' = name ∧ json' = json := by
  cases h with
  | plain hhead =>
    cases h' with
    | plain _ => exact ⟨rfl, rfl⟩
    | named _ _ _ _ => exact absurd hhead (by decide : ¬ some (40 : UInt8) = some 91)
  | named hrest hname hrest' hbefore =>
    have hh := reads_named_iff.mp (Reads.named hrest hname hrest' hbefore)
    have hh' := reads_named_iff.mp h'
    exact ⟨hh'.2.2.1.trans hh.2.2.1.symm, hh'.2.2.2.trans hh.2.2.2.symm⟩

theorem Form.reads {value json : Text} {name : Option Text} (h : Form value name json) :
    Reads value name json := by
  cases h with
  | plain hhead => exact .plain hhead
  | @named name json hclose hcolon =>
    have hmem : (58 : UInt8) ∉ name ++ [41] := by
      rw [List.mem_append, not_or]
      exact ⟨hcolon, by decide⟩
    refine .named rfl hclose ?_ hmem
    rw [List.append_assoc]
    rfl

theorem assign_of_reads (cj : Cjson D) (cls : Classes D O S) (class_name : Option Text)
    {value json : Text} {name : Option Text} (h : Reads value name json) :
    (LongName name → assign cj cls (fresh class_name : VectorObject (Cell O S)) value = none) ∧
      (¬ LongName name → assign cj cls (fresh class_name) value =
        (cj.parse json).bind fun c ↦
          assignFrom cj cls (fresh (name.or class_name)) .undefined (elements c)) := by
  cases h with
  | plain hhead =>
    obtain ⟨rest, rfl⟩ : ∃ rest, value = 91 :: rest := List.head?_eq_some_iff.mp hhead
    exact ⟨fun h ↦ (nomatch h.choose_spec.1), fun _ ↦ rfl⟩
  | @named rest name tail before json hrest hname hrest' hbefore =>
    obtain ⟨hclose, hcolon, hn, hj⟩ :=
      reads_named_iff.mp (Reads.named hrest hname hrest' hbefore)
    rw [assign, if_pos hclose]
    dsimp only
    rw [← Option.some.inj hn]
    constructor
    · rintro ⟨n, hn', hlong⟩
      cases hn'
      exact if_pos hlong
    · intro hshort
      rw [if_neg fun hlong ↦ hshort ⟨name, rfl, hlong⟩, if_pos hcolon, ← hj]
      rfl

theorem not_form {value : Text} (h : ∀ name json, ¬ Reads value name json) (name : Option Text)
    (json : Text) : ¬ Form value name json := fun hform ↦ h name json hform.reads

theorem meets_of_error {value : Text} (h : ∀ name json, ¬ Reads value name json)
    (hassign : assign cj cls (fresh class_name : VectorObject (Cell O S)) value =
      some ⟨fresh class_name, -1⟩) : Meets cj cls class_name value where
  fails _ := ⟨_, hassign, (by decide : (-1 : ℤ) < 0)⟩
  prints name json _ hform := absurd hform (not_form h name json)

theorem not_meets {value : Text} (hfaulty : Faulty cj cls class_name value)
    (hassign : assign cj cls (fresh class_name : VectorObject (Cell O S)) value = none) :
    ¬ Meets cj cls class_name value := by
  intro h
  obtain ⟨r, hr, -⟩ := h.fails hfaulty
  cases hassign.symm.trans hr

theorem meets_reads_iff {value json : Text} {name : Option Text} {c : Json D}
    (h : Reads value name json) (hname : ¬ LongName name) (hc : cj.parse json = some c) :
    Meets cj cls class_name value ↔ Stops cj cls (name.or class_name) (elements c) ∨
      Form value name json ∧ (∀ e ∈ elements c, Supported cj cls (name.or class_name) e) ∧
        ∀ cs, c = .array cs → Uniform cj cls (name.or class_name) cs → Fits cj cs := by
  have hnew := new_fresh (O := O) (S := S) (name.or class_name)
  have hassign := (assign_of_reads cj cls class_name h).2 hname
  rw [hc, Option.bind_some] at hassign
  constructor
  · intro hmeets
    by_cases hform : Form value name json ∧
        ∀ e ∈ elements c, Supported cj cls (name.or class_name) e
    · refine .inr ⟨hform.1, hform.2, fun cs hcs huniform ↦ ?_⟩
      subst hcs
      have hprints := hmeets.prints name json cs hform.1 hname hc huniform
      rw [hassign] at hprints
      exact (hnew.prints_iff huniform).mp hprints
    · refine .inl ?_
      have hfaulty : Faulty cj cls class_name value := by
        intro name' json' hform' _ c' hc'
        obtain ⟨rfl, rfl⟩ := h.unique hform'.reads
        cases hc.symm.trans hc'
        by_contra hall
        refine hform ⟨hform', fun e he ↦ by_contra fun hnot ↦ hall ⟨e, he, hnot⟩⟩
      have hfails := hmeets.fails hfaulty
      rw [hassign] at hfails
      exact (hnew.fails_iff .undefined _).mp hfails
  · rintro (hstops | ⟨hform, hall, hfits⟩)
    · refine ⟨fun _ ↦ ?_, fun name' json' cs hform' _ hcs huniform ↦ ?_⟩
      · rw [hassign]
        exact (hnew.fails_iff .undefined _).mpr hstops
      · obtain ⟨rfl, rfl⟩ := h.unique hform'.reads
        cases hc.symm.trans hcs
        obtain ⟨before, e, after, hsplit, -, -, hrefused⟩ := hstops
        have hcs : cs = before ++ e :: after := hsplit
        have hmem : e ∈ cs := hcs ▸ List.mem_append_right _ List.mem_cons_self
        exact absurd hrefused (huniform.not_refused hmem).1
    · refine ⟨fun hfaulty ↦ ?_, fun name' json' cs hform' _ hcs huniform ↦ ?_⟩
      · obtain ⟨e, he, hnot⟩ := hfaulty name json hform hname c hc
        exact absurd (hall e he) hnot
      · obtain ⟨rfl, rfl⟩ := h.unique hform'.reads
        cases hc.symm.trans hcs
        rw [hassign]
        exact (hnew.prints_iff huniform).mpr (hfits cs rfl huniform)

theorem served_reads_iff {value json : Text} {name : Option Text} (h : Reads value name json) :
    Served cj cls class_name value ↔ ¬ LongName name ∧ ∃ c, cj.parse json = some c ∧
      (Stops cj cls (name.or class_name) (elements c) ∨
        Form value name json ∧ (∀ e ∈ elements c, Supported cj cls (name.or class_name) e) ∧
          ∀ cs, c = .array cs → Uniform cj cls (name.or class_name) cs → Fits cj cs) := by
  constructor
  · rintro (⟨hopen, hparen⟩ | ⟨rest, rfl, hclose⟩ | ⟨name', json', c, h', hname, hc, hcase⟩)
    · cases h with
      | plain hhead => exact absurd hhead hopen
      | named _ _ _ _ => exact absurd rfl hparen
    · exact absurd (reads_named_iff.mp h).1 hclose
    · obtain ⟨rfl, rfl⟩ := h.unique h'
      exact ⟨hname, c, hc, hcase⟩
  · rintro ⟨hname, c, hc, hcase⟩
    exact .inr (.inr ⟨name, json, c, h, hname, hc, hcase⟩)

theorem faulty_of_none {value json : Text} {name : Option Text} (h : Reads value name json)
    (hbad : LongName name ∨ cj.parse json = none) : Faulty cj cls class_name value := by
  intro name' json' hform' hname c hc
  obtain ⟨rfl, rfl⟩ := h.unique hform'.reads
  rcases hbad with hlong | hnone
  · exact absurd hlong hname
  · cases hnone.symm.trans hc

theorem meets_iff_of_reads {value json : Text} {name : Option Text} (h : Reads value name json) :
    Meets cj cls class_name value ↔ Served cj cls class_name value := by
  rw [served_reads_iff h]
  by_cases hname : LongName name
  · have hassign := (assign_of_reads cj cls class_name h).1 hname
    refine iff_of_false (not_meets (faulty_of_none h (.inl hname)) hassign) ?_
    exact fun hserved ↦ hserved.1 hname
  · cases hc : cj.parse json with
    | none =>
      have hassign := (assign_of_reads cj cls class_name h).2 hname
      rw [hc, Option.bind_none] at hassign
      refine iff_of_false (not_meets (faulty_of_none h (.inr hc)) hassign) ?_
      rintro ⟨-, c, hc', -⟩
      cases hc'
    | some c =>
      rw [meets_reads_iff h hname hc]
      constructor
      · exact fun hcase ↦ ⟨hname, c, rfl, hcase⟩
      · rintro ⟨-, c', hc', hcase⟩
        cases hc'
        exact hcase

end Turns

/-- A new vector goes to a text and back, and reports what it cannot take, exactly if the text is
served. -/
theorem round_trip_iff {D O S : Type} (cj : Cjson D) (cls : Classes D O S)
    (class_name : Option Text) (value : Text) :
    Meets cj cls class_name value ↔ Served cj cls class_name value := by
  by_cases hreads : ∃ name json, Reads value name json
  · obtain ⟨name, json, h⟩ := hreads
    exact meets_iff_of_reads h
  · have hnot : ∀ name json, ¬ Reads value name json := fun name json h ↦ hreads ⟨name, json, h⟩
    by_cases hparen : value.head? = some 40
    · obtain ⟨rest, rfl⟩ := List.head?_eq_some_iff.mp hparen
      by_cases hclose : 41 ∈ rest
      · have hcolon : 58 ∉ rest := fun hcolon ↦
          hnot _ _ (reads_named_iff.mpr ⟨hclose, hcolon, rfl, rfl⟩)
        have hassign : assign cj cls (fresh class_name : VectorObject (Cell O S)) (40 :: rest) =
            none := by
          rw [assign, if_pos hclose]
          dsimp only
          rw [if_neg hcolon]
          exact ite_self _
        have hfaulty : Faulty cj cls class_name (40 :: rest) := fun name json hform ↦
          absurd hform (not_form hnot name json)
        refine iff_of_false (not_meets hfaulty hassign) ?_
        rintro (⟨-, hne⟩ | ⟨rest', hrest, hopen⟩ | ⟨name, json, -, h, -⟩)
        · exact hne rfl
        · cases hrest
          exact hopen hclose
        · exact hnot name json h
      · refine iff_of_true (meets_of_error hnot ?_) (.inr (.inl ⟨rest, rfl, hclose⟩))
        rw [assign, if_neg hclose]
    · have hopen : value.head? ≠ some 91 := fun h ↦ hnot none value (.plain h)
      refine iff_of_true (meets_of_error hnot ?_) (.inl ⟨hopen, hparen⟩)
      rw [assign]
      · exact fun rest h ↦ hopen (h ▸ rfl)
      · exact fun rest h ↦ hparen (h ▸ rfl)

/-- Prints nothing but the empty array. -/
def emptyCjson : Cjson (BitVec 32) where
  ofInt := BitVec.ofInt 32
  toInt := id
  toInt_ofInt n := BitVec.ofInt_toInt
  print _ := ⟨ascii "[]", by decide⟩
  parse _ := some (.array [])

def noClasses : Classes (BitVec 32) Unit Unit where
  object_new _ _ := none
  to_json _ := none
  new_method _ := none
  struct_to_json _ := none

/-- A class name of twenty characters leaves no room for its end. -/
theorem not_round_trip :
    ¬ Meets emptyCjson noClasses none (ascii "(Configuration_Source):[]") := by
  intro h
  have hfaulty : Faulty emptyCjson noClasses none (ascii "(Configuration_Source):[]") := by
    intro name json hform hname
    have hread := (reads_named_iff.mp hform.reads).2.2.1
    exact absurd ⟨_, hread, by decide⟩ hname
  obtain ⟨r, hr, -⟩ := h.fails hfaulty
  have hnone :
      assign emptyCjson noClasses (fresh none) (ascii "(Configuration_Source):[]") = none := rfl
  cases hnone.symm.trans hr

end Libobject.VectorJson
