import Libobject.Core.String
import Libobject.Lib.Assoc
import Libobject.Lib.Run

/-!
# The key-value store of an EEPROM

The store keeps a JSON object in memory, which is read from the device and written to it as a whole.
What lies behind the text on the device is what longer texts left there.
-/

namespace Libobject.Board

open Scan

/-- A C string, without its terminator. -/
abbrev CString := {t : Text // 0 ∉ t}

/-- The items of a JSON object, all with string values. -/
abbrev Items := List (CString × CString)

/-- `cjson_strcasecmp` gives 0 for two keys exactly if these are equal. -/
def fold (key : CString) : Text := key.1.map Str.toLower

/-- `cjson_print_unformatted` and `cjson_parse` for such objects. The parser stops at the brace that
closes the object. -/
structure Cjson where
  print : Items → List UInt8
  parse : List UInt8 → Option Items
  brace : ∀ items, (print items).head? = some 123
  inverse : ∀ items rest, parse (print items ++ rest) = some items

def cjson_get_object_item (object : Items) (key : CString) : Option CString :=
  Assoc.lookup fold object key

def EEPROM_STORAGE_ERR_INVALID_ARG : ℤ := 3
def EEPROM_STORAGE_ERR_OUT_OF_RANGE : ℤ := 4
def EEPROM_STORAGE_ERR_DEVICE : ℤ := 5

/-! ## The device -/

/-- A transfer that fails moves nothing. -/
def eeprom_read (device : List UInt8) (len : ℕ) (transfer : Bool) : Option (List UInt8) :=
  if len = 0 ∨ len > device.length ∨ ¬ transfer then none else some (device.take len)

def eeprom_write (device bs : List UInt8) (transfer : Bool) : Option (List UInt8) :=
  if bs.length = 0 ∨ bs.length > device.length ∨ ¬ transfer then none
  else some (bs ++ device.drop bs.length)

/-! ## The store -/

/-- An object that is initialised on a device; `cache_valid` tells whether the cache was loaded. -/
structure Eeprom_Storage where
  device : List UInt8
  cache : Option Items
  cache_valid : Bool

/-- What is called: the operations of an object, each with whether the transfer that it may make
succeeds, and the end of the object with a new one in its place. -/
inductive Op
  | renew
  | set_value (key value : Option CString)
  | get_value (key : Option CString) (transfer : Bool)
  | load (transfer : Bool)
  | save (transfer : Bool)

/-- What is returned: a code, which is 1 after success, or a string where it is not null. -/
inductive Reply
  | code (ret : ℤ)
  | text (value : Option CString)
  deriving DecidableEq

namespace Eeprom_Storage

/-- A new object after `init`. -/
def new (device : List UInt8) : Eeprom_Storage := ⟨device, none, false⟩

def set_value (es : Eeprom_Storage) (key value : Option CString) : Eeprom_Storage × ℤ :=
  match key, value with
  | some key, some value =>
    let cache := es.cache.getD []
    ({ es with cache := some (Assoc.replace fold cache key value), cache_valid := true }, 1)
  | _, _ => (es, -EEPROM_STORAGE_ERR_INVALID_ARG)

variable (j : Cjson)

/-- Text that is no object is taken for an empty one; so is a device without text. -/
def load (es : Eeprom_Storage) (transfer : Bool) : Eeprom_Storage × ℤ :=
  match eeprom_read es.device es.device.length transfer with
  | none => (es, -EEPROM_STORAGE_ERR_DEVICE)
  | some bs =>
    let buf := bs ++ [0]
    let cache := if buf.head? = some 0 then [] else (j.parse buf).getD []
    ({ es with cache := some cache, cache_valid := true }, 1)

def get_value (es : Eeprom_Storage) (key : Option CString) (transfer : Bool) :
    Eeprom_Storage × Option CString :=
  match key with
  | none => (es, none)
  | some key =>
    let (es, ret) := if es.cache_valid then (es, 1) else es.load j transfer
    if ret < 0 then (es, none)
    else
      match es.cache with
      | none => (es, none)
      | some cache => (es, cjson_get_object_item cache key)

def save (es : Eeprom_Storage) (transfer : Bool) : Eeprom_Storage × ℤ :=
  let cache := es.cache.getD []
  let es := { es with cache := some cache }
  let json_str := j.print cache
  if json_str.length > es.device.length then (es, -EEPROM_STORAGE_ERR_OUT_OF_RANGE)
  else
    match eeprom_write es.device json_str transfer with
    | none => (es, -EEPROM_STORAGE_ERR_DEVICE)
    | some device => ({ es with device := device, cache_valid := true }, 1)

def call (es : Eeprom_Storage) : Op → Eeprom_Storage × Reply
  | .renew => (new es.device, .code 1)
  | .set_value key value => (es.set_value key value).map id .code
  | .get_value key transfer => (es.get_value j key transfer).map id .text
  | .load transfer => (es.load j transfer).map id .code
  | .save transfer => (es.save j transfer).map id .code

end Eeprom_Storage

/-! ## What the store is for -/

/-- The value of every key: what `get_value` should return, and what the device holds. -/
structure View where
  current : CString → Option CString
  stored : CString → Option CString

namespace View

/-- The store after a call that returned `r`. A call that fails changes nothing. -/
def next (v : View) : Op → Reply → View
  | .renew, _ => ⟨v.stored, v.stored⟩
  | .set_value (some key) (some value), .code 1 =>
    ⟨Assoc.updated fold v.current key value, v.stored⟩
  | .load _, .code 1 => ⟨v.stored, v.stored⟩
  | .save _, .code 1 => ⟨v.current, v.current⟩
  | _, _ => v

/-- Some text of the map does not fit into `size` bytes. -/
def Large (j : Cjson) (g : CString → Option CString) (size : ℕ) : Prop :=
  ∃ items, Assoc.Distinct fold items ∧ Assoc.lookup fold items = g ∧ size < (j.print items).length

/-- What may be returned. An operation fails for a null argument, for a transfer that fails, and
`save` also for a map that the device has no room for. -/
def Allows (v : View) (j : Cjson) (es : Eeprom_Storage) : Op → Reply → Prop
  | .renew, _ => True
  | .set_value (some _) (some _), r => r = .code 1
  | .set_value _ _, r => ∃ ret < 0, r = .code ret
  | .get_value none _, r => r = .text none
  | .get_value (some key) transfer, r =>
    r = .text (v.current key) ∨ (transfer = false ∧ es.cache_valid = false ∧ r = .text none)
  | .load transfer, r => if transfer then r = .code 1 else ∃ ret < 0, r = .code ret
  | .save transfer, r =>
    r = .code 1 ∨
      ((transfer = false ∨ Large j v.current es.device.length) ∧ ∃ ret < 0, r = .code ret)

end View

/-- The device begins with the text of the map. -/
def Stores (j : Cjson) (device : List UInt8) (g : CString → Option CString) : Prop :=
  ∃ items rest, device = j.print items ++ rest ∧ Assoc.Distinct fold items ∧
    Assoc.lookup fold items = g

/-- The store beside what it is for. -/
def step (j : Cjson) (s : Eeprom_Storage × View) (op : Op) : Eeprom_Storage × View :=
  let r := s.1.call j op
  (r.1, s.2.next op r.2)

/-- A good step: the reply is as it should be, the device holds the stored map, and a call that
fails leaves the device alone. -/
structure Good (j : Cjson) (s : Eeprom_Storage × View) (op : Op) (t : Eeprom_Storage × View) :
    Prop where
  reply : s.2.Allows j s.1 op (s.1.call j op).2
  stores : Stores j t.1.device t.2.stored
  failed : ∀ ret < 0, (s.1.call j op).2 = .code ret → t.1.device = s.1.device ∧ t.2 = s.2

/-- Values are set and saved by an object that has loaded the device. -/
def Loaded (es : Eeprom_Storage) : Op → Prop
  | .set_value _ _ => es.cache_valid = true
  | .save _ => es.cache_valid = true
  | _ => True

/-! ## Every run -/

variable {j : Cjson}

theorem load_of_stores {es : Eeprom_Storage} {g : CString → Option CString}
    (h : Stores j es.device g) : ∃ items, Assoc.Distinct fold items ∧
      Assoc.lookup fold items = g ∧
      es.load j true = ({ es with cache := some items, cache_valid := true }, 1) := by
  obtain ⟨items, rest, hdevice, hdistinct, hlookup⟩ := h
  obtain ⟨text, htext⟩ := List.head?_eq_some_iff.mp (j.brace items)
  have hlen : ¬ (es.device.length = 0 ∨ es.device.length > es.device.length ∨ ¬ true = true) := by
    rw [hdevice, htext]
    simp
  have hhead : ¬ (es.device ++ [0]).head? = some 0 := by
    rw [hdevice, htext]
    simp
  refine ⟨items, hdistinct, hlookup, ?_⟩
  rw [Eeprom_Storage.load, eeprom_read, if_neg hlen, List.take_length]
  dsimp only
  rw [if_neg hhead, hdevice, List.append_assoc, j.inverse, Option.getD_some]

theorem load_fails (es : Eeprom_Storage) :
    es.load j false = (es, -EEPROM_STORAGE_ERR_DEVICE) := by
  rw [Eeprom_Storage.load, eeprom_read, if_pos (by simp)]

/-- What holds in every state: the device holds the stored map, a loaded cache is the current one,
and without one the current map is the stored one. -/
structure Holds (j : Cjson) (s : Eeprom_Storage × View) : Prop where
  stores : Stores j s.1.device s.2.stored
  cached : s.1.cache_valid = true → ∃ items, s.1.cache = some items ∧
    Assoc.Distinct fold items ∧ Assoc.lookup fold items = s.2.current
  unread : s.1.cache_valid = false → s.2.current = s.2.stored

namespace Holds

variable {s : Eeprom_Storage × View}

theorem load (h : Holds j s) :
    Holds j ((s.1.load j true).1, ⟨s.2.stored, s.2.stored⟩) ∧ (s.1.load j true).2 = 1 ∧
      (s.1.load j true).1.device = s.1.device ∧ (s.1.load j true).1.cache_valid = true := by
  obtain ⟨items, hdistinct, hlookup, hload⟩ := load_of_stores h.stores
  rw [hload]
  exact ⟨⟨h.stores, fun _ ↦ ⟨items, rfl, hdistinct, hlookup⟩, fun hf ↦
    (Bool.false_ne_true hf.symm).elim⟩, rfl, rfl, rfl⟩

theorem good_same (h : Holds j s) {op : Op} (hstep : step j s op = s)
    (hreply : s.2.Allows j s.1 op (s.1.call j op).2) :
    Holds j (step j s op) ∧ Good j s op (step j s op) := by
  rw [hstep]
  exact ⟨h, hreply, h.stores, fun _ _ _ ↦ ⟨rfl, rfl⟩⟩

theorem good_ok {op : Op} (h : Holds j (step j s op))
    (hreply : s.2.Allows j s.1 op (s.1.call j op).2)
    (hok : ∀ ret < 0, (s.1.call j op).2 ≠ .code ret) :
    Holds j (step j s op) ∧ Good j s op (step j s op) :=
  ⟨h, hreply, h.stores, fun ret hret heq ↦ (hok ret hret heq).elim⟩

theorem code_one_ne {ret : ℤ} (h : ret < 0) : Reply.code 1 ≠ .code ret := by
  rintro ⟨⟩
  exact absurd h (by decide)

theorem renew (h : Holds j s) : Holds j (step j s .renew) ∧ Good j s .renew (step j s .renew) :=
  good_ok ⟨h.stores, fun hf ↦ (Bool.false_ne_true hf).elim, fun _ ↦ rfl⟩ trivial
    fun _ hret ↦ code_one_ne hret

theorem set_value (h : Holds j s) (key value : Option CString) (hvalid : s.1.cache_valid = true) :
    Holds j (step j s (.set_value key value)) ∧
      Good j s (.set_value key value) (step j s (.set_value key value)) := by
  cases key with
  | none => exact h.good_same rfl ⟨_, by decide, rfl⟩
  | some key =>
    cases value with
    | none => exact h.good_same rfl ⟨_, by decide, rfl⟩
    | some value =>
      obtain ⟨items, hcache, hdistinct, hlookup⟩ := h.cached hvalid
      refine good_ok ⟨h.stores, fun _ ↦ ?_, fun hf ↦ (Bool.false_ne_true hf.symm).elim⟩ rfl
        fun _ hret ↦ code_one_ne hret
      refine ⟨Assoc.replace fold items key value, ?_, hdistinct.replace key value, ?_⟩
      · have hitems : s.1.cache.getD [] = items := by rw [hcache, Option.getD_some]
        rw [← hitems]
        rfl
      · rw [Assoc.lookup_replace hdistinct, hlookup]
        rfl

theorem get_value (h : Holds j s) (key : Option CString) (transfer : Bool) :
    Holds j (step j s (.get_value key transfer)) ∧
      Good j s (.get_value key transfer) (step j s (.get_value key transfer)) := by
  cases key with
  | none => exact h.good_same rfl rfl
  | some key =>
    have hcall : s.1.call j (.get_value (some key) transfer) =
        (s.1.get_value j (some key) transfer).map id .text := rfl
    cases hvalid : s.1.cache_valid with
    | true =>
      obtain ⟨items, hcache, -, hlookup⟩ := h.cached hvalid
      have hget : s.1.get_value j (some key) transfer = (s.1, s.2.current key) := by
        rw [Eeprom_Storage.get_value, hvalid, if_pos rfl]
        dsimp only
        rw [if_neg (by decide), hcache, ← hlookup]
        rfl
      refine h.good_same ?_ ?_
      · rw [step, hcall, hget]
        rfl
      · rw [hcall, hget]
        exact .inl rfl
    | false =>
      cases transfer with
      | false =>
        have hget : s.1.get_value j (some key) false = (s.1, none) := by
          rw [Eeprom_Storage.get_value, hvalid, if_neg Bool.false_ne_true, load_fails]
          rfl
        refine h.good_same ?_ ?_
        · rw [step, hcall, hget]
          rfl
        · rw [hcall, hget]
          exact .inr ⟨rfl, hvalid, rfl⟩
      | true =>
        obtain ⟨hload, hret, hdevice, hloaded⟩ := h.load
        have hsame : (⟨s.2.stored, s.2.stored⟩ : View) = s.2 := by
          obtain ⟨es, v⟩ := s
          obtain ⟨current, stored⟩ := v
          have hcurrent : current = stored := h.unread hvalid
          rw [hcurrent]
        obtain ⟨items, hcache, -, hlookup⟩ := hload.cached hloaded
        have hget : s.1.get_value j (some key) true =
            ((s.1.load j true).1, s.2.current key) := by
          rw [Eeprom_Storage.get_value, hvalid, if_neg Bool.false_ne_true]
          dsimp only
          rw [hret, if_neg (by decide), hcache, h.unread hvalid]
          exact congrArg (Prod.mk _) (congrFun hlookup key)
        have hstep : step j s (.get_value (some key) true) = ((s.1.load j true).1, s.2) := by
          rw [step, hcall, hget]
          rfl
        rw [hsame] at hload
        refine good_ok (hstep ▸ hload) ?_ fun ret _ ↦ ?_
        · rw [hcall, hget]
          exact .inl rfl
        · rw [hcall, hget]
          exact Reply.noConfusion

theorem load_step (h : Holds j s) (transfer : Bool) :
    Holds j (step j s (.load transfer)) ∧
      Good j s (.load transfer) (step j s (.load transfer)) := by
  have hcall : s.1.call j (.load transfer) = (s.1.load j transfer).map id .code := rfl
  cases transfer with
  | false =>
    rw [load_fails] at hcall
    refine h.good_same ?_ ?_
    · rw [step, hcall]
      rfl
    · rw [hcall]
      exact ⟨_, by decide, rfl⟩
  | true =>
    obtain ⟨hload, hret, -, -⟩ := h.load
    have hcode : s.1.call j (.load true) = ((s.1.load j true).1, .code 1) := by
      rw [hcall, ← hret]
      rfl
    have hstep : step j s (.load true) = ((s.1.load j true).1, ⟨s.2.stored, s.2.stored⟩) := by
      rw [step, hcode]
      rfl
    refine good_ok (hstep ▸ hload) ?_ fun ret hneg ↦ ?_
    · rw [hcode]
      rfl
    · rw [hcode]
      exact code_one_ne hneg

theorem save (h : Holds j s) (transfer : Bool) (hvalid : s.1.cache_valid = true) :
    Holds j (step j s (.save transfer)) ∧
      Good j s (.save transfer) (step j s (.save transfer)) := by
  obtain ⟨items, hcache, hdistinct, hlookup⟩ := h.cached hvalid
  have hcall : s.1.call j (.save transfer) = (s.1.save j transfer).map id .code := rfl
  have hes : ({ s.1 with cache := some items } : Eeprom_Storage) = s.1 := by
    rw [← hcache]
  have hsave : s.1.save j transfer =
      if (j.print items).length > s.1.device.length then (s.1, -EEPROM_STORAGE_ERR_OUT_OF_RANGE)
      else
        match eeprom_write s.1.device (j.print items) transfer with
        | none => (s.1, -EEPROM_STORAGE_ERR_DEVICE)
        | some device => ({ s.1 with device := device, cache_valid := true }, 1) := by
    simp only [Eeprom_Storage.save, hcache, Option.getD_some, hes]
  by_cases hlong : (j.print items).length > s.1.device.length
  · rw [hsave, if_pos hlong] at hcall
    refine h.good_same ?_ ?_
    · rw [step, hcall]
      rfl
    · rw [hcall]
      exact .inr ⟨.inr ⟨items, hdistinct, hlookup, hlong⟩, _, by decide, rfl⟩
  · rw [hsave, if_neg hlong] at hcall
    cases transfer with
    | false =>
      rw [eeprom_write, if_pos (by simp)] at hcall
      refine h.good_same ?_ ?_
      · rw [step, hcall]
        rfl
      · rw [hcall]
        exact .inr ⟨.inl rfl, _, by decide, rfl⟩
    | true =>
      obtain ⟨text, htext⟩ := List.head?_eq_some_iff.mp (j.brace items)
      have hwrite : ¬ ((j.print items).length = 0 ∨
          (j.print items).length > s.1.device.length ∨ ¬ true = true) := by
        rintro (hzero | hover | htrue)
        · rw [htext] at hzero
          exact Nat.succ_ne_zero _ hzero
        · exact hlong hover
        · exact htrue rfl
      rw [eeprom_write, if_neg hwrite] at hcall
      have hstep : step j s (.save true) =
          ({ s.1 with
              device := j.print items ++ s.1.device.drop (j.print items).length
              cache_valid := true }, ⟨s.2.current, s.2.current⟩) := by
        rw [step, hcall]
        rfl
      refine good_ok ?_ ?_ fun ret hneg ↦ ?_
      · rw [hstep]
        exact ⟨⟨items, _, rfl, hdistinct, hlookup⟩, fun _ ↦ ⟨items, hcache, hdistinct, hlookup⟩,
          fun _ ↦ rfl⟩
      · rw [hcall]
        exact .inl rfl
      · rw [hcall]
        exact code_one_ne hneg

theorem step (h : Holds j s) (op : Op) (hloaded : Loaded s.1 op) :
    Holds j (step j s op) ∧ Good j s op (Board.step j s op) := by
  cases op with
  | renew => exact h.renew
  | set_value key value => exact h.set_value key value hloaded
  | get_value key transfer => exact h.get_value key transfer
  | load transfer => exact h.load_step transfer
  | save transfer => exact h.save transfer hloaded

end Holds

/-- A new object on a device with a saved map, beside that map. -/
def start (j : Cjson) (items : Items) (rest : List UInt8) : Eeprom_Storage × View :=
  (.new (j.print items ++ rest), ⟨Assoc.lookup fold items, Assoc.lookup fold items⟩)

namespace Cjson

def escape (t : Text) : List UInt8 := t.flatMap fun c ↦ if c = 34 ∨ c = 92 then [92, c] else [c]

def print_string (t : CString) : List UInt8 := 34 :: (escape t.1 ++ [34])

def print_item (item : CString × CString) : List UInt8 :=
  print_string item.1 ++ 58 :: print_string item.2

def print_items : Items → List UInt8
  | [] => [125]
  | [item] => print_item item ++ [125]
  | item :: items => print_item item ++ 44 :: print_items items

def parse_chars : List UInt8 → Option (Text × List UInt8)
  | [] => none
  | 34 :: bs => some ([], bs)
  | 92 :: c :: bs => (parse_chars bs).map fun (t, rest) ↦ (c :: t, rest)
  | c :: bs => (parse_chars bs).map fun (t, rest) ↦ (c :: t, rest)

def parse_string : List UInt8 → Option (CString × List UInt8)
  | 34 :: bs => do
    let (t, rest) ← parse_chars bs
    if h : 0 ∉ t then return (⟨t, h⟩, rest) else none
  | _ => none

/-- The items up to the closing brace, `fuel` at most. -/
def parse_items : ℕ → List UInt8 → Option Items
  | 0, _ => none
  | fuel + 1, bs => do
    let (key, bs) ← parse_string bs
    match bs with
    | 58 :: bs =>
      let (value, bs) ← parse_string bs
      match bs with
      | 44 :: bs => (parse_items fuel bs).map fun items ↦ (key, value) :: items
      | 125 :: _ => some [(key, value)]
      | _ => none
    | _ => none

def parse_object : List UInt8 → Option Items
  | 123 :: 125 :: _ => some []
  | 123 :: bs => parse_items bs.length bs
  | _ => none

theorem parse_chars_escape (t : Text) (rest : List UInt8) :
    parse_chars (escape t ++ 34 :: rest) = some (t, rest) := by
  induction t with
  | nil => rfl
  | cons c t ih =>
    rw [escape, List.flatMap_cons, List.append_assoc]
    change parse_chars ((if c = 34 ∨ c = 92 then [92, c] else [c]) ++ (escape t ++ 34 :: rest)) = _
    split
    · rw [List.cons_append, List.cons_append, List.nil_append, parse_chars, ih]
      rfl
    · next hplain =>
        obtain ⟨hquote, hslash⟩ := not_or.mp hplain
        rw [List.cons_append, List.nil_append, parse_chars, ih]
        · rfl
        · exact hquote
        · exact fun _ _ hc _ ↦ hslash hc

theorem parse_string_print (t : CString) (rest : List UInt8) :
    parse_string (print_string t ++ rest) = some (t, rest) := by
  rw [print_string, List.cons_append, List.append_assoc, List.singleton_append, parse_string,
    parse_chars_escape]
  exact dif_pos t.2

theorem parse_items_print (items : Items) (hne : items ≠ []) (rest : List UInt8) {fuel : ℕ}
    (hfuel : items.length ≤ fuel) : parse_items fuel (print_items items ++ rest) = some items := by
  induction items generalizing fuel with
  | nil => exact (hne rfl).elim
  | cons item items ih =>
    obtain ⟨key, value⟩ := item
    obtain ⟨fuel, rfl⟩ := Nat.exists_eq_succ_of_ne_zero (Nat.ne_of_gt (lt_of_lt_of_le
      (Nat.succ_pos _) hfuel))
    -- behind the value stands a comma with the other items, or the brace
    have hitem : ∀ bs, parse_items (fuel + 1) (print_item (key, value) ++ bs) =
        match bs with
        | 44 :: bs => (parse_items fuel bs).map fun items ↦ (key, value) :: items
        | 125 :: _ => some [(key, value)]
        | _ => none := by
      intro bs
      rw [print_item, List.append_assoc, List.cons_append, parse_items, parse_string_print]
      simp only [Option.bind_eq_bind, Option.bind_some, parse_string_print]
    cases items with
    | nil =>
      rw [print_items, List.append_assoc, hitem]
      rfl
    | cons next items =>
      rw [print_items, List.append_assoc, hitem, List.cons_append]
      · change Option.map _ (parse_items fuel (print_items (next :: items) ++ rest)) = _
        rw [ih (List.cons_ne_nil _ _) (Nat.le_of_succ_le_succ hfuel)]
        rfl
      · exact List.cons_ne_nil _ _

theorem length_print_items (items : Items) : items.length < (print_items items).length := by
  induction items with
  | nil => exact Nat.one_pos
  | cons item items ih =>
    cases items with
    | nil =>
      rw [print_items, List.length_append, print_item, print_string]
      simp
    | cons next items =>
      rw [print_items, List.length_append]
      · simp only [List.length_cons] at ih ⊢
        omega
      · exact List.cons_ne_nil _ _

def simple : Cjson where
  print items := 123 :: print_items items
  parse := parse_object
  brace _ := rfl
  inverse items rest := by
    cases items with
    | nil => rfl
    | cons item items =>
      have hquote : ∃ bs, print_items (item :: items) = 34 :: bs := by
        cases items <;> exact ⟨_, rfl⟩
      obtain ⟨bs, hbs⟩ := hquote
      have hfuel : (item :: items).length ≤ (print_items (item :: items) ++ rest).length := by
        rw [List.length_append]
        exact (length_print_items _).le.trans (Nat.le_add_right _ _)
      have hparse := parse_items_print (item :: items) (List.cons_ne_nil _ _) rest hfuel
      rw [List.cons_append]
      rw [hbs] at hparse ⊢
      exact hparse

end Cjson

def nameKey : CString := ⟨ascii "name", by decide⟩

def boxValue : CString := ⟨ascii "box", by decide⟩

/-- The store beside a map that keeps the values set in the run when the device is loaded. -/
def stepKeeping (j : Cjson) (s : Eeprom_Storage × View) (op : Op) : Eeprom_Storage × View :=
  match op with
  | .load _ => ((s.1.call j op).1, s.2)
  | _ => step j s op

end Libobject.Board
