import Mathlib.Data.UInt
import Libobject.Lib.Scan

/-!
# Texts of JSON

The grammar of JSON strings, arrays and objects, over any grammar of what they hold. A rendering of
values goes with a count of what in a value it does not render; it is faithful if the count bounds
how much longer every text of the value is, and if nothing but the count keeps the rendering from
being such a text.
-/

namespace Libobject.Json

variable {α : Type*}

/-! ## The grammar -/

/-- White space. -/
def Blank (t : Text) : Prop := ∀ c ∈ t, c = 32 ∨ c = 9 ∨ c = 10 ∨ c = 13

/-- A character that stands for itself in a string. -/
def Plain (c : UInt8) : Prop := 32 ≤ c ∧ c ≠ 34 ∧ c ≠ 92
  deriving Decidable

def hexDigit (c : UInt8) : Option ℕ :=
  if 48 ≤ c ∧ c ≤ 57 then some (c.toNat - 48)
  else if 65 ≤ c ∧ c ≤ 70 then some (c.toNat - 55)
  else if 97 ≤ c ∧ c ≤ 102 then some (c.toNat - 87)
  else none

def hex (digits : Text) : Option ℕ :=
  digits.foldlM (fun n c ↦ (hexDigit c).map (16 * n + ·)) 0

/-- What may follow a backslash and the bytes that it means. -/
inductive Escape : Text → Text → Prop
  | quote : Escape [34] [34]
  | backslash : Escape [92] [92]
  | slash : Escape [47] [47]
  | backspace : Escape [98] [8]
  | formFeed : Escape [102] [12]
  | lineFeed : Escape [110] [10]
  | carriageReturn : Escape [114] [13]
  | tab : Escape [116] [9]
  | unicode {h : Text} {c : Char} (hlen : h.length = 4) (hc : hex h = some c.toNat)
      (hlt : c.toNat < 0x10000) :
      Escape (117 :: h) (String.utf8EncodeChar c)
  | surrogates {h l : Text} {high low : ℕ} {c : Char} (hh : h.length = 4) (hl : l.length = 4)
      (hhigh : hex h = some (0xD800 + high)) (hlow : hex l = some (0xDC00 + low))
      (hlt : high < 0x400 ∧ low < 0x400) (hc : c.toNat = 0x10000 + 0x400 * high + low) :
      Escape (117 :: (h ++ 92 :: 117 :: l)) (String.utf8EncodeChar c)

/-- What stands between the quotation marks of a string. -/
inductive Body : Text → Text → Prop
  | nil : Body [] []
  | plain {c : UInt8} {t s : Text} (hc : Plain c) (h : Body t s) : Body (c :: t) (c :: s)
  | escape {e u t s : Text} (he : Escape e u) (h : Body t s) : Body (92 :: (e ++ t)) (u ++ s)

/-- Members of a list with commas between them. -/
inductive Items (R : Text → α → Prop) : Text → List α → Prop
  | one {t : Text} {v : α} (h : R t v) : Items R t [v]
  | cons {t u : Text} {v : α} {vs : List α} (h : R t v) (hs : Items R u vs) :
      Items R (t ++ 44 :: u) (v :: vs)

def Quoted (t s : Text) : Prop := ∃ body, t = 34 :: (body ++ [34]) ∧ Body body s

def Padded (R : Text → α → Prop) (t : Text) (v : α) : Prop :=
  ∃ l m r, t = l ++ (m ++ r) ∧ Blank l ∧ Blank r ∧ R m v

def Enclosed (o c : UInt8) (R : Text → α → Prop) (t : Text) (vs : List α) : Prop :=
  ∃ body, t = o :: (body ++ [c]) ∧ (vs = [] ∧ Blank body ∨ Items (Padded R) body vs)

def Member (R : Text → α → Prop) (t : Text) (m : Text × α) : Prop :=
  ∃ k v, t = k ++ 58 :: v ∧ Padded Quoted k m.1 ∧ Padded R v m.2

def Array (R : Text → α → Prop) : Text → List α → Prop := Enclosed 91 93 R

def Object (R : Text → α → Prop) : Text → List (Text × α) → Prop := Enclosed 123 125 (Member R)

/-! ## Renderings -/

def quoted (s : Text) : Text := 34 :: (s ++ [34])

def commas : List Text → Text
  | [] => []
  | [t] => t
  | t :: ts => t ++ 44 :: commas ts

def enclosed (o c : UInt8) (ts : List Text) : Text := o :: (commas ts ++ [c])

def member (r : α → Text) (m : Text × α) : Text := quoted m.1 ++ 58 :: r m.2

/-- How many characters of a string do not stand for themselves. -/
def special (s : Text) : ℕ := s.countP fun c ↦ decide ¬ Plain c

/-- A rendering `r` of the values of a grammar, with what it leaves out. -/
structure Faithful (R : Text → α → Prop) (r : α → Text) (e : α → ℕ) : Prop where
  le : ∀ {t v}, R t v → (r v).length + e v ≤ t.length
  rendered : ∀ {v}, e v = 0 → R (r v) v

theorem Faithful.iff {R : Text → α → Prop} {r : α → Text} {e : α → ℕ} (h : Faithful R r e) (v : α) :
    R (r v) v ↔ e v = 0 :=
  ⟨fun hv ↦ by have := h.le hv; omega, h.rendered⟩

theorem special_eq_zero {s : Text} : special s = 0 ↔ ∀ c ∈ s, Plain c := by
  simp only [special, List.countP_eq_zero, decide_eq_true_eq, not_not]

theorem special_le (s : Text) : special s ≤ s.length := List.countP_le_length

theorem special_append (s u : Text) : special (s ++ u) = special s + special u :=
  List.countP_append

theorem length_utf8_le (c : Char) : (String.utf8EncodeChar c).length ≤ 4 := by
  rw [String.length_utf8EncodeChar]
  exact Char.utf8Size_le_four c

theorem length_utf8_le_three {c : Char} (h : c.toNat < 0x10000) :
    (String.utf8EncodeChar c).length ≤ 3 := by
  rw [String.length_utf8EncodeChar, Char.utf8Size]
  have hval : c.val ≤ 0xffff := UInt32.le_iff_toNat_le.mpr (Nat.le_of_lt_succ h)
  split_ifs <;> first | omega | contradiction

theorem Escape.le {e u : Text} (h : Escape e u) : u.length + special u ≤ e.length + 1 := by
  cases h with
  | @unicode h c hlen hc hlt =>
    have hu := length_utf8_le_three hlt
    have hs := special_le (String.utf8EncodeChar c)
    rw [List.length_cons, hlen]
    omega
  | @surrogates h l high low c hh hl hhigh hlow hlt hc =>
    have hu := length_utf8_le c
    have hs := special_le (String.utf8EncodeChar c)
    simp only [List.length_cons, List.length_append, hh, hl]
    omega
  | _ => decide

theorem Body.le {t s : Text} (h : Body t s) : s.length + special s ≤ t.length := by
  induction h with
  | nil => exact le_rfl
  | @plain c t s hc _ ih =>
    rw [special, List.countP_cons_of_neg (by simpa using hc), ← special, List.length_cons,
      List.length_cons]
    omega
  | @escape e u t s he _ ih =>
    have := he.le
    rw [special_append, List.length_cons, List.length_append, List.length_append]
    omega

theorem body_of_plain {s : Text} (h : ∀ c ∈ s, Plain c) : Body s s := by
  induction s with
  | nil => exact .nil
  | cons c s ih =>
    exact .plain (h c List.mem_cons_self) (ih fun d hd ↦ h d (List.mem_cons_of_mem _ hd))

theorem faithful_quoted : Faithful Quoted quoted special where
  le := by
    rintro _ s ⟨body, rfl, hbody⟩
    have := hbody.le
    simp only [quoted, List.length_cons, List.length_append]
    omega
  rendered h := ⟨_, rfl, body_of_plain (special_eq_zero.mp h)⟩

theorem Faithful.padded {R : Text → α → Prop} {r : α → Text} {e : α → ℕ} (h : Faithful R r e) :
    Faithful (Padded R) r e where
  le := by
    rintro _ v ⟨left, m, right, rfl, -, -, hm⟩
    have := h.le hm
    simp only [List.length_append]
    omega
  rendered hv := ⟨[], _, [], by simp, fun _ hc ↦ absurd hc List.not_mem_nil,
    fun _ hc ↦ absurd hc List.not_mem_nil, h.rendered hv⟩

theorem Faithful.member {R : Text → α → Prop} {r : α → Text} {e : α → ℕ} (h : Faithful R r e) :
    Faithful (Member R) (member r) fun m ↦ special m.1 + e m.2 where
  le := by
    rintro _ m ⟨k, v, rfl, hk, hv⟩
    have hk := faithful_quoted.padded.le hk
    have hv := h.padded.le hv
    simp only [Json.member, List.length_append, List.length_cons]
    omega
  rendered {m} hm := ⟨_, _, rfl, faithful_quoted.padded.rendered (by omega),
    h.padded.rendered (by omega)⟩

theorem commas_cons_cons (t u : Text) (ts : List Text) :
    commas (t :: u :: ts) = t ++ 44 :: commas (u :: ts) := rfl

theorem mem_commas {c : UInt8} {ts : List Text} (h : c ∈ commas ts) : c = 44 ∨ ∃ t ∈ ts, c ∈ t := by
  induction ts with
  | nil => exact absurd h List.not_mem_nil
  | cons t ts ih =>
    cases ts with
    | nil => exact .inr ⟨t, List.mem_singleton_self t, h⟩
    | cons u ts =>
      rcases List.mem_append.mp (commas_cons_cons t u ts ▸ h) with h | h
      · exact .inr ⟨t, List.mem_cons_self, h⟩
      rcases List.mem_cons.mp h with h | h
      · exact .inl h
      · exact (ih h).imp_right fun ⟨v, hv, hc⟩ ↦ ⟨v, List.mem_cons_of_mem _ hv, hc⟩

theorem mem_enclosed {o c d : UInt8} {ts : List Text} (h : d ∈ enclosed o c ts) :
    d = o ∨ d = c ∨ d = 44 ∨ ∃ t ∈ ts, d ∈ t := by
  rcases List.mem_cons.mp h with h | h
  · exact .inl h
  rcases List.mem_append.mp h with h | h
  · exact .inr (.inr (mem_commas h))
  · exact .inr (.inl (List.mem_singleton.mp h))

theorem Items.ne_nil {R : Text → α → Prop} {t : Text} {vs : List α} (h : Items R t vs) :
    vs ≠ [] := by
  cases h <;> exact List.cons_ne_nil _ _

theorem Items.le {R : Text → α → Prop} {r : α → Text} {e : α → ℕ} (h : Faithful R r e) {t : Text}
    {vs : List α} (hitems : Items R t vs) :
    (commas (vs.map r)).length + (vs.map e).sum ≤ t.length := by
  induction hitems with
  | one hv => simpa [commas] using h.le hv
  | @cons t u v vs hv hs ih =>
    obtain ⟨w, vs, rfl⟩ := List.exists_cons_of_ne_nil hs.ne_nil
    have := h.le hv
    simp only [List.map_cons, commas_cons_cons, List.length_append, List.length_cons,
      List.sum_cons] at ih ⊢
    omega

theorem items_of_rendered {R : Text → α → Prop} {r : α → Text} {v : α} {vs : List α}
    (h : ∀ w ∈ v :: vs, R (r w) w) : Items R (commas ((v :: vs).map r)) (v :: vs) := by
  induction vs generalizing v with
  | nil => exact .one (h v List.mem_cons_self)
  | cons w vs ih =>
    exact .cons (h v List.mem_cons_self) (ih fun x hx ↦ h x (List.mem_cons_of_mem _ hx))

theorem Faithful.enclosed {R : Text → α → Prop} {r : α → Text} {e : α → ℕ} (h : Faithful R r e)
    (o c : UInt8) :
    Faithful (Enclosed o c R) (fun vs ↦ enclosed o c (vs.map r)) fun vs ↦ (vs.map e).sum where
  le := by
    rintro _ vs ⟨body, rfl, ⟨rfl, -⟩ | hitems⟩
    · simp [Json.enclosed, commas]
    · have := hitems.le h.padded
      simp only [Json.enclosed, List.length_cons, List.length_append]
      omega
  rendered {vs} hv := by
    refine ⟨_, rfl, ?_⟩
    cases vs with
    | nil => exact .inl ⟨rfl, fun _ hc ↦ absurd hc List.not_mem_nil⟩
    | cons v vs =>
      exact .inr (items_of_rendered fun w hw ↦ h.padded.rendered
        (List.sum_eq_zero_iff_forall_eq_nat.mp hv _ (List.mem_map_of_mem hw)))

end Libobject.Json
