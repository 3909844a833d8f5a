import Mathlib.Data.List.Basic
import Mathlib.Order.Lattice
import Libobject.Lib.Decimal

/-!
# Literals in the text of a statement

A literal is a number or a quoted text, in which a quote is written twice and a backslash changes
what follows it. A list of items is read against what is meant by it: each item has a text that
leads to its literal, and from the second on there is a separator in front. What somebody has
written without regard to these rules is read as it was meant just if it did not need them.
-/

namespace Libobject.SqlText

open Scan

def quote : UInt8 := 39

def backslash : UInt8 := 92

/-- What a backslash makes of the character behind it. -/
def escape (c : UInt8) : Text :=
  if c = 37 ∨ c = 95 then [backslash, c]
  else if c = 48 then [0]
  else if c = 98 then [8]
  else if c = 110 then [10]
  else if c = 114 then [13]
  else if c = 116 then [9]
  else if c = 90 then [26]
  else [c]

/-- The text up to the closing quote, and what is behind it. -/
def readString : Text → Option (Text × Text)
  | [] => none
  | [c] => if c = quote then some ([], []) else none
  | c :: d :: t =>
    if c = quote then
      if d = quote then (readString t).map fun r ↦ (quote :: r.1, r.2)
      else some ([], d :: t)
    else if c = backslash then (readString t).map fun r ↦ (escape d ++ r.1, r.2)
    else (readString (d :: t)).map fun r ↦ (c :: r.1, r.2)

inductive Literal
  | number (value : ℤ)
  | string (value : Text)
  deriving DecidableEq

def readNumber (t : Text) : Option (ℕ × Text) :=
  if t.takeWhile isDigit = [] then none
  else some (decimal (t.takeWhile isDigit), t.dropWhile isDigit)

def readLiteral : Text → Option (Literal × Text)
  | [] => none
  | c :: t =>
    if c = quote then (readString t).map fun r ↦ (.string r.1, r.2)
    else if c = 45 then (readNumber t).map fun r ↦ (.number (-r.1), r.2)
    else (readNumber (c :: t)).map fun r ↦ (.number r.1, r.2)

/-- Nothing in the text has to be written in another way. -/
def Plain : Text → Prop
  | [] => True
  | c :: t => c ≠ quote ∧ (c = backslash → t.head? = some 37 ∨ t.head? = some 95) ∧ Plain t

instance decidablePlain : (t : Text) → Decidable (Plain t)
  | [] => inferInstanceAs (Decidable True)
  | _ :: t =>
    have := decidablePlain t
    inferInstanceAs (Decidable (_ ∧ _ ∧ _))

/-! ## Quoted texts -/

section Quoted

variable {c d : UInt8} {s t x v r z : Text}

def Special (c : UInt8) : Prop := c = quote ∨ c = backslash

instance decidableSpecial (c : UInt8) : Decidable (Special c) :=
  inferInstanceAs (Decidable (_ ∨ _))

/-- What follows a literal is neither a quote nor a backslash. -/
def Begins (x : Text) : Prop := ∀ c ∈ x.head?, ¬Special c

theorem escape_cases (c : UInt8) :
    (escape c = [backslash, c] ∧ (c = 37 ∨ c = 95)) ∨
      (¬(c = 37 ∨ c = 95) ∧ ∃ e, escape c = [e] ∧ (Special e → e = c)) := by
  unfold escape
  by_cases hkept : c = 37 ∨ c = 95
  · exact .inl ⟨if_pos hkept, hkept⟩
  · refine .inr ⟨hkept, ?_⟩
    rw [if_neg hkept]
    split_ifs
    · exact ⟨0, rfl, fun h ↦ absurd h (by decide)⟩
    · exact ⟨8, rfl, fun h ↦ absurd h (by decide)⟩
    · exact ⟨10, rfl, fun h ↦ absurd h (by decide)⟩
    · exact ⟨13, rfl, fun h ↦ absurd h (by decide)⟩
    · exact ⟨9, rfl, fun h ↦ absurd h (by decide)⟩
    · exact ⟨26, rfl, fun h ↦ absurd h (by decide)⟩
    · exact ⟨c, rfl, fun _ ↦ rfl⟩

theorem readString_cons (c d : UInt8) (t : Text) :
    readString (c :: d :: t) =
      if c = quote then
        if d = quote then (readString t).map fun r ↦ (quote :: r.1, r.2)
        else some ([], d :: t)
      else if c = backslash then (readString t).map fun r ↦ (escape d ++ r.1, r.2)
      else (readString (d :: t)).map fun r ↦ (c :: r.1, r.2) := rfl

theorem readString_close (hx : Begins x) : readString (quote :: x) = some ([], x) := by
  cases x with
  | nil => rfl
  | cons d t =>
    have hd : d ≠ quote := fun h ↦ hx d rfl (.inl h)
    rw [readString_cons, if_pos rfl, if_neg hd]

theorem readString_pair (t : Text) :
    readString (quote :: quote :: t) = (readString t).map fun r ↦ (quote :: r.1, r.2) := by
  rw [readString_cons, if_pos rfl, if_pos rfl]

theorem readString_escape (d : UInt8) (t : Text) :
    readString (backslash :: d :: t) = (readString t).map fun r ↦ (escape d ++ r.1, r.2) := by
  rw [readString_cons, if_neg (by decide), if_pos rfl]

theorem readString_plain (hc : ¬Special c) (ht : t ≠ []) :
    readString (c :: t) = (readString t).map fun r ↦ (c :: r.1, r.2) := by
  cases t with
  | nil => exact absurd rfl ht
  | cons d t =>
    rw [readString_cons, if_neg fun h ↦ hc (.inl h), if_neg fun h ↦ hc (.inr h)]

theorem head_readString (hx : Begins x) (h : readString x = some (v, r)) :
    ∃ c w, v = c :: w ∧ ¬Special c := by
  cases x with
  | nil => exact nomatch h
  | cons c t =>
    have hc : ¬Special c := hx c rfl
    cases t with
    | nil =>
      exact nomatch (if_neg fun hq ↦ hc (.inl hq)).symm.trans h
    | cons d t =>
      rw [readString_plain hc (List.cons_ne_nil d t)] at h
      obtain ⟨⟨w, r'⟩, -, heq⟩ := Option.map_eq_some_iff.mp h
      cases heq
      exact ⟨c, w, rfl, hc⟩

theorem readString_of_plain (hs : Plain s) (hx : Begins x) :
    readString (s ++ quote :: x) = some (s, x) := by
  induction hlen : s.length using Nat.strongRecOn generalizing s with
  | ind n ih =>
    cases s with
    | nil => exact readString_close hx
    | cons c s =>
      obtain ⟨hquote, hback, hs⟩ := hs
      by_cases hc : c = backslash
      · subst hc
        cases s with
        | nil => simp at hback
        | cons d s =>
          have hd : d = 37 ∨ d = 95 := by simpa using hback rfl
          have hescape : escape d = [backslash, d] := if_pos hd
          rw [List.cons_append, List.cons_append, readString_escape, hescape,
            ih s.length (by rw [← hlen]; exact Nat.lt_succ_of_lt (Nat.lt_succ_self _))
              hs.2.2 rfl]
          rfl
      · have hspecial : ¬Special c := fun h ↦ h.elim hquote hc
        rw [List.cons_append, readString_plain hspecial (by simp),
          ih s.length (by rw [← hlen]; exact Nat.lt_succ_self _) hs rfl]
        rfl

theorem readString_ne (hx : Begins x) (hz : ∀ c ∈ z, Special c) (hne : z ≠ [])
    (h : readString (s ++ quote :: x) = some (v, r)) : v ≠ z ++ s := by
  induction hlen : s.length using Nat.strongRecOn generalizing s v z with
  | ind n ih =>
    obtain ⟨z₀, z, rfl⟩ := List.exists_cons_of_ne_nil hne
    obtain ⟨hz₀, hz⟩ := List.forall_mem_cons.mp hz
    have hgrown : ∀ {a b : UInt8}, Special a → Special b → ∀ c ∈ z ++ [a, b], Special c := by
      intro a b ha hb c hc
      rcases List.mem_append.mp hc with hc | hc
      · exact hz c hc
      · rcases List.mem_cons.mp hc with rfl | hc
        · exact ha
        · exact List.mem_singleton.mp hc ▸ hb
    intro heq
    cases s with
    | nil =>
      rw [List.nil_append, readString_close hx] at h
      cases h
      exact nomatch heq
    | cons c s =>
      by_cases hquote : c = quote
      · subst hquote
        cases s with
        | nil =>
          rw [List.singleton_append, readString_pair] at h
          obtain ⟨⟨w, r'⟩, hread, hv⟩ := Option.map_eq_some_iff.mp h
          cases hv
          obtain ⟨b, w', rfl, hb⟩ := head_readString hx hread
          cases z with
          | nil => exact hb ((List.cons.inj (List.cons.inj heq).2).1 ▸ .inl rfl)
          | cons z₁ z =>
            exact hb ((List.cons.inj (List.cons.inj heq).2).1 ▸ hz z₁ List.mem_cons_self)
        | cons d s =>
          by_cases hd : d = quote
          · subst hd
            rw [List.cons_append, List.cons_append, readString_pair] at h
            obtain ⟨⟨w, r'⟩, hread, hv⟩ := Option.map_eq_some_iff.mp h
            cases hv
            refine ih s.length (by rw [← hlen]; simp only [List.length_cons]; omega)
              (hgrown (.inl rfl) (.inl rfl)) (by simp) hread rfl ?_
            simpa using (List.cons.inj heq).2
          · rw [List.cons_append, List.cons_append, readString_cons, if_pos rfl, if_neg hd] at h
            cases h
            exact nomatch heq
      · by_cases hback : c = backslash
        · subst hback
          cases s with
          | nil =>
            rw [List.singleton_append, readString_escape] at h
            obtain ⟨⟨w, r'⟩, hread, hv⟩ := Option.map_eq_some_iff.mp h
            cases hv
            obtain ⟨b, w', rfl, hb⟩ := head_readString hx hread
            cases z with
            | nil => exact hb ((List.cons.inj (List.cons.inj heq).2).1 ▸ .inr rfl)
            | cons z₁ z =>
              exact hb
                ((List.cons.inj (List.cons.inj heq).2).1 ▸ hz z₁ List.mem_cons_self)
          | cons d s =>
            rw [List.cons_append, List.cons_append, readString_escape] at h
            obtain ⟨⟨w, r'⟩, hread, hv⟩ := Option.map_eq_some_iff.mp h
            cases hv
            rcases escape_cases d with ⟨hescape, hd⟩ | ⟨-, e, hescape, he⟩
            · rw [hescape] at heq
              have htail := (List.cons.inj heq).2
              have hplain : ¬Special d := by
                rcases hd with rfl | rfl <;> decide
              cases z with
              | nil => exact hplain ((List.cons.inj htail).1 ▸ .inr rfl)
              | cons z₁ z =>
                exact hplain ((List.cons.inj htail).1 ▸ hz z₁ List.mem_cons_self)
            · rw [hescape] at heq
              obtain ⟨rfl, htail⟩ := List.cons.inj heq
              obtain rfl := he hz₀
              refine ih s.length (by rw [← hlen]; simp only [List.length_cons]; omega)
                (hgrown (.inr rfl) hz₀) (by simp) hread rfl ?_
              simpa using htail
        · have hspecial : ¬Special c := fun h ↦ h.elim hquote hback
          rw [List.cons_append, readString_plain hspecial (by simp)] at h
          obtain ⟨⟨w, r'⟩, -, hv⟩ := Option.map_eq_some_iff.mp h
          cases hv
          exact hspecial ((List.cons.inj heq).1 ▸ hz₀)

theorem plain_of_readString (hx : Begins x) (h : readString (s ++ quote :: x) = some (s, r)) :
    Plain s ∧ r = x := by
  induction hlen : s.length using Nat.strongRecOn generalizing s with
  | ind n ih =>
    cases s with
    | nil =>
      rw [List.nil_append, readString_close hx] at h
      cases h
      exact ⟨trivial, rfl⟩
    | cons c s =>
      by_cases hquote : c = quote
      · subst hquote
        exfalso
        cases s with
        | nil =>
          rw [List.singleton_append, readString_pair] at h
          obtain ⟨⟨w, r'⟩, hread, hv⟩ := Option.map_eq_some_iff.mp h
          obtain ⟨b, w', rfl, -⟩ := head_readString hx hread
          exact nomatch hv
        | cons d s =>
          by_cases hd : d = quote
          · subst hd
            rw [List.cons_append, List.cons_append, readString_pair] at h
            obtain ⟨⟨w, r'⟩, hread, hv⟩ := Option.map_eq_some_iff.mp h
            have hw : w = quote :: s := (List.cons.inj (Prod.mk.inj hv).1).2
            have hquotes : ∀ c ∈ [quote], Special c := fun c hc ↦
              .inl (List.mem_singleton.mp hc)
            exact readString_ne hx hquotes (by simp) hread hw
          · rw [List.cons_append, List.cons_append, readString_cons, if_pos rfl, if_neg hd] at h
            exact nomatch h
      · by_cases hback : c = backslash
        · subst hback
          cases s with
          | nil =>
            rw [List.singleton_append, readString_escape] at h
            obtain ⟨⟨w, r'⟩, -, hv⟩ := Option.map_eq_some_iff.mp h
            exact absurd (List.cons.inj (Prod.mk.inj hv).1).1 (by decide)
          | cons d s =>
            rw [List.cons_append, List.cons_append, readString_escape] at h
            obtain ⟨⟨w, r'⟩, hread, hv⟩ := Option.map_eq_some_iff.mp h
            obtain ⟨hvalue, rfl⟩ := Prod.mk.inj hv
            rcases escape_cases d with ⟨hescape, hd⟩ | ⟨-, e, hescape, he⟩
            · rw [hescape] at hvalue
              have hw : w = s := (List.cons.inj (List.cons.inj hvalue).2).2
              subst hw
              obtain ⟨hplain, rfl⟩ :=
                ih w.length (by rw [← hlen]; simp only [List.length_cons]; omega) hread rfl
              have hdq : d ≠ quote ∧ d ≠ backslash := by
                rcases hd with rfl | rfl <;> decide
              refine ⟨⟨by decide, fun _ ↦ ?_, hdq.1, fun h ↦ absurd h hdq.2, hplain⟩, rfl⟩
              simpa using hd
            · exfalso
              rw [hescape] at hvalue
              obtain ⟨rfl, hw⟩ := List.cons.inj hvalue
              obtain rfl := he (.inr rfl)
              have hbacks : ∀ c ∈ [backslash], Special c := fun c hc ↦
                .inr (List.mem_singleton.mp hc)
              exact readString_ne hx hbacks (by simp) hread hw
        · have hspecial : ¬Special c := fun h ↦ h.elim hquote hback
          rw [List.cons_append, readString_plain hspecial (by simp)] at h
          obtain ⟨⟨w, r'⟩, hread, hv⟩ := Option.map_eq_some_iff.mp h
          obtain ⟨hvalue, rfl⟩ := Prod.mk.inj hv
          obtain rfl := (List.cons.inj hvalue).2
          obtain ⟨hplain, rfl⟩ :=
            ih w.length (by rw [← hlen]; exact Nat.lt_succ_self _) hread rfl
          exact ⟨⟨hquote, fun h ↦ absurd h hback, hplain⟩, rfl⟩

end Quoted

/-! ## Literals -/

/-- What follows a literal in a statement. -/
def Closes (x : Text) : Prop := ∀ c ∈ x.head?, ¬Special c ∧ isDigit c = false

theorem Closes.begins {x : Text} (h : Closes x) : Begins x := fun c hc ↦ (h c hc).1

theorem Closes.stops {x : Text} (h : Closes x) : Stops x := fun c hc ↦ (h c hc).2

def quoted (s : Text) : Text := quote :: s ++ [quote]

theorem readNumber_showNat (n : ℕ) {x : Text} (hx : Stops x) :
    readNumber (showNat n ++ x) = some (n, x) := by
  obtain ⟨htake, hdrop⟩ := takeWhile_digits (isDigit_showNat n) hx
  rw [readNumber, htake, hdrop, if_neg (showNat_ne_nil n), decimal_showNat]

theorem readLiteral_cons (c : UInt8) (t : Text) :
    readLiteral (c :: t) =
      if c = quote then (readString t).map fun r ↦ (.string r.1, r.2)
      else if c = 45 then (readNumber t).map fun r ↦ (.number (-r.1), r.2)
      else (readNumber (c :: t)).map fun r ↦ (.number r.1, r.2) := rfl

theorem readLiteral_showInt (z : ℤ) {x : Text} (hx : Stops x) :
    readLiteral (showInt z ++ x) = some (.number z, x) := by
  unfold showInt
  split
  · next hneg =>
      rw [List.cons_append, readLiteral_cons, if_neg (by decide), if_pos rfl,
        readNumber_showNat _ hx]
      have hz : -((z.natAbs : ℕ) : ℤ) = z := by omega
      exact congrArg (fun n ↦ some (Literal.number n, x)) hz
  · next hpos =>
      have hz : ((z.natAbs : ℕ) : ℤ) = z := by omega
      have hread := readNumber_showNat z.natAbs hx
      cases hshow : showNat z.natAbs with
      | nil => exact absurd hshow (showNat_ne_nil _)
      | cons c t =>
        have hdigit : isDigit c = true := by
          have hall := isDigit_showNat z.natAbs
          rw [hshow] at hall
          exact hall c List.mem_cons_self
        have hquote : c ≠ quote := by
          rintro rfl
          exact absurd hdigit (by decide)
        have hminus : c ≠ 45 := (isDigit_eq_true hdigit).2.1
        rw [hshow, List.cons_append] at hread
        rw [List.cons_append, readLiteral_cons, if_neg hquote, if_neg hminus, hread]
        exact congrArg (fun n ↦ some (Literal.number n, x)) hz

theorem readLiteral_quoted (s x : Text) :
    readLiteral (quoted s ++ x) =
      (readString (s ++ quote :: x)).map fun r ↦ (.string r.1, r.2) := by
  rw [quoted, List.cons_append, List.cons_append, readLiteral_cons, if_pos rfl, List.append_assoc]
  rfl

theorem readLiteral_quoted_iff {s x r : Text} (hx : Closes x) :
    readLiteral (quoted s ++ x) = some (.string s, r) ↔ Plain s ∧ r = x := by
  rw [readLiteral_quoted]
  constructor
  · intro h
    obtain ⟨⟨v, r'⟩, hread, heq⟩ := Option.map_eq_some_iff.mp h
    cases heq
    exact plain_of_readString hx.begins hread
  · rintro ⟨hs, rfl⟩
    rw [readString_of_plain hs hx.begins]
    rfl

/-- More text behind what is left over is left over with it. -/
def Extends {α : Type} (read : Text → Option (α × Text)) : Prop :=
  ∀ t v r z, read t = some (v, r) → r ≠ [] → read (t ++ z) = some (v, r ++ z)

theorem extends_readString : Extends readString := by
  intro t v r z h hr
  induction hlen : t.length using Nat.strongRecOn generalizing t v with
  | ind n ih =>
    match t with
    | [] => exact nomatch h
    | [c] =>
      unfold readString at h
      split_ifs at h
      cases h
      exact absurd rfl hr
    | c :: d :: t =>
      have hshort : t.length < n := by
        rw [← hlen]
        exact Nat.lt_succ_of_lt (Nat.lt_succ_self _)
      rw [List.cons_append, List.cons_append]
      unfold readString at h ⊢
      by_cases hquote : c = quote
      · by_cases hd : d = quote
        · simp only [if_pos hquote, if_pos hd] at h ⊢
          obtain ⟨⟨w, r'⟩, hread, heq⟩ := Option.map_eq_some_iff.mp h
          cases heq
          rw [ih t.length hshort t w hread rfl]
          rfl
        · simp only [if_pos hquote, if_neg hd] at h ⊢
          cases h
          rfl
      · by_cases hback : c = backslash
        · simp only [if_neg hquote, if_pos hback] at h ⊢
          obtain ⟨⟨w, r'⟩, hread, heq⟩ := Option.map_eq_some_iff.mp h
          cases heq
          rw [ih t.length hshort t w hread rfl]
          rfl
        · simp only [if_neg hquote, if_neg hback] at h ⊢
          obtain ⟨⟨w, r'⟩, hread, heq⟩ := Option.map_eq_some_iff.mp h
          cases heq
          have hnext := ih (d :: t).length (by rw [← hlen]; exact Nat.lt_succ_self _) (d :: t) w
            hread rfl
          rw [List.cons_append] at hnext
          rw [hnext]
          rfl

theorem extends_readNumber : Extends readNumber := by
  intro t v r z h hr
  unfold readNumber at h
  split_ifs at h with hdigits
  cases h
  have hsplit := List.takeWhile_append_dropWhile (p := isDigit) (l := t)
  have hstops : Stops (t.dropWhile isDigit ++ z) := by
    intro c hc
    obtain ⟨d, rest, hrest⟩ := List.exists_cons_of_ne_nil hr
    rw [hrest, List.cons_append, List.head?_cons, Option.mem_some_iff] at hc
    have hd := List.head?_dropWhile_not isDigit t
    rw [hrest] at hd
    rw [← hc]
    simpa using hd
  obtain ⟨htake, hdrop⟩ :=
    takeWhile_digits (fun c hc ↦ List.mem_takeWhile_imp hc) hstops
  rw [readNumber]
  rw [← List.append_assoc, hsplit] at htake hdrop
  rw [htake, hdrop, if_neg hdigits]

theorem extends_readLiteral : Extends readLiteral := by
  intro t v r z h hr
  cases t with
  | nil => exact nomatch h
  | cons c t =>
    rw [List.cons_append]
    unfold readLiteral at h ⊢
    by_cases hquote : c = quote
    · simp only [if_pos hquote] at h ⊢
      obtain ⟨⟨w, r'⟩, hread, heq⟩ := Option.map_eq_some_iff.mp h
      cases heq
      rw [extends_readString t w r' z hread hr]
      rfl
    · by_cases hminus : c = 45
      · simp only [if_neg hquote, if_pos hminus] at h ⊢
        obtain ⟨⟨w, r'⟩, hread, heq⟩ := Option.map_eq_some_iff.mp h
        cases heq
        rw [extends_readNumber t w r' z hread hr]
        rfl
      · simp only [if_neg hquote, if_neg hminus] at h ⊢
        obtain ⟨⟨w, r'⟩, hread, heq⟩ := Option.map_eq_some_iff.mp h
        cases heq
        have hnext := extends_readNumber (c :: t) w r' z hread hr
        rw [List.cons_append] at hnext
        rw [hnext]
        rfl

/-! ## Lists of literals -/

def comma : Text := [44, 32]

def separator : Bool → List Text
  | true => [comma]
  | false => []

/-- Reads the literals that are meant, each behind the text that leads to it. -/
def readItems : Bool → List (Text × Literal) → Text → Option Text
  | _, [], t => some t
  | more, (lead, l) :: items, t => do
    let t ← ((separator more).flatten ++ lead).isPrefixOf? t
    let (l', t) ← readLiteral t
    if l' = l then readItems true items t else none

/-- What somebody does for an item: he leaves it out, or he writes a number for another one, or a
text between quotes. -/
inductive Item
  | skipped
  | number (lead : Text) (shown value : ℤ)
  | string (lead value : Text)

namespace Item

def pair : Item → Option (Text × Literal)
  | skipped => none
  | number lead _ value => some (lead, .number value)
  | string lead value => some (lead, .string value)

def text : Item → Option Text
  | skipped => none
  | number lead shown _ => some (lead ++ showInt shown)
  | string lead value => some (lead ++ quoted value)

end Item

/-- The pieces of a list in which the separator is written before it is known whether the item is
left out. -/
def pieces : Bool → List Item → List Text
  | _, [] => []
  | more, i :: items =>
    separator more ++ match i.text with
      | none => pieces more items
      | some t => t :: pieces true items

/-- Nothing is left out behind an item that was written, and what is written is what is meant. -/
def Right : Bool → List Item → Prop
  | _, [] => True
  | more, .skipped :: items => more = false ∧ Right more items
  | _, .number _ shown value :: items => shown = value ∧ Right true items
  | _, .string _ value :: items => Plain value ∧ Right true items

instance decidableRight : (more : Bool) → (items : List Item) → Decidable (Right more items)
  | _, [] => inferInstanceAs (Decidable True)
  | more, .skipped :: items =>
    have := decidableRight more items
    inferInstanceAs (Decidable (_ ∧ _))
  | _, .number _ _ _ :: items =>
    have := decidableRight true items
    inferInstanceAs (Decidable (_ ∧ _))
  | _, .string _ _ :: items =>
    have := decidableRight true items
    inferInstanceAs (Decidable (_ ∧ _))

section Items

variable {more : Bool} {items : List Item} {pairs : List (Text × Literal)} {x t r z : Text}

theorem bind_isPrefixOf? {α : Type} {p t : Text} {f : Text → Option α} {v : α} :
    (p.isPrefixOf? t).bind f = some v ↔ ∃ u, t = p ++ u ∧ f u = some v := by
  simp only [Option.bind_eq_some_iff, List.isPrefixOf?_eq_some_iff_append_eq, eq_comm]

theorem readItems_cons_eq_some {lead : Text} {l : Literal} :
    readItems more ((lead, l) :: pairs) t = some r ↔
      ∃ u, t = (separator more).flatten ++ lead ++ u ∧
        ∃ v, readLiteral u = some (l, v) ∧ readItems true pairs v = some r := by
  rw [readItems]
  refine bind_isPrefixOf?.trans ?_
  simp only [Option.bind_eq_bind, Option.bind_eq_some_iff, Prod.exists]
  constructor
  · rintro ⟨u, rfl, l', v, hread, hrest⟩
    split_ifs at hrest with hl
    exact ⟨u, rfl, v, hl ▸ hread, hrest⟩
  · rintro ⟨u, rfl, v, hread, hrest⟩
    exact ⟨u, rfl, l, v, hread, by rw [if_pos rfl, hrest]⟩

theorem readItems_append (h : readItems more pairs t = some r) (hr : r ≠ []) (z : Text) :
    readItems more pairs (t ++ z) = some (r ++ z) := by
  induction pairs generalizing more t with
  | nil => exact congrArg some (by rw [Option.some.inj h])
  | cons p pairs ih =>
    obtain ⟨u, rfl, v, hread, hrest⟩ := readItems_cons_eq_some.mp h
    have hv : v ≠ [] := by
      rintro rfl
      cases pairs with
      | nil => exact hr (Option.some.inj hrest).symm
      | cons q pairs =>
        obtain ⟨u, hu, -⟩ := readItems_cons_eq_some.mp hrest
        exact nomatch hu
    refine readItems_cons_eq_some.mpr ⟨u ++ z, by rw [List.append_assoc], v ++ z, ?_, ih hrest⟩
    exact extends_readLiteral u p.2 v z hread hv

theorem closes_pieces (hx : Closes x) : Closes ((pieces true items).flatten ++ x) := by
  cases items with
  | nil => exact hx
  | cons i items =>
    intro c hc
    have hcomma : c = 44 := (Option.mem_some_iff.mp hc).symm
    subst hcomma
    decide

theorem readItems_comma {lead : Text} {l : Literal} (hlead : lead.head? ≠ some 44) :
    readItems more ((lead, l) :: pairs) ((separator more).flatten ++ (comma ++ t)) = none := by
  rw [Option.eq_none_iff_forall_not_mem]
  intro r hr
  obtain ⟨u, hu, v, hread, -⟩ := readItems_cons_eq_some.mp hr
  rw [List.append_assoc, List.append_cancel_left_eq] at hu
  cases lead with
  | nil =>
    rw [List.nil_append] at hu
    subst hu
    exact nomatch hread
  | cons c lead =>
    have hc : c = 44 := ((List.cons.inj hu).1).symm
    subst hc
    exact hlead rfl

theorem pieces_cons (more : Bool) (i : Item) (items : List Item) :
    pieces more (i :: items) =
      separator more ++ match i.text with
        | none => pieces more items
        | some t => t :: pieces true items := rfl

theorem flatten_pieces_number (lead : Text) (shown value : ℤ) :
    (pieces more (.number lead shown value :: items)).flatten ++ x =
      (separator more).flatten ++ lead ++
        (showInt shown ++ ((pieces true items).flatten ++ x)) := by
  simp [pieces_cons, Item.text]

theorem flatten_pieces_string (lead value : Text) :
    (pieces more (.string lead value :: items)).flatten ++ x =
      (separator more).flatten ++ lead ++ (quoted value ++ ((pieces true items).flatten ++ x)) := by
  simp [pieces_cons, Item.text]

theorem right_of_readItems (hlead : ∀ p ∈ items.filterMap Item.pair, p.1.head? ≠ some 44)
    (hx : Closes x) (hr : r.head? ≠ some 44)
    (h : readItems more (items.filterMap Item.pair) ((pieces more items).flatten ++ x) = some r) :
    Right more items ∧ r = x := by
  induction items generalizing more with
  | nil => exact ⟨trivial, (Option.some.inj h).symm⟩
  | cons i items ih =>
    cases i with
    | skipped =>
      have hkept : (Item.skipped :: items).filterMap Item.pair = items.filterMap Item.pair := rfl
      rw [hkept] at h hlead
      cases more with
      | false =>
        obtain ⟨hright, hrx⟩ := ih hlead h
        exact ⟨⟨rfl, hright⟩, hrx⟩
      | true =>
        exfalso
        have htext : (pieces true (Item.skipped :: items)).flatten ++ x =
            comma ++ ((pieces true items).flatten ++ x) := rfl
        rw [htext] at h
        cases hpairs : items.filterMap Item.pair with
        | nil =>
          rw [hpairs] at h
          cases h
          exact hr rfl
        | cons p pairs =>
          have hp : p.1.head? ≠ some 44 := hlead p (hpairs ▸ List.mem_cons_self)
          cases items with
          | nil => exact nomatch hpairs
          | cons i items =>
            have hcomma : (pieces true (i :: items)).flatten ++ x =
                comma ++ ((pieces true (i :: items)).flatten ++ x).drop 2 := by
              rfl
            have hnone : readItems true (p :: pairs) (comma ++ (comma ++
                ((pieces true (i :: items)).flatten ++ x).drop 2)) = none :=
              readItems_comma hp
            rw [hpairs, hcomma, hnone] at h
            exact nomatch h
    | number lead shown value =>
      rw [flatten_pieces_number] at h
      obtain ⟨u, hu, v, hread, hrest⟩ := readItems_cons_eq_some.mp h
      obtain rfl := List.append_cancel_left hu
      rw [readLiteral_showInt shown (closes_pieces hx).stops] at hread
      obtain ⟨hvalue, rfl⟩ := Prod.mk.inj (Option.some.inj hread)
      obtain ⟨hright, hrx⟩ := ih (fun p hp ↦ hlead p (List.mem_cons_of_mem _ hp)) hrest
      exact ⟨⟨Literal.number.inj hvalue, hright⟩, hrx⟩
    | string lead value =>
      rw [flatten_pieces_string] at h
      obtain ⟨u, hu, v, hread, hrest⟩ := readItems_cons_eq_some.mp h
      obtain rfl := List.append_cancel_left hu
      obtain ⟨hplain, rfl⟩ := (readLiteral_quoted_iff (closes_pieces hx)).mp hread
      obtain ⟨hright, hrx⟩ := ih (fun p hp ↦ hlead p (List.mem_cons_of_mem _ hp)) hrest
      exact ⟨⟨hplain, hright⟩, hrx⟩

theorem readItems_of_right (hx : Closes x) (h : Right more items) :
    readItems more (items.filterMap Item.pair) ((pieces more items).flatten ++ x) = some x := by
  induction items generalizing more with
  | nil => rfl
  | cons i items ih =>
    cases i with
    | skipped =>
      obtain ⟨rfl, h⟩ := h
      exact ih h
    | number lead shown value =>
      obtain ⟨rfl, h⟩ := h
      rw [flatten_pieces_number]
      refine readItems_cons_eq_some.mpr ⟨_, rfl, _, ?_, ih h⟩
      exact readLiteral_showInt shown (closes_pieces hx).stops
    | string lead value =>
      obtain ⟨hplain, h⟩ := h
      rw [flatten_pieces_string]
      refine readItems_cons_eq_some.mpr ⟨_, rfl, _, ?_, ih h⟩
      exact (readLiteral_quoted_iff (closes_pieces hx)).mpr ⟨hplain, rfl⟩

/-- What is read of a text that was cut off is what was written, and the rest of it is a beginning
of what stood behind. -/
theorem right_of_take {a u : Text} {n : ℕ}
    (hlead : ∀ p ∈ items.filterMap Item.pair, p.1.head? ≠ some 44) (hx : Closes x)
    (hr : r.head? ≠ some 44) (hne : r ≠ [])
    (hu : (a ++ ((pieces more items).flatten ++ x)).take n = a ++ u)
    (hread : readItems more (items.filterMap Item.pair) u = some r) :
    Right more items ∧ ∃ z, r ++ z = x ∧
      (a ++ ((pieces more items).flatten ++ x)).take n = a ++ (pieces more items).flatten ++ r := by
  have hsplit := List.take_append_drop n (a ++ ((pieces more items).flatten ++ x))
  generalize (a ++ ((pieces more items).flatten ++ x)).drop n = z at hsplit
  rw [hu, List.append_assoc, List.append_cancel_left_eq] at hsplit
  have hlonger := readItems_append hread hne z
  rw [hsplit] at hlonger
  have hhead : (r ++ z).head? ≠ some 44 := by
    obtain ⟨c, t, rfl⟩ := List.exists_cons_of_ne_nil hne
    exact hr
  obtain ⟨hright, hrz⟩ := right_of_readItems hlead hx hhead hlonger
  refine ⟨hright, z, hrz, ?_⟩
  rw [hu, List.append_assoc, List.append_cancel_left_eq]
  rw [← hrz, ← List.append_assoc] at hsplit
  exact List.append_cancel_right hsplit

theorem readItems_take_iff (more : Bool) (a : Text) (n : ℕ)
    (hlead : ∀ p ∈ items.filterMap Item.pair, p.1.head? ≠ some 44) (hx : Closes x)
    (hcomma : x.head? ≠ some 44) (hne : x ≠ []) :
    (∃ u, (a ++ ((pieces more items).flatten ++ x)).take n = a ++ u ∧
        readItems more (items.filterMap Item.pair) u = some x) ↔
      Right more items ∧ (a ++ ((pieces more items).flatten ++ x)).length ≤ n := by
  constructor
  · rintro ⟨u, hu, hread⟩
    obtain ⟨hright, z, -, htake⟩ := right_of_take hlead hx hcomma hne hu hread
    refine ⟨hright, ?_⟩
    rw [List.append_assoc] at htake
    have hlen := congrArg List.length htake
    rw [List.length_take] at hlen
    exact min_eq_right_iff.mp hlen
  · rintro ⟨hright, hle⟩
    rw [List.take_of_length_le hle]
    exact ⟨_, rfl, readItems_of_right hx hright⟩

theorem readItems_take_literal_iff (more : Bool) (a : Text) (n : ℕ) {b t : Text} {l : Literal}
    (hlead : ∀ p ∈ items.filterMap Item.pair, p.1.head? ≠ some 44) (hb : Closes (b ++ t))
    (hcomma : b.head? ≠ some 44) (hne : b ≠ []) :
    (∃ u, (a ++ ((pieces more items).flatten ++ (b ++ t))).take n = a ++ u ∧
        ∃ v, readItems more (items.filterMap Item.pair) u = some (b ++ v) ∧
          readLiteral v = some (l, [])) ↔
      Right more items ∧
        readLiteral (t.take (n - (a ++ (pieces more items).flatten ++ b).length)) =
          some (l, []) := by
  have hhead : ∀ v : Text, (b ++ v).head? ≠ some 44 := by
    obtain ⟨c, b, rfl⟩ := List.exists_cons_of_ne_nil hne
    exact fun _ ↦ hcomma
  have hparts : a ++ ((pieces more items).flatten ++ (b ++ t)) =
      a ++ (pieces more items).flatten ++ b ++ t := by
    simp only [List.append_assoc]
  constructor
  · rintro ⟨u, hu, v, hread, hv⟩
    obtain ⟨hright, z, -, htake⟩ := right_of_take hlead hb (hhead v) (by simp [hne]) hu hread
    refine ⟨hright, ?_⟩
    rw [hparts, ← List.append_assoc, List.take_append] at htake
    have hle : (a ++ (pieces more items).flatten ++ b).length ≤ n := by
      have hlen := congrArg List.length htake
      rw [← List.take_append, List.length_take] at hlen
      simp only [List.length_append] at hlen ⊢
      omega
    rw [List.take_of_length_le hle, List.append_cancel_left_eq] at htake
    rw [htake]
    exact hv
  · rintro ⟨hright, hv⟩
    have hle : (a ++ (pieces more items).flatten ++ b).length ≤ n := by
      by_contra hlt
      rw [Nat.sub_eq_zero_of_le (Nat.le_of_not_le hlt), List.take_zero] at hv
      exact nomatch hv
    rw [hparts, List.take_append, List.take_of_length_le hle, List.append_assoc, List.append_assoc]
    refine ⟨_, rfl, t.take (n - (a ++ (pieces more items).flatten ++ b).length), ?_, hv⟩
    refine readItems_of_right ?_ hright
    obtain ⟨c, b, rfl⟩ := List.exists_cons_of_ne_nil hne
    exact fun d hd ↦ hb d hd

end Items

/-! ## Texts that were cut off -/

section Cut

variable {n : ℕ} {s t u v : Text}

/-- The texts do not differ before the place. -/
def Agree (n : ℕ) (s t : Text) : Prop := s.take n = t.take n

theorem agree_refl (n : ℕ) (s : Text) : Agree n s s := rfl

theorem agree_take (n : ℕ) (s : Text) : Agree n (s.take n) s := by
  rw [Agree, List.take_take, min_self]

theorem Agree.append (h : Agree n s t) (h' : Agree n u v) : Agree n (s ++ u) (t ++ v) := by
  unfold Agree at h h' ⊢
  rw [List.take_append, List.take_append, h]
  have hlen := congrArg List.length h
  rw [List.length_take, List.length_take] at hlen
  rcases Nat.lt_or_ge s.length n with hlt | hge
  · have heq : s.length = t.length := by omega
    have hcut := congrArg (List.take (n - t.length)) h'
    rw [List.take_take, List.take_take, min_eq_left (Nat.sub_le _ _)] at hcut
    rw [heq, hcut]
  · have hge' : n ≤ t.length := by omega
    rw [Nat.sub_eq_zero_of_le hge, Nat.sub_eq_zero_of_le hge']
    rfl

theorem agree_flatten_map {f : Text → Text} (hf : ∀ t, Agree n (f t) t) (ts : List Text) :
    Agree n (ts.map f).flatten ts.flatten := by
  induction ts with
  | nil => exact agree_refl n []
  | cons t ts ih =>
    rw [List.map_cons, List.flatten_cons, List.flatten_cons]
    exact (hf t).append ih

end Cut

end Libobject.SqlText
