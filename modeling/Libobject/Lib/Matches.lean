import Mathlib.Data.List.Basic

/-!
# The matches of a pattern in a list

A search finds the first match of a pattern in a list. The matches of a list are found one behind
the other, each from the end of the one before; behind an empty match the search goes on one
further. The list is then the pieces between the matches, with the matches in their places.
-/

namespace Libobject.Matches

variable {α : Type*} (exec : List α → Option (ℕ × ℕ))

/-- What is found is in the list. -/
def Bounded : Prop := ∀ s a b, exec s = some (a, b) → a ≤ b ∧ b ≤ s.length

/-- The next match; behind an empty one it begins at least one further. -/
def next : Bool → List α → Option (ℕ × ℕ)
  | false, s => exec s
  | true, [] => none
  | true, _ :: s => (exec s).map fun m ↦ (m.1 + 1, m.2 + 1)

/-- The next `n` matches in what is left from `off` on. -/
def foundFrom : ℕ → ℕ → Bool → List α → List (ℕ × ℕ)
  | 0, _, _, _ => []
  | n + 1, off, again, s =>
    match next exec again s with
    | none => []
    | some (a, b) => (off + a, off + b) :: foundFrom n (off + b) (a == b) (s.drop b)

/-- The first `n` matches of what is left from `off` on. -/
def found (n off : ℕ) (s : List α) : List (ℕ × ℕ) := foundFrom exec n off false s

/-- What stands between the matches, from `off` on. -/
def pieces (t : List α) : ℕ → List (ℕ × ℕ) → List (List α)
  | off, [] => [t.drop off]
  | off, (a, b) :: ms => (t.drop off).take (a - off) :: pieces t b ms

def separators (t : List α) (ms : List (ℕ × ℕ)) : List (List α) :=
  ms.map fun m ↦ (t.drop m.1).take (m.2 - m.1)

/-- Pieces and separators in turn. -/
def weave : List (List α) → List (List α) → List α
  | p :: ps, s :: ss => p ++ s ++ weave ps ss
  | p :: _, [] => p
  | [], _ => []

/-- Each match begins at or behind the end of the one before. -/
def InOrder (len : ℕ) : ℕ → List (ℕ × ℕ) → Prop
  | _, [] => True
  | off, (a, b) :: ms => off ≤ a ∧ a ≤ b ∧ b ≤ len ∧ InOrder len b ms

variable {exec} {t s : List α} {off n : ℕ} {ms : List (ℕ × ℕ)}

theorem next_le (hexec : Bounded exec) {again : Bool} {a b : ℕ}
    (h : next exec again s = some (a, b)) : a ≤ b ∧ b ≤ s.length ∧ (again = true → 0 < a) := by
  cases again with
  | false =>
    obtain ⟨hab, hb⟩ := hexec s a b h
    exact ⟨hab, hb, nofun⟩
  | true =>
    cases s with
    | nil => cases h
    | cons c s =>
      obtain ⟨⟨a', b'⟩, hs, heq⟩ := Option.map_eq_some_iff.1 h
      obtain ⟨hab, hb⟩ := hexec s a' b' hs
      cases heq
      exact ⟨Nat.succ_le_succ hab, Nat.succ_le_succ hb, fun _ ↦ Nat.succ_pos a'⟩

theorem inOrder_foundFrom (hexec : Bounded exec) (again : Bool) (s : List α) :
    InOrder (off + s.length) off (foundFrom exec n off again s) := by
  induction n generalizing off again s with
  | zero => trivial
  | succ n ih =>
    rw [foundFrom]
    cases hs : next exec again s with
    | none => trivial
    | some m =>
      obtain ⟨a, b⟩ := m
      obtain ⟨hab, hb, -⟩ := next_le hexec hs
      have hrest := @ih (off + b) (a == b) (s.drop b)
      rw [List.length_drop, Nat.add_assoc, Nat.add_sub_cancel' hb] at hrest
      exact ⟨Nat.le_add_right off a, Nat.add_le_add_left hab off, Nat.add_le_add_left hb off,
        hrest⟩

theorem inOrder_found (hexec : Bounded exec) (s : List α) :
    InOrder (off + s.length) off (found exec n off s) :=
  inOrder_foundFrom hexec false s

theorem found_succ (s : List α) :
    found exec (n + 1) off s =
      match exec s with
      | none => []
      | some (a, b) => (off + a, off + b) :: foundFrom exec n (off + b) (a == b) (s.drop b) := rfl

theorem found_succ_of_lt {a b : ℕ} (h : exec s = some (a, b)) (hlt : a < b) :
    found exec (n + 1) off s = (off + a, off + b) :: found exec n (off + b) (s.drop b) := by
  have hne : (a == b) = false := beq_eq_false_iff_ne.2 (Nat.ne_of_lt hlt)
  rw [found_succ, h]
  dsimp only
  rw [hne, found]

theorem weave_pieces (h : InOrder t.length off ms) :
    weave (pieces t off ms) (separators t ms) = t.drop off := by
  induction ms generalizing off with
  | nil => rfl
  | cons m ms ih =>
    obtain ⟨a, b⟩ := m
    obtain ⟨hoff, hab, -, hms⟩ := h
    have hrest : (t.drop a).take (b - a) ++ t.drop b = t.drop a := by
      have hsplit := List.take_append_drop (b - a) (t.drop a)
      rwa [List.drop_drop, Nat.add_sub_cancel' hab] at hsplit
    have hfirst : (t.drop off).take (a - off) ++ t.drop a = t.drop off := by
      have hsplit := List.take_append_drop (a - off) (t.drop off)
      rwa [List.drop_drop, Nat.add_sub_cancel' hoff] at hsplit
    rw [pieces, separators, List.map_cons, weave, ← separators, ih hms, List.append_assoc, hrest,
      hfirst]

end Libobject.Matches
