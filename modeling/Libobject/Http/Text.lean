import Libobject.Core.RingSearch
import Libobject.Core.String

/-!
# The texts of HTTP messages

What `String.split` and the helpers of both parsers make of a line, as functions on texts. All
delimiters are single bytes.
-/

namespace Libobject.Http

open Scan

/-- `__trim`. -/
def trim (s : Text) : Text := (s.dropWhile isSpace).rdropWhile isSpace

def str_to_lower (s : Text) : Text := s.map Str.toLower

/-- `replace(str, "\r\n", "", -1)`. -/
def replace_crlf : Text → Text
  | 13 :: 10 :: s => replace_crlf s
  | c :: s => c :: replace_crlf s
  | [] => []

/-- A piece is kept unless it is empty. -/
def piece (s : Text) : List Text := if s = [] then [] else [s]

/-- The loop of `__split` with `n` turns to go. -/
def splitFrom (delim : UInt8 → Bool) : ℕ → Text → List Text
  | 0, s => piece s
  | n + 1, s =>
    let first := s.takeWhile (fun c ↦ !delim c)
    if first.length < s.length then piece first ++ splitFrom delim n (s.drop (first.length + 1))
    else piece s

/-- Without a limit every turn goes on behind a byte of the text. -/
def split (delim : UInt8 → Bool) (num : ℤ) (s : Text) : List Text :=
  splitFrom delim (if 0 < num then num.toNat else s.length + 1) s

/-! ## Lines -/

theorem replace_crlf_eq {s : Text} (h : 13 ∉ s) : replace_crlf (s ++ CRLF) = s := by
  induction s with
  | nil => rfl
  | cons c s ih =>
    rw [List.mem_cons, not_or] at h
    rw [List.cons_append, replace_crlf, ih h.2]
    rintro - rfl -
    exact h.1 rfl

theorem splitFrom_piece {delim : UInt8 → Bool} {s : Text} {d : UInt8} (hne : s ≠ [])
    (hs : ∀ c ∈ s, delim c = false) (hd : delim d = true) (n : ℕ) (rest : Text) :
    splitFrom delim (n + 1) (s ++ d :: rest) = s :: splitFrom delim n rest := by
  have hfirst : (s ++ d :: rest).takeWhile (fun c ↦ !delim c) = s := by
    rw [List.takeWhile_append_of_pos (by simpa using hs), List.takeWhile_cons,
      if_neg (by simp [hd]),
      List.append_nil]
  have hrest : (s ++ d :: rest).drop (s.length + 1) = rest := by
    rw [← List.drop_drop, List.drop_left]
    rfl
  simp only [splitFrom, hfirst, hrest, piece, if_neg hne]
  rw [if_pos (by simp)]
  rfl

theorem splitFrom_zero {delim : UInt8 → Bool} {s : Text} (hne : s ≠ []) :
    splitFrom delim 0 s = [s] := if_neg hne

theorem dropWhile_eq_self {s : Text}
    (h : ∀ c ∈ s, isSpace c = false) : s.dropWhile isSpace = s := by
  cases s with
  | nil => rfl
  | cons c s =>
    rw [List.dropWhile_cons, if_neg]
    simp [h c List.mem_cons_self]

theorem trim_eq_self {s : Text} (h : ∀ c ∈ s, isSpace c = false) : trim s = s := by
  have hrev : ∀ c ∈ s.reverse, isSpace c = false := fun c hc ↦ h c (List.mem_reverse.mp hc)
  rw [trim, dropWhile_eq_self h, List.rdropWhile, dropWhile_eq_self hrev, List.reverse_reverse]

end Libobject.Http
