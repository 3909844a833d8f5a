import Libobject.Core.String
import Libobject.Lib.Machine
import Libobject.Lib.Touching
import Mathlib.Data.List.DropRight

/-!
# White space around commas

The loop of `str_remove_spaces_around_comma` over the bytes of a string and its terminator. A byte
in front of the string or behind the terminator is undefined.
-/

namespace Libobject.Commas

open Scan Touching

abbrev comma : UInt8 := 44

/-- The bytes from the string's first one to its terminator, and where the loop is. -/
structure State where
  buf : List UInt8
  pos : ℕ

/-- `start + 1`, where `start` goes back from the comma. -/
def skipBack (buf : List UInt8) : ℕ → Option ℕ
  | 0 => some 0
  | i + 1 => do
    let c ← buf[i]?
    if isSpace c then skipBack buf i else some (i + 1)

/-- `end`, which goes on over the bytes behind the comma. -/
def skipAhead : List UInt8 → ℕ → Option ℕ
  | [], _ => none
  | c :: bytes, i => if c ≠ 0 ∧ isSpace c then skipAhead bytes (i + 1) else some i

def strlen (buf : List UInt8) (p : ℕ) : Option ℕ :=
  if 0 ∈ buf.drop p then some (cString (buf.drop p)).length else none

/-- What is done at a comma. -/
def trimComma (s : State) : Option State := do
  let start ← skipBack s.buf s.pos
  let stop ← skipAhead (s.buf.drop (s.pos + 1)) (s.pos + 1)
  let rest ← strlen s.buf stop
  let buf ← Buffer.move s.buf (s.pos + 1) stop (rest + 1)
  if start < s.pos then
    let rest ← strlen buf s.pos
    let buf ← Buffer.move buf start s.pos (rest + 1)
    return ⟨buf, start⟩
  else return ⟨buf, s.pos + 1⟩

/-- One turn of the loop. -/
def turn (s : State) : Move State (List UInt8) :=
  match s.buf[s.pos]? with
  | none => .wild
  | some c =>
    if c = 0 then .done s.buf
    else if c = comma then
      match trimComma s with
      | none => .wild
      | some t => .next t
    else .next { s with pos := s.pos + 1 }

/-- The function ends with the bytes `buf'`. -/
def Ends (buf buf' : List UInt8) : Prop := ∃ n, Machine.after turn n ⟨buf, 0⟩ = .done buf'

def isComma (c : UInt8) : Bool := c = comma

/-! ## At a comma -/

theorem skipBack_eq (front rest : List UInt8) :
    skipBack (front.reverse ++ rest) front.length = some (front.dropWhile isSpace).length := by
  induction front generalizing rest with
  | nil => rfl
  | cons c front ih =>
    have hget : ((c :: front).reverse ++ rest)[front.length]? = some c := by simp
    rw [List.length_cons, skipBack, hget, Option.bind_eq_bind, Option.bind_some]
    by_cases hc : isSpace c = true
    · rw [if_pos hc, List.dropWhile_cons_of_pos hc]
      simpa using ih (c :: rest)
    · rw [if_neg hc, List.dropWhile_cons_of_neg hc, List.length_cons]

theorem skipAhead_eq {s : List UInt8} (h : 0 ∉ s) (rest : List UInt8) (i : ℕ) :
    skipAhead (s ++ 0 :: rest) i = some (i + (s.takeWhile isSpace).length) := by
  induction s generalizing i with
  | nil => simp [skipAhead]
  | cons c s ih =>
    rw [List.mem_cons, not_or] at h
    have hne : c ≠ 0 := fun hc ↦ h.1 hc.symm
    rw [List.cons_append, skipAhead]
    by_cases hc : isSpace c = true
    · rw [if_pos ⟨hne, hc⟩, ih h.2, List.takeWhile_cons_of_pos hc, List.length_cons]
      congr 1
      omega
    · rw [if_neg (fun hand ↦ hc hand.2), List.takeWhile_cons_of_neg hc]
      rfl

theorem strlen_eq {pre s : List UInt8} {p : ℕ} (hp : pre.length = p) (h : 0 ∉ s)
    (rest : List UInt8) : strlen (pre ++ (s ++ 0 :: rest)) p = some s.length := by
  have hdrop : (pre ++ (s ++ 0 :: rest)).drop p = s ++ 0 :: rest := List.drop_left' hp
  rw [strlen, hdrop, if_pos (by simp), cString_append h]

theorem move_back (a x b post : List UInt8) (src n : ℕ) (hsrc : a.length + x.length = src)
    (hn : b.length = n) :
    ∃ post', Buffer.move (a ++ (x ++ (b ++ post))) a.length src n = some (a ++ (b ++ post')) := by
  subst hsrc hn
  have hdrop : (a ++ (x ++ (b ++ post))).drop (a.length + x.length) = b ++ post := by
    rw [← List.append_assoc, List.drop_left' (List.length_append ..)]
  refine ⟨(x ++ (b ++ post)).drop b.length, ?_⟩
  rw [Buffer.move, if_pos (by simp only [List.length_append]; omega), hdrop, List.take_left,
    Buffer.put_append a _ b (by simp only [List.length_append]; omega), List.append_assoc]

/-- The white space on both sides of a comma is taken out; if there was some in front, the loop
stays at the comma. -/
theorem trimComma_eq {s : List UInt8} (h : 0 ∉ s) (front rest : List UInt8) :
    ∃ rest', trimComma ⟨front.reverse ++ comma :: (s ++ 0 :: rest), front.length⟩ =
      some ⟨(front.dropWhile isSpace).reverse ++ comma :: (s.dropWhile isSpace ++ 0 :: rest'),
        if (front.dropWhile isSpace).length < front.length then (front.dropWhile isSpace).length
        else front.length + 1⟩ := by
  have hrev : front.reverse.length = front.length := List.length_reverse
  have hkept : 0 ∉ s.dropWhile isSpace := fun hmem ↦ h ((List.dropWhile_suffix _).subset hmem)
  have hspaces := List.takeWhile_append_dropWhile (p := isSpace) (l := s)
  -- the four reads
  have hback := skipBack_eq front (comma :: (s ++ 0 :: rest))
  have hahead : skipAhead ((front.reverse ++ comma :: (s ++ 0 :: rest)).drop (front.length + 1))
      (front.length + 1) = some (front.length + 1 + (s.takeWhile isSpace).length) := by
    have hdrop : (front.reverse ++ comma :: (s ++ 0 :: rest)).drop (front.length + 1) =
        s ++ 0 :: rest := by
      rw [← List.drop_drop, List.drop_left' hrev]
      rfl
    rw [hdrop, skipAhead_eq h]
  have hlen : strlen (front.reverse ++ comma :: (s ++ 0 :: rest))
      (front.length + 1 + (s.takeWhile isSpace).length) =
        some (s.dropWhile isSpace).length := by
    have hparts : front.reverse ++ comma :: (s ++ 0 :: rest) =
        (front.reverse ++ comma :: s.takeWhile isSpace) ++ (s.dropWhile isSpace ++ 0 :: rest) := by
      simp only [List.append_assoc, List.cons_append]
      rw [← List.append_assoc (s.takeWhile isSpace), hspaces]
    rw [hparts]
    apply strlen_eq _ hkept
    simp only [List.length_append, List.length_cons, hrev]
    omega
  obtain ⟨rest₁, hmove⟩ := move_back (front.reverse ++ [comma]) (s.takeWhile isSpace)
    (s.dropWhile isSpace ++ [0]) rest (front.length + 1 + (s.takeWhile isSpace).length)
    ((s.dropWhile isSpace).length + 1) (by simp) (by simp)
  have hfirst : Buffer.move (front.reverse ++ comma :: (s ++ 0 :: rest)) (front.length + 1)
      (front.length + 1 + (s.takeWhile isSpace).length) ((s.dropWhile isSpace).length + 1) =
        some (front.reverse ++ comma :: (s.dropWhile isSpace ++ 0 :: rest₁)) := by
    have hparts : s ++ 0 :: rest =
        s.takeWhile isSpace ++ (s.dropWhile isSpace ++ 0 :: rest) := by
      rw [← List.append_assoc, hspaces]
    rw [hparts]
    simpa using hmove
  simp only [trimComma, hback, hahead, hlen, hfirst, Option.bind_eq_bind, Option.bind_some]
  split
  · next hlt =>
      have hlen₁ : strlen (front.reverse ++ comma :: (s.dropWhile isSpace ++ 0 :: rest₁))
          front.length = some ((s.dropWhile isSpace).length + 1) :=
        strlen_eq (s := comma :: s.dropWhile isSpace) hrev (by simpa [comma] using hkept) rest₁
      have hparts : front.reverse =
          (front.dropWhile isSpace).reverse ++ (front.takeWhile isSpace).reverse := by
        rw [← List.reverse_append, List.takeWhile_append_dropWhile]
      have hsum := congrArg List.length hparts
      simp only [List.length_append, List.length_reverse] at hsum
      obtain ⟨rest₂, hmove₂⟩ := move_back (front.dropWhile isSpace).reverse
        (front.takeWhile isSpace).reverse (comma :: (s.dropWhile isSpace ++ [0])) rest₁
        front.length ((s.dropWhile isSpace).length + 1 + 1)
        (by simp only [List.length_reverse]; omega) (by simp)
      refine ⟨rest₂, ?_⟩
      rw [hlen₁, Option.bind_some, hparts]
      simp only [List.length_reverse, List.append_assoc, List.cons_append, List.nil_append]
        at hmove₂ ⊢
      rw [hmove₂]
      rfl
  · next hge =>
      have hall : front.dropWhile isSpace = front :=
        (List.dropWhile_suffix isSpace).eq_of_length_le (by omega)
      exact ⟨rest₁, by rw [hall]; rfl⟩

/-! ## The whole loop -/

theorem turn_other {s : State} {c : UInt8} (hget : s.buf[s.pos]? = some c) (hzero : c ≠ 0)
    (hcomma : c ≠ comma) : turn s = .next { s with pos := s.pos + 1 } := by
  rw [turn, hget]
  simp only [if_neg hzero, if_neg hcomma]

theorem turn_comma {s t : State} (hget : s.buf[s.pos]? = some comma) (h : trimComma s = some t) :
    turn s = .next t := by
  rw [turn, hget]
  simp [h, comma]

theorem getElem?_front (front : List UInt8) (c : UInt8) (rest : List UInt8) :
    (front.reverse ++ c :: rest)[front.length]? = some c := by
  simp

theorem comma_passed {s : List UInt8} (h : 0 ∉ s) (front rest : List UInt8) :
    ∃ rest', Machine.Reaches turn ⟨front.reverse ++ comma :: (s ++ 0 :: rest), front.length⟩
      ⟨(front.dropWhile isSpace).reverse ++ comma :: (s.dropWhile isSpace ++ 0 :: rest'),
        (front.dropWhile isSpace).length + 1⟩ := by
  have hget := getElem?_front front comma (s ++ 0 :: rest)
  obtain ⟨rest₁, hfirst⟩ := trimComma_eq h front rest
  by_cases hlt : (front.dropWhile isSpace).length < front.length
  · rw [if_pos hlt] at hfirst
    have hkept : 0 ∉ s.dropWhile isSpace := fun hmem ↦ h ((List.dropWhile_suffix _).subset hmem)
    obtain ⟨rest₂, hsecond⟩ := trimComma_eq hkept (front.dropWhile isSpace) rest₁
    rw [List.dropWhile_idempotent, List.dropWhile_idempotent, if_neg (lt_irrefl _)] at hsecond
    refine ⟨rest₂, Machine.Reaches.head (turn_comma hget hfirst) ?_⟩
    refine Machine.Reaches.head (turn_comma ?_ hsecond) (Machine.reaches_self _)
    apply getElem?_front
  · rw [if_neg hlt] at hfirst
    have hall : front.dropWhile isSpace = front :=
      (List.dropWhile_suffix isSpace).eq_of_length_le (by omega)
    refine ⟨rest₁, ?_⟩
    rw [hall] at hfirst ⊢
    exact Machine.Reaches.head (turn_comma hget hfirst) (Machine.reaches_self _)

/-- With `front` behind the loop, the nearest first, `s` in front of it, and `seen` what of the
string is behind the loop: the blanks at the end of `front` go if a comma comes next. -/
theorem turns_end {s : List UInt8} (h : 0 ∉ s) (front seen : List UInt8)
    (hstart : ∀ c ∈ s.head?, isSpace c = true → leads isSpace isComma seen = false)
    (rest : List UInt8) :
    ∃ rest' n, Machine.after turn n ⟨front.reverse ++ (s ++ 0 :: rest), front.length⟩ =
      .done ((if leads isSpace isComma s then front.dropWhile isSpace else front).reverse ++
        (keepFrom isSpace isComma seen s ++ 0 :: rest')) := by
  induction hn : s.length using Nat.strongRecOn generalizing s front seen rest with
  | ind n ih =>
    subst hn
    cases s with
    | nil =>
      refine ⟨rest, 1, ?_⟩
      simp [Machine.after, turn, leads, keepFrom]
    | cons c s =>
      rw [List.mem_cons, not_or] at h
      have hzero : c ≠ 0 := fun hc ↦ h.1 hc.symm
      have hget := getElem?_front front c (s ++ 0 :: rest)
      by_cases hcomma : c = comma
      · subst hcomma
        have hmark : leads isSpace isComma (comma :: s) = true := rfl
        have hfront : leads isSpace isComma (comma :: seen) = true := rfl
        obtain ⟨rest₁, hreach⟩ := comma_passed h.2 front rest
        obtain ⟨seen', hseen, -⟩ := keepFrom_dropWhile hfront s
        have hkeep : keepFrom isSpace isComma seen (comma :: s) =
            comma :: keepFrom isSpace isComma seen' (s.dropWhile isSpace) := by
          rw [← hseen]
          rfl
        have hstay (front : List UInt8) :
            (comma :: front).dropWhile isSpace = comma :: front := rfl
        have hlen := (List.dropWhile_suffix isSpace (l := s)).length_le
        obtain ⟨rest₂, hend⟩ := ih (s.dropWhile isSpace).length (Nat.lt_succ_of_le hlen)
          (fun hmem ↦ h.2 ((List.dropWhile_suffix _).subset hmem))
          (comma :: front.dropWhile isSpace) seen'
          (fun c hc hspace ↦ absurd hspace (Bool.eq_false_iff.mp (not_blank_head hc)))
          rest₁ rfl
        refine ⟨rest₂, ?_⟩
        rw [hmark, if_pos rfl, hkeep]
        apply (Machine.done_iff_of_reaches hreach).mpr
        simpa [hstay] using hend
      · have hturn := turn_other (s := ⟨front.reverse ++ (c :: s ++ 0 :: rest), front.length⟩)
          hget hzero hcomma
        have hmark : isComma c = false := decide_eq_false hcomma
        have hnext : ∀ d ∈ s.head?, isSpace d = true →
            leads isSpace isComma (c :: seen) = false := by
          intro d _ _
          by_cases hc : isSpace c = true
          · exact (leads_blank hc seen).trans (hstart c rfl hc)
          · exact (leads_other (Bool.eq_false_iff.mpr hc) seen).trans hmark
        obtain ⟨rest', hend⟩ := ih s.length (Nat.lt_succ_self _) h.2 (c :: front)
          (c :: seen) hnext rest rfl
        refine ⟨rest', (Machine.done_iff_of_next hturn).mpr ?_⟩
        rw [keepFrom_cons (hstart c rfl)]
        by_cases hc : isSpace c = true
        · rw [List.dropWhile_cons_of_pos hc] at hend
          rw [leads_blank hc, hc, Bool.true_and]
          split at hend
          · next hleads => simpa [hleads] using hend
          · next hleads => simpa [hleads] using hend
        · rw [Bool.not_eq_true] at hc
          rw [leads_other hc, hmark, hc]
          rw [List.dropWhile_cons_of_neg (by simp [hc]), ite_self] at hend
          simpa using hend

/-! ## The call -/

theorem length_trimComma {s t : State} (h : trimComma s = some t) :
    t.buf.length = s.buf.length := by
  simp only [trimComma, Option.bind_eq_bind, Option.bind_eq_some_iff] at h
  obtain ⟨start, -, stop, -, rest, -, buf, hmove, h⟩ := h
  split at h
  · obtain ⟨rest', -, h⟩ := Option.bind_eq_some_iff.mp h
    obtain ⟨buf', hmove', h⟩ := Option.bind_eq_some_iff.mp h
    cases h
    exact (Buffer.length_move hmove').trans (Buffer.length_move hmove)
  · cases h
    exact Buffer.length_move hmove

theorem length_turn {s t : State} (h : turn s = .next t) : t.buf.length = s.buf.length := by
  rw [turn] at h
  split at h
  · cases h
  · split at h
    · cases h
    · split at h
      · split at h
        · cases h
        · next htrim =>
            cases h
            exact length_trimComma htrim
      · cases h
        rfl

theorem length_ends {buf buf' : List UInt8} (h : Ends buf buf') : buf'.length = buf.length := by
  obtain ⟨n, hn⟩ := h
  obtain ⟨s, hlen, hdone⟩ := Machine.last_of_done
    (P := fun s ↦ s.buf.length = buf.length) (fun s t hs ht ↦ (length_turn ht).trans hs) rfl hn
  rw [turn] at hdone
  split at hdone
  · cases hdone
  · split at hdone
    · cases hdone
      exact hlen
    · split at hdone
      · split at hdone <;> cases hdone
      · cases hdone

theorem ends_keep (s : CText) :
    ∃ rest, Ends (s.1 ++ [0]) (keep isSpace isComma s.1 ++ 0 :: rest) := by
  obtain ⟨rest, hend⟩ := turns_end s.2 [] [] (fun _ _ _ ↦ rfl) []
  refine ⟨rest, ?_⟩
  simpa [Ends, keep] using hend

/-- The white space that touches a comma is taken out, and nothing else. A second call changes
nothing. -/
theorem ends_without_touching (s : CText) :
    (∃ rest, Ends (s.1 ++ [0]) (keep isSpace isComma s.1 ++ 0 :: rest) ∧
      (keep isSpace isComma s.1).length + rest.length = s.1.length) ∧
    (keep isSpace isComma s.1).Sublist s.1 ∧
    Ends (keep isSpace isComma s.1 ++ [0]) (keep isSpace isComma s.1 ++ [0]) := by
  have hsub : (keep isSpace isComma s.1).Sublist s.1 := keepFrom_sublist [] s.1
  refine ⟨?_, hsub, ?_⟩
  · obtain ⟨rest, hend⟩ := ends_keep s
    have hlen := length_ends hend
    simp only [List.length_append, List.length_cons, List.length_nil] at hlen
    exact ⟨rest, hend, by omega⟩
  · obtain ⟨rest, hend⟩ := ends_keep ⟨keep isSpace isComma s.1, fun h ↦ s.2 (hsub.subset h)⟩
    have hlen := length_ends hend
    rw [keep_keep] at hend hlen
    simp only [List.length_append, List.length_cons, List.length_nil] at hlen
    obtain rfl := List.length_eq_zero_iff.mp (show rest.length = 0 by omega)
    exact hend

example : keep isSpace isComma (ascii " , a b ,\t, c ") = ascii ",a b,,c " := by decide

end Libobject.Commas
