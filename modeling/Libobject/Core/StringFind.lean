import Libobject.Core.String
import Libobject.Lib.Machine
import Libobject.Lib.Matches
import Libobject.Lib.Occurs

/-!
# Finding and splitting

Both loops search behind the end of the last match. A split writes zeros over the first and the last
byte of each match, so that the text in front of it ends there, and keeps the pieces that are not
empty.
-/

namespace Libobject.Str

/-- Where a piece begins in the buffer, and how long it is. -/
structure Piece where
  start_pos : ℕ
  len : ℕ
  deriving DecidableEq

/-- The loop of `__find`, before it searches. -/
structure Finding where
  pos : ℕ
  cnt : ℕ
  pieces : List Piece

/-- What has no end in the buffer cannot be searched. -/
def findTurn (rx : Regex) (value : List UInt8) (num : ℤ) (s : Finding) :
    Move Finding (ℤ × List Piece) :=
  if 0 ∉ value.drop s.pos then .wild
  else
    match rx.exec (Scan.cString (value.drop s.pos)) with
    | none => .done (s.cnt, s.pieces)
    | some (so, eo) =>
      let cnt := s.cnt + 1
      let pieces := s.pieces ++ [⟨s.pos + so, eo - so⟩]
      if (cnt : ℤ) < num ∨ num ≤ 0 then .next ⟨s.pos + eo, cnt, pieces⟩ else .done (cnt, pieces)

/-- `find` returns `r` and leaves these pieces. -/
def Finds (regcomp : Text → Option Regex) (s : Str) (pattern : Text) (offset : ℕ) (num : ℤ)
    (r : ℤ × List Piece) : Prop :=
  match regcomp pattern with
  | none => r = (-1, [])
  | some rx =>
    if Scan.cString s.value = [] then r = (0, [])
    else ∃ n, Machine.after (findTurn rx s.value num) n ⟨offset, 0, []⟩ = .done r

/-- The loop of `__split`, before it counts. -/
structure Splitting where
  value : List UInt8
  pos : ℕ
  count : ℕ
  pieces : List Piece

/-- The text, what is returned and the pieces. -/
structure Split where
  value : List UInt8
  ret : ℤ
  pieces : List Piece

/-- What is left behind the last match. -/
def splitEnd (s : Splitting) : Move Splitting Split :=
  if 0 ∉ s.value.drop s.pos then .wild
  else
    let rest := Scan.cString (s.value.drop s.pos)
    let pieces := if rest ≠ [] then s.pieces ++ [⟨s.pos, rest.length⟩] else s.pieces
    .done ⟨s.value, pieces.length, pieces⟩

/-- In front of the buffer nothing can be written. -/
def splitTurn (rx : Regex) (num : ℤ) (s : Splitting) : Move Splitting Split :=
  if (s.count : ℤ) < num ∨ num ≤ 0 then
    if 0 ∉ s.value.drop s.pos then .wild
    else
      match rx.exec (Scan.cString (s.value.drop s.pos)) with
      | none => splitEnd s
      | some (so, eo) =>
        let pieces := if so ≠ 0 then s.pieces ++ [⟨s.pos, so⟩] else s.pieces
        if s.pos + eo = 0 then .wild
        else
          .next ⟨(s.value.set (s.pos + eo - 1) 0).set (s.pos + so) 0, s.pos + eo, s.count + 1,
            pieces⟩
  else splitEnd s

/-- `split` comes to this end. -/
def Splits (regcomp : Text → Option Regex) (s : Str) (pattern : Text) (num : ℤ)
    (r : Split) : Prop :=
  match regcomp pattern with
  | none => r = ⟨s.value, -1, []⟩
  | some rx =>
    if Scan.cString s.value = [] then r = ⟨s.value, 0, []⟩
    else ∃ n, Machine.after (splitTurn rx num) n ⟨s.value, 0, 0, []⟩ = .done r

/-- What `get_splited_cstr` gives for a piece. -/
def pieceText (value : List UInt8) (p : Piece) : Text := Scan.cString (value.drop p.start_pos)

/-- The number of matches that are wanted; without a limit it is more than there can be. -/
def limit (num : ℤ) (len : ℕ) : ℕ := if 0 < num then num.toNat else len + 2

/-- The matches that are wanted. -/
def foundIn (rx : Regex) (t : Text) (offset : ℕ) (num : ℤ) : List (ℕ × ℕ) :=
  Matches.found rx.exec (limit num t.length) offset (t.drop offset)

section Find

variable {rx : Regex} {num : ℤ} {s : Str} {t : Text}

theorem bounded_exec (rx : Regex) : Matches.Bounded rx.exec := rx.exec_le

/-- The turns that are left are `n`, or without a limit more than the bytes that are left. -/
def Left (num : ℤ) (done left n : ℕ) : Prop :=
  num ≤ 0 ∧ left < n ∨ 0 < num ∧ (done + n : ℕ) = num

theorem left_limit (num : ℤ) (len : ℕ) : Left num 0 len (limit num len) := by
  rw [Left, limit]
  split_ifs with h
  · exact .inr ⟨h, by omega⟩
  · exact .inl ⟨Int.not_lt.1 h, by omega⟩

theorem Holds.cString_drop (hs : Holds s t) {pos : ℕ} (hpos : pos ≤ t.length) :
    0 ∈ s.value.drop pos ∧ Scan.cString (s.value.drop pos) = t.drop pos := by
  obtain ⟨rest, hrest⟩ := hs.value_eq
  have hdrop : s.value.drop pos = t.drop pos ++ 0 :: rest := by
    rw [hrest, List.drop_append_of_le_length hpos]
  have hzero : 0 ∉ t.drop pos := fun h ↦ hs.zero_notMem (List.mem_of_mem_drop h)
  rw [hdrop]
  exact ⟨List.mem_append_right _ List.mem_cons_self, Scan.cString_append hzero rest⟩

theorem lt_of_found {n pos a b : ℕ} {rest : Text} (hexec : rx.exec rest = some (a, b))
    (hne : ∀ m ∈ Matches.found rx.exec (n + 1) pos rest, m.1 < m.2) : a < b := by
  rw [Matches.found_succ, hexec] at hne
  exact Nat.lt_of_add_lt_add_left (hne _ List.mem_cons_self)

theorem Holds.findLoop (hs : Holds s t) {n pos cnt : ℕ} (hpos : pos ≤ t.length)
    (hn : Left num cnt (t.length - pos) n) (hpositive : 0 < n) (ps : List Piece)
    (hne : ∀ m ∈ Matches.found rx.exec n pos (t.drop pos), m.1 < m.2) :
    ∃ k, Machine.after (findTurn rx s.value num) k ⟨pos, cnt, ps⟩ =
      .done ((cnt + (Matches.found rx.exec n pos (t.drop pos)).length : ℕ),
        ps ++ (Matches.found rx.exec n pos (t.drop pos)).map fun m ↦ ⟨m.1, m.2 - m.1⟩) := by
  induction n generalizing pos cnt ps with
  | zero => exact absurd hpositive (Nat.lt_irrefl 0)
  | succ n ih =>
    obtain ⟨hzero, hrest⟩ := hs.cString_drop hpos
    cases hexec : rx.exec (t.drop pos) with
    | none =>
      refine ⟨1, ?_⟩
      rw [Machine.after, findTurn, if_neg (not_not_intro hzero), hrest, hexec,
        Matches.found_succ, hexec]
      simp
    | some m =>
      obtain ⟨a, b⟩ := m
      obtain ⟨hab, hb⟩ := rx.exec_le _ a b hexec
      rw [List.length_drop] at hb
      have hlt : a < b := lt_of_found hexec hne
      rw [Matches.found_succ_of_lt hexec hlt] at hne ⊢
      simp only [List.forall_mem_cons] at hne
      have hdrop : (t.drop pos).drop b = t.drop (pos + b) := List.drop_drop
      have hpiece : pos + b - (pos + a) = b - a := by omega
      rw [hdrop] at hne ⊢
      have hturn : findTurn rx s.value num ⟨pos, cnt, ps⟩ =
          if ((cnt + 1 : ℕ) : ℤ) < num ∨ num ≤ 0 then
            .next ⟨pos + b, cnt + 1, ps ++ [⟨pos + a, b - a⟩]⟩
          else .done ((cnt + 1 : ℕ), ps ++ [⟨pos + a, b - a⟩]) := by
        rw [findTurn, if_neg (not_not_intro hzero), hrest, hexec]
      by_cases hmore : ((cnt + 1 : ℕ) : ℤ) < num ∨ num ≤ 0
      · rw [if_pos hmore] at hturn
        have hleft : Left num (cnt + 1) (t.length - (pos + b)) n := by
          rw [Left] at hn ⊢
          omega
        have hpositive' : 0 < n := by
          rw [Left] at hleft
          omega
        obtain ⟨k, hk⟩ := ih (by omega) hleft hpositive' (ps ++ [⟨pos + a, b - a⟩]) hne.2
        refine ⟨k + 1, ?_⟩
        rw [Machine.after_succ_of_next hturn, hk, List.length_cons, List.map_cons, hpiece,
          List.append_assoc, List.singleton_append, Nat.add_assoc, Nat.add_comm 1]
      · rw [if_neg hmore] at hturn
        have hzero' : n = 0 := by
          rw [Left] at hn
          omega
        subst hzero'
        refine ⟨1, ?_⟩
        rw [Machine.after, hturn, Matches.found, Matches.foundFrom]
        simp [hpiece]

end Find

section Split

variable {rx : Regex} {num : ℤ} {t : Text}

/-- The piece lies in the buffer with a zero behind it, in front of what is still searched. -/
def Cut (done : List UInt8) (p : Piece) (x : Text) : Prop :=
  ∃ pre post, done = pre ++ (x ++ 0 :: post) ∧ p = ⟨pre.length, x.length⟩ ∧ 0 ∉ x

theorem Cut.append {done : List UInt8} {p : Piece} {x : Text} (h : Cut done p x)
    (more : List UInt8) : Cut (done ++ more) p x := by
  obtain ⟨pre, post, rfl, hp, hx⟩ := h
  exact ⟨pre, post ++ more, by simp, hp, hx⟩

theorem Cut.pieceText {done : List UInt8} {p : Piece} {x : Text} (h : Cut done p x) :
    pieceText done p = x := by
  obtain ⟨pre, post, rfl, rfl, hx⟩ := h
  rw [Str.pieceText, List.drop_left, Scan.cString_append hx]

/-- The pieces are the texts, each with its length. -/
def Shows (value : List UInt8) (ps : List Piece) (xs : List Text) : Prop :=
  List.Forall₂ (Cut value) ps xs

theorem Shows.append {value : List UInt8} {ps : List Piece} {xs : List Text}
    (h : Shows value ps xs) (more : List UInt8) : Shows (value ++ more) ps xs :=
  h.imp fun _ _ hcut ↦ hcut.append more

theorem Shows.map_pieceText {value : List UInt8} {ps : List Piece} {xs : List Text}
    (h : Shows value ps xs) : ps.map (pieceText value) = xs ∧
    ps.map Piece.len = xs.map List.length := by
  induction h with
  | nil => exact ⟨rfl, rfl⟩
  | cons hcut _ ih =>
    obtain ⟨hmap, hlen⟩ := ih
    have htext := hcut.pieceText
    obtain ⟨pre, post, -, rfl, -⟩ := hcut
    simp [hmap, hlen, htext]

theorem set_separator (done : List UInt8) {sep : List UInt8} (hsep : sep ≠ []) (rest : List UInt8) :
    ∃ post, ((done ++ (sep ++ rest)).set (done.length + sep.length - 1) 0).set done.length 0 =
      done ++ (0 :: post ++ rest) ∧ (0 :: post).length = sep.length := by
  obtain ⟨c, sep, rfl⟩ := List.exists_cons_of_ne_nil hsep
  have hlast : done.length + (c :: sep).length - 1 = done.length + sep.length := by
    rw [List.length_cons]
    omega
  have hset : (done ++ (c :: sep ++ rest)).set (done.length + sep.length) 0 =
      done ++ ((c :: sep).set sep.length 0 ++ rest) := by
    rw [List.set_append_right _ _ (Nat.le_add_right _ _), Nat.add_sub_cancel_left,
      List.set_append_left _ _ (by simp)]
  have hlen : ((c :: sep).set sep.length 0).length = sep.length + 1 := List.length_set
  obtain ⟨d, post, hpost⟩ := List.exists_cons_of_length_eq_add_one hlen
  rw [hpost] at hset hlen
  refine ⟨post, ?_, hlen⟩
  rw [hlast, hset, List.set_append_right _ _ le_rfl, Nat.sub_self]
  rfl

/-- The texts that are kept. -/
def kept (xs : List Text) : List Text := xs.filter (· ≠ [])

theorem kept_cons (x : Text) (xs : List Text) :
    kept (x :: xs) = (if x ≠ [] then [x] else []) ++ kept xs := by
  rw [kept, List.filter_cons]
  by_cases hx : x = []
  · simp [hx, kept]
  · simp [hx, kept]

theorem splitEnd_eq {done rest tail : List UInt8} (hzero : 0 ∉ rest) {count : ℕ} {ps : List Piece}
    {xs : List Text} (hps : Shows done ps xs) :
    ∃ r, splitEnd ⟨done ++ (rest ++ 0 :: tail), done.length, count, ps⟩ = .done r ∧
      r.value.length = (done ++ (rest ++ 0 :: tail)).length ∧ r.ret = r.pieces.length ∧
        Shows r.value r.pieces (xs ++ kept [rest]) := by
  have hmem : 0 ∈ (done ++ (rest ++ 0 :: tail)).drop done.length := by simp
  have hrest : Scan.cString ((done ++ (rest ++ 0 :: tail)).drop done.length) = rest := by
    rw [List.drop_left, Scan.cString_append hzero]
  refine ⟨_, if_neg (not_not_intro hmem), rfl, rfl, ?_⟩
  rw [hrest, kept_cons]
  have hold := hps.append (rest ++ 0 :: tail)
  by_cases hnil : rest = []
  · subst hnil
    simpa [kept] using hold
  · rw [if_pos hnil, if_pos hnil]
    have hnew : Cut (done ++ (rest ++ 0 :: tail)) ⟨done.length, rest.length⟩ rest :=
      ⟨done, tail, rfl, rfl, hzero⟩
    exact List.rel_append hold (.cons hnew .nil)

theorem splitEnd_run {done rest tail : List UInt8} (hzero : 0 ∉ rest) {count : ℕ}
    {ps : List Piece} {xs : List Text} (hrest : t.drop done.length = rest)
    (hps : Shows done ps xs)
    (hturn : splitTurn rx num ⟨done ++ (rest ++ 0 :: tail), done.length, count, ps⟩ =
      splitEnd ⟨done ++ (rest ++ 0 :: tail), done.length, count, ps⟩) :
    ∃ k r, Machine.after (splitTurn rx num) k
        ⟨done ++ (rest ++ 0 :: tail), done.length, count, ps⟩ = .done r ∧
      r.value.length = (done ++ (rest ++ 0 :: tail)).length ∧ r.ret = r.pieces.length ∧
        Shows r.value r.pieces (xs ++ kept (Matches.pieces t done.length [])) := by
  obtain ⟨r, hr, hshow⟩ := @splitEnd_eq done rest tail hzero count ps xs hps
  refine ⟨1, r, ?_, ?_⟩
  · rw [Machine.after, hturn, hr]
  · rw [Matches.pieces, hrest]
    exact hshow

theorem splitTurn_match {done x sep y tail : List UInt8} (hsep : sep ≠ [])
    (hzero : 0 ∉ x ++ (sep ++ y)) {count : ℕ} (hmore : (count : ℤ) < num ∨ num ≤ 0)
    (hexec : rx.exec (x ++ (sep ++ y)) = some (x.length, x.length + sep.length))
    {ps : List Piece} {xs : List Text} (hps : Shows done ps xs) :
    ∃ done' ps', splitTurn rx num
        ⟨done ++ (x ++ (sep ++ y) ++ 0 :: tail), done.length, count, ps⟩ =
          .next ⟨done' ++ (y ++ 0 :: tail), done'.length, count + 1, ps'⟩ ∧
      done'.length = done.length + (x.length + sep.length) ∧ Shows done' ps' (xs ++ kept [x]) := by
  obtain ⟨post, hset, hpost⟩ := set_separator (done ++ x) hsep (y ++ 0 :: tail)
  have hpos := List.length_pos_of_ne_nil hsep
  have hlen : (done ++ (x ++ 0 :: post)).length = done.length + (x.length + sep.length) := by
    rw [List.length_append, List.length_append, hpost]
  refine ⟨done ++ (x ++ 0 :: post),
    if x.length ≠ 0 then ps ++ [⟨done.length, x.length⟩] else ps, ?_, hlen, ?_⟩
  · have hmem : 0 ∈ (done ++ (x ++ (sep ++ y) ++ 0 :: tail)).drop done.length := by simp
    have hstr : Scan.cString ((done ++ (x ++ (sep ++ y) ++ 0 :: tail)).drop done.length) =
        x ++ (sep ++ y) := by
      rw [List.drop_left, Scan.cString_append hzero]
    have hvalue : done ++ (x ++ (sep ++ y) ++ 0 :: tail) =
        done ++ x ++ (sep ++ (y ++ 0 :: tail)) := by
      simp only [List.append_assoc]
    have hvalue' : done ++ (x ++ 0 :: post) ++ (y ++ 0 :: tail) =
        done ++ x ++ (0 :: post ++ (y ++ 0 :: tail)) := by
      simp only [List.append_assoc]
    rw [List.length_append, Nat.add_assoc] at hset
    rw [splitTurn, if_pos hmore, if_neg (not_not_intro hmem), hstr, hexec]
    dsimp only
    rw [if_neg (by omega), hvalue, hset, hvalue', hlen]
  · have hold := hps.append (x ++ 0 :: post)
    have hxzero : 0 ∉ x := fun h ↦ hzero (List.mem_append_left _ h)
    rw [kept_cons]
    by_cases hx : x = []
    · subst hx
      simpa [kept] using hold
    · have hxlen : x.length ≠ 0 := fun h ↦ hx (List.length_eq_zero_iff.1 h)
      rw [if_pos hxlen, if_pos hx]
      have hnew : Cut (done ++ (x ++ 0 :: post)) ⟨done.length, x.length⟩ x :=
        ⟨done, post, rfl, rfl, hxzero⟩
      exact List.rel_append hold (.cons hnew .nil)

theorem exists_parts {rest : Text} {a b : ℕ} (hab : a < b) (hb : b ≤ rest.length) :
    ∃ x sep y, rest = x ++ (sep ++ y) ∧ x.length = a ∧ x.length + sep.length = b ∧ sep ≠ [] ∧
      rest.take a = x ∧ rest.drop b = y := by
  have hsplit := List.take_append_drop (b - a) (rest.drop a)
  rw [List.drop_drop, Nat.add_sub_cancel' hab.le] at hsplit
  have hx : (rest.take a).length = a := List.length_take_of_le (hab.le.trans hb)
  have hsep : ((rest.drop a).take (b - a)).length = b - a := by
    apply List.length_take_of_le
    rw [List.length_drop]
    omega
  refine ⟨rest.take a, (rest.drop a).take (b - a), rest.drop b, ?_, hx, by omega, ?_, rfl, rfl⟩
  · rw [hsplit, List.take_append_drop]
  · rw [← List.length_pos_iff]
    omega

theorem splitLoop {tail : List UInt8} {n count : ℕ} {done rest : List UInt8} {ps : List Piece}
    {xs : List Text} (hzero : 0 ∉ rest) (hrest : t.drop done.length = rest)
    (hps : Shows done ps xs) (hn : Left num count rest.length n)
    (hne : ∀ m ∈ Matches.found rx.exec n done.length rest, m.1 < m.2) :
    ∃ k r, Machine.after (splitTurn rx num) k
        ⟨done ++ (rest ++ 0 :: tail), done.length, count, ps⟩ = .done r ∧
      r.value.length = (done ++ (rest ++ 0 :: tail)).length ∧ r.ret = r.pieces.length ∧
        Shows r.value r.pieces (xs ++ kept (Matches.pieces t done.length
          (Matches.found rx.exec n done.length rest))) := by
  induction n generalizing count done rest ps xs with
  | zero =>
    refine splitEnd_run hzero hrest hps ?_
    rw [splitTurn, if_neg]
    rw [Left] at hn
    dsimp only
    omega
  | succ n ih =>
    have hmore : (count : ℤ) < num ∨ num ≤ 0 := by
      rw [Left] at hn
      omega
    cases hexec : rx.exec rest with
    | none =>
      rw [Matches.found_succ, hexec]
      have hmem : 0 ∈ (done ++ (rest ++ 0 :: tail)).drop done.length := by simp
      have hstr : Scan.cString ((done ++ (rest ++ 0 :: tail)).drop done.length) = rest := by
        rw [List.drop_left, Scan.cString_append hzero]
      refine splitEnd_run hzero hrest hps ?_
      rw [splitTurn, if_pos hmore, if_neg (not_not_intro hmem), hstr, hexec]
    | some m =>
      obtain ⟨a, b⟩ := m
      obtain ⟨-, hb⟩ := rx.exec_le _ a b hexec
      have hlt : a < b := lt_of_found hexec hne
      rw [Matches.found_succ_of_lt hexec hlt] at hne ⊢
      obtain ⟨x, sep, y, rfl, rfl, rfl, hsep, -, hdrop⟩ := exists_parts hlt hb
      simp only [List.forall_mem_cons, hdrop] at hne ⊢
      obtain ⟨done', ps', hturn, hlen, hps'⟩ :=
        @splitTurn_match rx num done x sep y tail hsep hzero count hmore hexec ps xs hps
      rw [← hlen] at hne ⊢
      have hyzero : 0 ∉ y := fun h ↦ hzero (by simp [h])
      have hrest' : t.drop done'.length = y := by
        rw [hlen, ← List.drop_drop, hrest, hdrop]
      have hleft : Left num (count + 1) y.length n := by
        rw [Left] at hn ⊢
        simp only [List.length_append] at hn
        omega
      obtain ⟨k, r, hk, hvalue, hret, hshow⟩ := ih hyzero hrest' hps' hleft hne.2
      refine ⟨k + 1, r, ?_, ?_, hret, ?_⟩
      · rw [Machine.after_succ_of_next hturn, hk]
      · rw [hvalue]
        simp only [List.length_append] at hlen ⊢
        omega
      · have hfirst : (t.drop done.length).take (done.length + x.length - done.length) = x := by
          rw [hrest, Nat.add_sub_cancel_left, List.take_left]
        rw [Matches.pieces, hfirst, ← List.singleton_append, kept, List.filter_append, ← kept,
          ← kept, ← List.append_assoc]
        exact hshow

end Split

section Literal

variable {p t : Text}

theorem literal_eq_none_iff : (literal p).exec t = none ↔ ∀ i, ¬OccursAt p t i := by
  rw [literal, List.findSome?_eq_none_iff]
  constructor
  · rintro h i ⟨hle, htake⟩
    have hi := h i (List.mem_range.2 (by omega))
    rw [if_pos ⟨htake, hle⟩] at hi
    cases hi
  · intro h i _
    exact if_neg fun hocc ↦ h i ⟨hocc.2, hocc.1⟩

theorem literal_of_first {i : ℕ} (hocc : OccursAt p t i) (hfirst : ∀ j < i, ¬OccursAt p t j) :
    (literal p).exec t = some (i, i + p.length) := by
  obtain ⟨m, hm⟩ : ∃ m, (literal p).exec t = some m := by
    rw [← Option.ne_none_iff_exists']
    exact fun hnone ↦ literal_eq_none_iff.1 hnone i hocc
  obtain ⟨before, a, behind, hrange, ha, hbefore⟩ := List.findSome?_eq_some_iff.1 hm
  split_ifs at ha with hmatch
  have hget : (List.range (t.length + 1))[before.length]? = some a := by
    rw [hrange, List.getElem?_append_right le_rfl, Nat.sub_self]
    rfl
  rw [List.getElem?_eq_some_iff] at hget
  obtain ⟨hlt, hget⟩ := hget
  rw [List.getElem_range] at hget
  have hle : a ≤ i := by
    by_contra hnot
    have hmem : i ∈ before := by
      have hi : before[i]? = some i := by
        have hall : (List.range (t.length + 1))[i]? = some i := by
          rw [List.getElem?_range]
          omega
        rwa [hrange, List.getElem?_append_left (by omega)] at hall
      exact List.mem_of_getElem? hi
    have hnone := hbefore i hmem
    rw [if_pos ⟨hocc.2, hocc.1⟩] at hnone
    cases hnone
  have heq : a = i := by
    by_contra hne
    exact hfirst a (by omega) ⟨hmatch.2, hmatch.1⟩
  rw [hm, ← ha, heq]

end Literal

section Spec

variable {regcomp : Text → Option Regex} {rx : Regex} {s : Str} {t pattern : Text}

/-- `find` reports exactly these matches. -/
def FindsAll (regcomp : Text → Option Regex) (s : Str) (pattern : Text) (offset : ℕ) (num : ℤ)
    (ms : List (ℕ × ℕ)) : Prop :=
  Finds regcomp s pattern offset num (ms.length, ms.map fun m ↦ ⟨m.1, m.2 - m.1⟩)

/-- `split` yields exactly these pieces, in a buffer of the same size. -/
def SplitsInto (regcomp : Text → Option Regex) (s : Str) (pattern : Text) (num : ℤ)
    (xs : List Text) : Prop :=
  ∃ r, Splits regcomp s pattern num r ∧ r.value.length = s.value_max_len ∧ r.ret = xs.length ∧
    r.pieces.map (pieceText r.value) = xs ∧ r.pieces.map Piece.len = xs.map List.length

theorem found_nil {n off : ℕ} (h : ∀ m ∈ Matches.found rx.exec n off [], m.1 < m.2) :
    Matches.found rx.exec n off [] = [] := by
  cases n with
  | zero => rfl
  | succ n =>
    cases hexec : rx.exec [] with
    | none => rw [Matches.found_succ, hexec]
    | some m =>
      have hb := (rx.exec_le [] m.1 m.2 hexec).2
      have hlt : m.1 < m.2 := lt_of_found hexec h
      simp only [List.length_nil] at hb
      omega

theorem limit_pos (num : ℤ) (len : ℕ) : 0 < limit num len := by
  rw [limit]
  split_ifs with h
  · omega
  · exact Nat.succ_pos _

theorem Holds.findsAll (hs : Holds s t) (hcomp : regcomp pattern = some rx) {offset : ℕ}
    (hoffset : offset ≤ t.length) {num : ℤ} (hne : ∀ m ∈ foundIn rx t offset num, m.1 < m.2) :
    FindsAll regcomp s pattern offset num (foundIn rx t offset num) := by
  rw [FindsAll, Finds, hcomp]
  dsimp only
  rw [hs.cString]
  by_cases hnil : t = []
  · subst hnil
    have hzero : offset = 0 := Nat.le_zero.1 hoffset
    subst hzero
    have hnone : foundIn rx [] 0 num = [] := found_nil hne
    rw [if_pos rfl, hnone]
    rfl
  · rw [if_neg hnil]
    have hleft : Left num 0 (t.length - offset) (limit num t.length) := by
      have hall := left_limit num t.length
      rw [Left] at hall ⊢
      omega
    obtain ⟨k, hk⟩ := hs.findLoop hoffset hleft (limit_pos num t.length) [] hne
    rw [Nat.zero_add, List.nil_append] at hk
    exact ⟨k, hk⟩

theorem Holds.splitsInto (hs : Holds s t) (hcomp : regcomp pattern = some rx) {num : ℤ}
    (hne : ∀ m ∈ foundIn rx t 0 num, m.1 < m.2) :
    SplitsInto regcomp s pattern num (kept (Matches.pieces t 0 (foundIn rx t 0 num))) := by
  rw [SplitsInto]
  simp only [Splits, hcomp, hs.cString]
  by_cases hnil : t = []
  · subst hnil
    have hnone : foundIn rx [] 0 num = [] := found_nil hne
    refine ⟨⟨s.value, 0, []⟩, by rw [if_pos rfl], rfl, ?_⟩
    rw [hnone]
    exact ⟨rfl, rfl, rfl⟩
  · simp only [if_neg hnil]
    obtain ⟨tail, hvalue⟩ := hs.value_eq
    obtain ⟨k, r, hk, hlen, hret, hshow⟩ := @splitLoop rx num t tail (limit num t.length) 0 []
      t [] [] hs.zero_notMem rfl .nil (left_limit num t.length) hne
    rw [List.nil_append, ← hvalue] at hk hlen
    obtain ⟨hmap, hlens⟩ := hshow.map_pieceText
    refine ⟨r, ⟨k, hk⟩, hlen, ?_, hmap, hlens⟩
    rw [hret, ← List.length_map (pieceText r.value), hmap]
    rfl

/-- Where none of the matches is empty, `find` reports them and `split` yields the pieces between
them that are not empty; with those that are, and the matches, they make up the text. -/
theorem find_split (hs : Holds s t) (hcomp : regcomp pattern = some rx) {offset : ℕ}
    (hoffset : offset ≤ t.length) (num : ℤ) :
    ((∀ m ∈ foundIn rx t offset num, m.1 < m.2) →
        FindsAll regcomp s pattern offset num (foundIn rx t offset num)) ∧
      ((∀ m ∈ foundIn rx t 0 num, m.1 < m.2) →
        SplitsInto regcomp s pattern num (kept (Matches.pieces t 0 (foundIn rx t 0 num)))) ∧
      Matches.weave (Matches.pieces t 0 (foundIn rx t 0 num))
        (Matches.separators t (foundIn rx t 0 num)) = t := by
  refine ⟨hs.findsAll hcomp hoffset, hs.splitsInto hcomp, ?_⟩
  have hsorted := @Matches.inOrder_found _ rx.exec 0 (limit num t.length) (bounded_exec rx) t
  rw [Nat.zero_add] at hsorted
  exact Matches.weave_pieces hsorted

/-- A new string with a short text. -/
def ofText (t : Text) : Str := ⟨t ++ List.replicate (256 - t.length) 0, t.length⟩

theorem holds_ofText {t : Text} (hzero : 0 ∉ t) (hlt : t.length < 256) : Holds (ofText t) t := by
  obtain ⟨n, hn⟩ : ∃ n, 256 - t.length = n + 1 := ⟨255 - t.length, by omega⟩
  refine ⟨⟨List.replicate n 0, ?_⟩, hzero, rfl, ?_⟩
  · rw [ofText, hn, List.replicate_succ]
  · rw [value_max_len, ofText, List.length_append, List.length_replicate]
    omega

def comma (_ : Text) : Option Regex := some (literal [44])

theorem find_split_comma :
    FindsAll comma (ofText [97, 44, 98]) [44] 0 (-1) [(1, 2)] ∧
      SplitsInto comma (ofText [97, 44, 98]) [44] (-1) [[97], [98]] := by
  have hspec := @find_split comma (literal [44]) (ofText [97, 44, 98]) [97, 44, 98] [44]
    (holds_ofText (by decide) (by decide)) rfl 0 (Nat.zero_le _) (-1)
  exact ⟨hspec.1 (by decide), hspec.2.1 (by decide)⟩

/-- The empty piece in front of a separator is left out. -/
theorem not_find_split : ¬SplitsInto comma (ofText [44, 97]) [44] (-1)
    (Matches.pieces [44, 97] 0 (foundIn (literal [44]) [44, 97] 0 (-1))) := by
  rintro ⟨r, hr, -, hret, -⟩
  obtain ⟨r', hr', -, hret', -⟩ :=
    @Holds.splitsInto comma (literal [44]) (ofText [44, 97]) [44, 97] [44]
      (holds_ofText (by decide) (by decide)) rfl (-1) (by decide)
  have hnil : Scan.cString (ofText [44, 97]).value ≠ [] := by decide
  simp only [Splits, comma, if_neg hnil] at hr hr'
  obtain ⟨k, hk⟩ := hr
  obtain ⟨k', hk'⟩ := hr'
  cases Machine.done_unique hk hk'
  rw [hret] at hret'
  exact absurd hret' (by decide)

end Spec

end Libobject.Str
