import Libobject.Core.StringFind

/-!
# Replacing what a pattern matches

The text is searched and changed in place. The next search begins behind the new text, also where
the match was empty and is found there again, and the room for a longer text is reckoned from the
length that the text had at first.
-/

namespace Libobject.Str

/-- The text between `a` and `b` becomes `newstr`. -/
def substituteAt (s : Str) (newstr : Text) (str_len a b : ℕ) : Option Str := do
  let s ← if b - a ≤ newstr.length then s.modulate_capacity (str_len + (newstr.length - (b - a)))
    else some s
  let tail := Scan.cString (s.value.drop b)
  let value ← Buffer.move s.value (a + newstr.length) b tail.length
  let s ← { s with value := value }.write a newstr
  s.close (s.value_len + newstr.length - (b - a))

/-- The loop of `__replace`, before it searches; `origin` is the place in the old text that
`start_offset` stands for, and `places` are those that have been replaced. -/
structure Replacing where
  s : Str
  start_offset : ℕ
  count : ℕ
  origin : ℕ
  places : List (ℕ × ℕ)

structure Replaced where
  s : Str
  ret : ℤ
  places : List (ℕ × ℕ)

/-- A write outside the buffer and a capacity that is no C integer are undefined. -/
def replaceTurn (rx : Regex) (newstr : Text) (str_len : ℕ) (max : ℤ) (st : Replacing) :
    Move Replacing Replaced :=
  match find rx st.s st.start_offset with
  | none => .done ⟨st.s, st.count, st.places⟩
  | some (a, b) =>
    match substituteAt st.s newstr str_len a b with
    | none => .wild
    | some s =>
      let count := st.count + 1
      let origin := st.origin + (b - st.start_offset)
      let places := st.places ++ [(st.origin + (a - st.start_offset), origin)]
      if (count : ℤ) < max ∨ max ≤ 0 then
        .next ⟨s, a + newstr.length, count, origin, places⟩
      else .done ⟨s, count, places⟩

/-- `replace` comes to this end. -/
def Replaces (regcomp : Text → Option Regex) (s : Str) (pattern newstr : Text) (max : ℤ)
    (r : Replaced) : Prop :=
  match regcomp pattern with
  | none => r = ⟨s, 0, []⟩
  | some rx =>
    ∃ n, Machine.after (replaceTurn rx newstr s.value_len max) n ⟨s, 0, 0, 0, []⟩ = .done r

/-- The text with `newstr` in the places of the matches. -/
def withNew (t newstr : Text) (off : ℕ) (ms : List (ℕ × ℕ)) : Text :=
  Matches.weave (Matches.pieces t off ms) (ms.map fun _ ↦ newstr)

/-- Exactly the first matches are replaced, and the string holds the text that this gives, with its
length. -/
def ReplacesWell (regcomp : Text → Option Regex) (s : Str) (t pattern newstr : Text) (max : ℤ) :
    Prop :=
  ∃ rx r, regcomp pattern = some rx ∧ Replaces regcomp s pattern newstr max r ∧
    r.places = foundIn rx t 0 max ∧ r.ret = r.places.length ∧
      Holds r.s (withNew t newstr 0 r.places)

/-- The search of `__find`: there is none in an empty text. -/
def search (rx : Regex) (done rest : Text) : Option (ℕ × ℕ) :=
  if done ++ rest = [] then none else rx.exec rest

/-- A text that does not get shorter needs room. -/
def HasRoom (max_len len str_len newlen oldlen : ℕ) : Prop :=
  oldlen ≤ newlen → Room max_len len (str_len + (newlen - oldlen)) (len + (newlen - oldlen))

/-- The capacity after a replacement. -/
def capacity (max_len len str_len newlen oldlen : ℕ) : ℕ :=
  if oldlen ≤ newlen then roomFor max_len len (str_len + (newlen - oldlen)) else max_len

/-- For `n` searches, each finds the match that is next, and not the empty one before, and there is
room for what replaces it. -/
def Orderly (rx : Regex) (newstr : Text) (str_len : ℕ) : ℕ → ℕ → Bool → Text → Text → Prop
  | 0, _, _, _, _ => True
  | n + 1, max_len, again, done, rest =>
    search rx done rest = Matches.next rx.exec again rest ∧
      match search rx done rest with
      | none => True
      | some (a, b) =>
        HasRoom max_len (done ++ rest).length str_len newstr.length (b - a) ∧
          Orderly rx newstr str_len n
            (capacity max_len (done ++ rest).length str_len newstr.length (b - a)) (a == b)
            (done ++ rest.take a ++ newstr) (rest.drop b)

section Turn

variable {rx : Regex} {newstr : Text} {str_len : ℕ} {max : ℤ} {s : Str}

theorem replaceFrom_succ (limited : Bool) (n start : ℕ) :
    replaceFrom rx newstr str_len limited (n + 1) start s =
      match find rx s start with
      | none => some (s, 0)
      | some (a, b) => do
        let s ← substituteAt s newstr str_len a b
        let (s, count) ← replaceFrom rx newstr str_len limited n (a + newstr.length) s
        return (s, count + 1) := by
  rw [replaceFrom]
  cases find rx s start with
  | none => rfl
  | some m =>
    by_cases hmore : m.2 - m.1 ≤ newstr.length
    · simp only [substituteAt, if_pos hmore, Option.bind_eq_bind, Option.bind_assoc]
    · simp only [substituteAt, if_neg hmore, Option.bind_eq_bind, Option.bind_assoc,
        Option.bind_some]

theorem after_of_replaceFrom {n start count origin c : ℕ} {places : List (ℕ × ℕ)} {s' : Str}
    (hn : max ≤ 0 ∨ (count + n : ℕ) = max ∧ 0 < n)
    (h : replaceFrom rx newstr str_len (0 < max) n start s = some (s', c)) :
    ∃ k places', Machine.after (replaceTurn rx newstr str_len max) k
      ⟨s, start, count, origin, places⟩ = .done ⟨s', (count + c : ℕ), places'⟩ := by
  induction n generalizing start count origin c places s with
  | zero =>
    have hmax : ¬0 < max := by omega
    rw [replaceFrom, decide_eq_false hmax] at h
    cases h
  | succ n ih =>
    rw [replaceFrom_succ] at h
    cases hfind : find rx s start with
    | none =>
      rw [hfind] at h
      cases h
      exact ⟨1, places, by rw [Machine.after, replaceTurn, hfind]; rfl⟩
    | some m =>
      obtain ⟨a, b⟩ := m
      rw [hfind] at h
      obtain ⟨s₁, hsub, h⟩ := Option.bind_eq_some_iff.1 h
      obtain ⟨⟨s₂, c'⟩, hrest, h⟩ := Option.bind_eq_some_iff.1 h
      cases h
      have hturn : replaceTurn rx newstr str_len max ⟨s, start, count, origin, places⟩ =
          if ((count + 1 : ℕ) : ℤ) < max ∨ max ≤ 0 then
            .next ⟨s₁, a + newstr.length, count + 1, origin + (b - start),
              places ++ [(origin + (a - start), origin + (b - start))]⟩
          else .done ⟨s₁, (count + 1 : ℕ),
            places ++ [(origin + (a - start), origin + (b - start))]⟩ := by
        rw [replaceTurn, hfind]
        dsimp only
        rw [hsub]
      by_cases hmore : ((count + 1 : ℕ) : ℤ) < max ∨ max ≤ 0
      · rw [if_pos hmore] at hturn
        have hn' : max ≤ 0 ∨ (count + 1 + n : ℕ) = max ∧ 0 < n := by omega
        obtain ⟨k, places', hk⟩ := ih hn' hrest
        refine ⟨k + 1, places', ?_⟩
        rw [Machine.after_succ_of_next hturn, hk, Nat.add_assoc, Nat.add_comm 1]
      · rw [if_neg hmore] at hturn
        have hlast : n = 0 := by omega
        have hlimited : 0 < max := by omega
        subst hlast
        rw [replaceFrom, decide_eq_true hlimited] at hrest
        cases hrest
        exact ⟨1, _, by rw [Machine.after, hturn]⟩

theorem Holds.substituteAt {done rest : Text} (hs : Holds s (done ++ rest)) {a b : ℕ}
    (hab : a ≤ b) (hb : b ≤ rest.length) (hzero : 0 ∉ newstr)
    (hroom : HasRoom s.value_max_len (done ++ rest).length str_len newstr.length (b - a)) :
    ∃ s', Str.substituteAt s newstr str_len (done.length + a) (done.length + b) = some s' ∧
      Holds s' (done ++ rest.take a ++ newstr ++ rest.drop b) ∧
      s'.value_max_len =
        capacity s.value_max_len (done ++ rest).length str_len newstr.length (b - a) := by
  have hsub : done.length + b - (done.length + a) = b - a := by omega
  have hlen := hs.len_eq
  rw [Str.substituteAt, hsub, capacity]
  by_cases hmore : b - a ≤ newstr.length
  · have hroom' := hroom hmore
    rw [← hlen] at hroom' ⊢
    obtain ⟨s₁, hmodulate, hs₁, hlt, hmax⟩ := hs.modulate_capacity hroom' (by omega)
    obtain ⟨value, s₂, s₃, hmove, hwrite, hclose, hs₃, hmax₃⟩ :=
      hs₁.replace_at rfl hab hb hzero (by omega)
    refine ⟨s₃, ?_, hs₃, ?_⟩
    · simp only [if_pos hmore, hmodulate, Option.bind_eq_bind, Option.bind_some, hmove, hwrite,
        hclose]
    · rw [hmax₃, hmax, if_pos hmore]
  · have hlt := hs.len_lt
    obtain ⟨value, s₂, s₃, hmove, hwrite, hclose, hs₃, hmax₃⟩ :=
      hs.replace_at rfl hab hb hzero (by omega)
    refine ⟨s₃, ?_, hs₃, ?_⟩
    · simp only [if_neg hmore, Option.bind_eq_bind, Option.bind_some, hmove, hwrite, hclose]
    · rw [hmax₃, if_neg hmore]

theorem Holds.substituteAt_none {done rest : Text} (hs : Holds s (done ++ rest)) {a b : ℕ}
    (hroom : ¬HasRoom s.value_max_len (done ++ rest).length str_len newstr.length (b - a)) :
    Str.substituteAt s newstr str_len (done.length + a) (done.length + b) = none := by
  have hsub : done.length + b - (done.length + a) = b - a := by omega
  have hlen := hs.len_eq
  have hlt := hs.len_lt
  have hfits := hs.fits
  rw [HasRoom, Classical.not_imp, ← hlen] at hroom
  obtain ⟨hmore, hroom⟩ := hroom
  rw [← hlen] at hlt
  rw [Str.substituteAt, hsub, if_pos hmore]
  rw [Room] at hroom
  by_cases hfull : s.value_max_len ≤ s.value_len + 1
  · -- a string that is full is not given more
    have hsame : roomFor s.value_max_len s.value_len (str_len + (newstr.length - (b - a))) =
        s.value_max_len := if_neg (by omega)
    have hmodulate : s.modulate_capacity (str_len + (newstr.length - (b - a))) = some s := by
      rw [Str.modulate_capacity, hsame]
      exact if_pos rfl
    rw [hmodulate]
    simp only [Option.bind_eq_bind, Option.bind_some, Option.bind_eq_none_iff]
    intro value hmove s₂ hwrite
    have hvalue := Buffer.length_move hmove
    have hmax := write_value_max_len hwrite
    have hlen₂ := write_value_len hwrite
    rw [close, write, hlen₂]
    have hput : Buffer.put s₂.value (s.value_len + newstr.length - (b - a)) [0] = none := by
      apply if_neg
      unfold value_max_len at hmax hroom hfull hlt
      rw [List.length_singleton]
      dsimp only at hmax
      omega
    exact congrArg _ hput
  · have hbig : roomFor s.value_max_len s.value_len (str_len + (newstr.length - (b - a))) =
        2 * (s.value_len + (str_len + (newstr.length - (b - a))) + 1) := if_pos (by omega)
    have hmodulate : s.modulate_capacity (str_len + (newstr.length - (b - a))) = none := by
      rw [Str.modulate_capacity, hbig]
      exact (if_neg (by omega)).trans (if_neg (by omega))
    rw [hmodulate]
    rfl

theorem Holds.replaceTurn_eq {done rest : Text} (hs : Holds s (done ++ rest))
    (count origin : ℕ) (places : List (ℕ × ℕ)) :
    replaceTurn rx newstr str_len max ⟨s, done.length, count, origin, places⟩ =
      match search rx done rest with
      | none => .done ⟨s, count, places⟩
      | some (a, b) =>
        match Str.substituteAt s newstr str_len (done.length + a) (done.length + b) with
        | none => .wild
        | some s' =>
          if ((count + 1 : ℕ) : ℤ) < max ∨ max ≤ 0 then
            .next ⟨s', (done ++ rest.take a ++ newstr).length, count + 1, origin + b,
              places ++ [(origin + a, origin + b)]⟩
          else .done ⟨s', (count + 1 : ℕ), places ++ [(origin + a, origin + b)]⟩ := by
  rw [replaceTurn, hs.find rfl rx, search]
  dsimp only
  by_cases hnil : done ++ rest = []
  · rw [if_pos hnil, if_pos hnil]
  · rw [if_neg hnil, if_neg hnil]
    cases hexec : rx.exec rest with
    | none => rfl
    | some m =>
      obtain ⟨a, b⟩ := m
      obtain ⟨hab, hb⟩ := rx.exec_le rest a b hexec
      have hlen : (done ++ rest.take a ++ newstr).length =
          done.length + a + newstr.length := by
        rw [List.length_append, List.length_append, List.length_take_of_le (hab.trans hb)]
      dsimp only [Option.map_some]
      rw [hlen, Nat.add_sub_cancel_left, Nat.add_sub_cancel_left]

theorem places_prefix {k : ℕ} {st : Replacing} {r : Replaced}
    (h : Machine.after (replaceTurn rx newstr str_len max) k st = .done r) :
    st.places <+: r.places := by
  induction k generalizing st with
  | zero => cases h
  | succ k ih =>
    cases hturn : replaceTurn rx newstr str_len max st with
    | wild =>
      rw [Machine.after, hturn] at h
      cases h
    | done r' =>
      rw [Machine.after, hturn] at h
      cases h
      rw [replaceTurn] at hturn
      split at hturn
      · cases hturn
        exact List.prefix_rfl
      · split at hturn
        · cases hturn
        · dsimp only at hturn
          split at hturn
          · cases hturn
          · cases hturn
            exact List.prefix_append _ _
    | next st' =>
      rw [Machine.after_succ_of_next hturn] at h
      refine List.IsPrefix.trans ?_ (ih h)
      rw [replaceTurn] at hturn
      split at hturn
      · cases hturn
      · split at hturn
        · cases hturn
        · dsimp only at hturn
          split at hturn
          · cases hturn
            exact List.prefix_append _ _
          · cases hturn

end Turn

section Loop

variable {rx : Regex} {newstr t : Text} {str_len : ℕ} {max : ℤ} {s : Str}

/-- The searches that are left are `n`, or without a limit more than there can be matches. -/
def SearchesLeft (max : ℤ) (count left n : ℕ) (again : Bool) : Prop :=
  (max ≤ 0 ∧ left + (if again then 1 else 2) ≤ n ∨ 0 < max ∧ (count + n : ℕ) = max) ∧ 0 < n

theorem withNew_cons {off a b : ℕ} {rest : Text} (hrest : t.drop off = rest)
    (ms : List (ℕ × ℕ)) :
    withNew t newstr off ((off + a, off + b) :: ms) =
      rest.take a ++ newstr ++ withNew t newstr (off + b) ms := by
  rw [withNew, Matches.pieces, List.map_cons, Matches.weave, hrest, Nat.add_sub_cancel_left]
  rfl

theorem Holds.replaceLoop (hzero : 0 ∉ newstr) {n : ℕ} {again : Bool} {done rest : Text}
    (hs : Holds s (done ++ rest)) {count origin : ℕ} (hrest : t.drop origin = rest)
    (hn : SearchesLeft max count rest.length n again) (places : List (ℕ × ℕ))
    (horderly : Orderly rx newstr str_len n s.value_max_len again done rest) :
    ∃ k s', Machine.after (replaceTurn rx newstr str_len max) k
        ⟨s, done.length, count, origin, places⟩ =
          .done ⟨s', (count + (Matches.foundFrom rx.exec n origin again rest).length : ℕ),
            places ++ Matches.foundFrom rx.exec n origin again rest⟩ ∧
      Holds s'
        (done ++ withNew t newstr origin (Matches.foundFrom rx.exec n origin again rest)) := by
  induction n generalizing s again done rest count origin places with
  | zero => exact absurd hn.2 (Nat.lt_irrefl 0)
  | succ n ih =>
    have hturn := @Holds.replaceTurn_eq rx newstr str_len max s done rest hs count origin
      places
    rw [Orderly] at horderly
    obtain ⟨hnext, hfits⟩ := horderly
    rw [Matches.foundFrom, ← hnext]
    cases hsearch : search rx done rest with
    | none =>
      rw [hsearch] at hturn
      refine ⟨1, s, ?_, ?_⟩
      · rw [Machine.after, hturn]
        simp
      · rw [withNew, Matches.pieces, hrest]
        exact hs
    | some m =>
      obtain ⟨a, b⟩ := m
      rw [hsearch] at hturn hfits hnext
      obtain ⟨hab, hb, hpos⟩ := Matches.next_le (bounded_exec rx) hnext.symm
      obtain ⟨hroom, horderly⟩ := hfits
      obtain ⟨s', hsub, hs', hmax⟩ := hs.substituteAt hab hb hzero hroom
      rw [← hmax] at horderly
      dsimp only at hturn ⊢
      rw [hsub] at hturn
      dsimp only at hturn
      have hrest' : t.drop (origin + b) = rest.drop b := by
        rw [← hrest, List.drop_drop]
      by_cases hmore : ((count + 1 : ℕ) : ℤ) < max ∨ max ≤ 0
      · rw [if_pos hmore] at hturn
        have hn' : SearchesLeft max (count + 1) (rest.drop b).length n (a == b) := by
          rw [SearchesLeft] at hn ⊢
          rw [List.length_drop]
          cases again with
          | false =>
            simp only [Bool.false_eq_true, if_false] at hn
            split_ifs with heq
            · omega
            · have hne : a ≠ b := fun h ↦ heq (beq_iff_eq.2 h)
              omega
          | true =>
            have hapos := hpos rfl
            simp only [if_true] at hn
            split_ifs with heq
            · omega
            · have hne : a ≠ b := fun h ↦ heq (beq_iff_eq.2 h)
              omega
        obtain ⟨k, s'', hk, hs''⟩ := ih hs' hrest' hn' (places ++ [(origin + a, origin + b)])
          horderly
        refine ⟨k + 1, s'', ?_, ?_⟩
        · rw [Machine.after_succ_of_next hturn, hk, List.length_cons, List.append_assoc,
            List.singleton_append, Nat.add_assoc, Nat.add_comm 1]
        · rw [withNew_cons hrest, ← List.append_assoc, ← List.append_assoc]
          exact hs''
      · rw [if_neg hmore] at hturn
        have hlast : n = 0 := by
          rw [SearchesLeft] at hn
          omega
        subst hlast
        refine ⟨1, s', ?_, ?_⟩
        · rw [Machine.after, hturn, Matches.foundFrom]
          rfl
        · rw [withNew_cons hrest, Matches.foundFrom, withNew, Matches.pieces, hrest',
            ← List.append_assoc, ← List.append_assoc]
          exact hs'

theorem next_of_prefix {n origin a b : ℕ} {again : Bool} {rest : Text}
    (h : [(origin + a, origin + b)] <+: Matches.foundFrom rx.exec (n + 1) origin again rest) :
    Matches.next rx.exec again rest = some (a, b) := by
  rw [Matches.foundFrom] at h
  cases hnext : Matches.next rx.exec again rest with
  | none =>
    rw [hnext] at h
    exact absurd (List.prefix_nil.1 h) (List.cons_ne_nil _ _)
  | some m =>
    rw [hnext] at h
    obtain ⟨heq, -⟩ := List.cons_prefix_cons.1 h
    obtain ⟨ha, hb⟩ := Prod.mk.inj heq
    rw [Nat.add_left_cancel ha, Nat.add_left_cancel hb]

theorem next_of_nil {n origin : ℕ} {again : Bool} {rest : Text}
    (h : Matches.foundFrom rx.exec (n + 1) origin again rest = []) :
    Matches.next rx.exec again rest = none := by
  rw [Matches.foundFrom] at h
  cases hnext : Matches.next rx.exec again rest with
  | none => rfl
  | some m =>
    rw [hnext] at h
    cases h

theorem Holds.orderly (hzero : 0 ∉ newstr) {n : ℕ} {again : Bool} {done rest : Text}
    (hs : Holds s (done ++ rest)) {count origin : ℕ}
    (hn : max ≤ 0 ∨ (count + n : ℕ) = max) {places : List (ℕ × ℕ)} {k : ℕ} {r : Replaced}
    (hk : Machine.after (replaceTurn rx newstr str_len max) k
      ⟨s, done.length, count, origin, places⟩ = .done r)
    (hplaces : r.places = places ++ Matches.foundFrom rx.exec n origin again rest) :
    Orderly rx newstr str_len n s.value_max_len again done rest := by
  induction n generalizing s again done rest count origin places k with
  | zero => trivial
  | succ n ih =>
    have hturn := @Holds.replaceTurn_eq rx newstr str_len max s done rest hs count origin
      places
    obtain ⟨k, rfl⟩ : ∃ k', k = k' + 1 := by
      cases k with
      | zero => cases hk
      | succ k => exact ⟨k, rfl⟩
    have hprefix := places_prefix hk
    rw [Orderly]
    cases hsearch : search rx done rest with
    | none =>
      rw [hsearch] at hturn
      rw [Machine.after, hturn] at hk
      cases hk
      have hnil := List.self_eq_append_right.1 hplaces
      exact ⟨(next_of_nil hnil).symm, trivial⟩
    | some m =>
      obtain ⟨a, b⟩ := m
      rw [hsearch] at hturn
      dsimp only at hturn ⊢
      by_cases hroom : HasRoom s.value_max_len (done ++ rest).length str_len newstr.length
          (b - a)
      · have hexec : rx.exec rest = some (a, b) := by
          rw [search] at hsearch
          split at hsearch
          · cases hsearch
          · exact hsearch
        obtain ⟨hab, hb⟩ := rx.exec_le rest a b hexec
        obtain ⟨s', hsub, hs', hmax⟩ := hs.substituteAt hab hb hzero hroom
        rw [hsub] at hturn
        dsimp only at hturn
        rw [← hmax]
        by_cases hmore : ((count + 1 : ℕ) : ℤ) < max ∨ max ≤ 0
        · rw [if_pos hmore] at hturn
          rw [Machine.after_succ_of_next hturn] at hk
          have hpre := places_prefix hk
          rw [hplaces] at hpre
          have hnext := next_of_prefix ((List.prefix_append_right_inj places).1 hpre)
          rw [Matches.foundFrom, hnext] at hplaces
          dsimp only at hplaces
          rw [← List.singleton_append, ← List.append_assoc] at hplaces
          exact ⟨hnext.symm, hroom, ih hs' (by omega) hk hplaces⟩
        · rw [if_neg hmore] at hturn
          rw [Machine.after, hturn] at hk
          cases hk
          have hpre : places ++ [(origin + a, origin + b)] <+:
              places ++ Matches.foundFrom rx.exec (n + 1) origin again rest :=
            hplaces ▸ List.prefix_rfl
          have hnext := next_of_prefix ((List.prefix_append_right_inj places).1 hpre)
          have hlast : n = 0 := by omega
          subst hlast
          exact ⟨hnext.symm, hroom, trivial⟩
      · rw [hs.substituteAt_none hroom] at hturn
        rw [Machine.after, hturn] at hk
        cases hk

end Loop

section Spec

variable {regcomp : Text → Option Regex} {rx : Regex} {s : Str} {t pattern : Text}

/-- Every search of the replacement finds the match that is next, and what replaces it has room. -/
def Regularly (rx : Regex) (s : Str) (t newstr : Text) (max : ℤ) : Prop :=
  Orderly rx newstr s.value_len (limit max t.length) s.value_max_len false [] t

theorem searchesLeft_limit (max : ℤ) (len : ℕ) : SearchesLeft max 0 len (limit max len) false := by
  have hleft := left_limit max len
  have hpos := limit_pos max len
  rw [SearchesLeft]
  rw [Left] at hleft
  by_cases h : 0 < max
  · exact ⟨.inr ⟨h, by omega⟩, hpos⟩
  · exact ⟨.inl ⟨Int.not_lt.1 h, (if_neg h).ge⟩, hpos⟩

theorem regularly_of_replacesWell (hs : Holds s t) (hcomp : regcomp pattern = some rx)
    (newstr : CText) {max : ℤ} (h : ReplacesWell regcomp s t pattern newstr.1 max) :
    Regularly rx s t newstr.1 max := by
  obtain ⟨rx', r, hrx, hr, hplaces, -⟩ := h
  rw [hcomp] at hrx
  cases hrx
  simp only [Replaces, hcomp] at hr
  obtain ⟨k, hk⟩ := hr
  rw [foundIn] at hplaces
  have hleft := (searchesLeft_limit max t.length).1
  exact Holds.orderly newstr.2 (show Holds s ([] ++ t) from hs) (by omega) hk hplaces

/-- The matches are replaced exactly if every search finds the one that is next and there is room.
-/
theorem replaces_iff (hs : Holds s t) (hcomp : regcomp pattern = some rx) (newstr : CText)
    (max : ℤ) :
    ReplacesWell regcomp s t pattern newstr.1 max ↔ Regularly rx s t newstr.1 max := by
  refine ⟨regularly_of_replacesWell hs hcomp newstr, fun h ↦ ?_⟩
  obtain ⟨k, s', hk, hs'⟩ := Holds.replaceLoop newstr.2 (show Holds s ([] ++ t) from hs)
    (@List.drop_zero _ t) (searchesLeft_limit max t.length) [] h
  rw [List.nil_append, Nat.zero_add] at hk
  rw [List.nil_append] at hs'
  refine ⟨rx, ⟨s', (foundIn rx t 0 max).length, foundIn rx t 0 max⟩, hcomp, ?_, rfl, rfl, hs'⟩
  simp only [Replaces, hcomp]
  exact ⟨k, hk⟩

instance decidableHasRoom (max_len len str_len newlen oldlen : ℕ) :
    Decidable (HasRoom max_len len str_len newlen oldlen) :=
  inferInstanceAs (Decidable (_ → _))

theorem replaces_comma :
    ReplacesWell comma (ofText [97, 44, 98]) [97, 44, 98] [44] [59, 59] 1 :=
  (@replaces_iff comma (literal [44]) (ofText [97, 44, 98]) [97, 44, 98] [44]
    (holds_ofText (by decide) (by decide)) rfl ⟨[59, 59], by decide⟩ 1).2 ⟨by decide,
    show _ ∧ _ from ⟨by decide +kernel, trivial⟩⟩

/-- Any number of the letter `a`, also none. -/
def letters : Regex where
  exec s := some (0, (s.takeWhile (· = 97)).length)
  exec_le s a b h := by
    cases h
    exact ⟨Nat.zero_le _, (List.takeWhile_prefix _).length_le⟩

/-- An empty match is found again and again in the same place. -/
theorem not_replaces : ¬ReplacesWell (fun _ ↦ some letters) (ofText [98]) [98] [97, 42] []
    (-1) := by
  intro h
  obtain ⟨-, -, hsecond, -⟩ := regularly_of_replacesWell
    (holds_ofText (by decide) (by decide)) rfl ⟨[], by decide⟩ h
  exact absurd hsecond (by decide)

end Spec

end Libobject.Str
