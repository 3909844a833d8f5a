import Libobject.Lib.Buffer

/-!
# A walk in strides

What is found at a place tells how far the next place is. A visit may change the memory, keep
something or refuse to go on; outside the memory it is undefined. The walk ends at a limit, and a
stride is never zero.
-/

namespace Libobject.Stride

variable {α β : Type*}

/-- What a visit leaves. Nothing is `kept` of a place that is refused, and `some none` of one that
is passed over. -/
structure Visit (α β : Type*) where
  stride : ℕ
  mem : List α
  kept : Option (Option β)

variable (visit : List α → ℕ → Option (Visit α β)) (limit : ℕ)

/-- Whether the limit was reached, the memory, and what was kept with its places. -/
def walk : ℕ → ℕ → List α → Option (Bool × List α × List (ℕ × β))
  | 0, _, mem => some (true, mem, [])
  | fuel + 1, i, mem =>
    if limit ≤ i then some (true, mem, [])
    else do
      let v ← visit mem i
      match v.kept with
      | none => return (false, v.mem, [])
      | some kept =>
        let (ok, mem, rest) ← walk fuel (i + v.stride) v.mem
        return (ok, mem, kept.toList.map (i, ·) ++ rest)

/-- The places that the walk comes to, each with the memory at that time. -/
def places : ℕ → ℕ → List α → List (ℕ × List α)
  | 0, _, _ => []
  | fuel + 1, i, mem =>
    if limit ≤ i then []
    else (i, mem) ::
      match visit mem i with
      | none => []
      | some v => if v.kept.isSome then places fuel (i + v.stride) v.mem else []

/-- A visit moves on, keeps the size of the memory and does not depend on what follows it. -/
structure Local : Prop where
  stride_pos : ∀ {mem i v}, visit mem i = some v → 0 < v.stride
  length_mem : ∀ {mem i v}, visit mem i = some v → v.mem.length = mem.length
  append : ∀ {mem i v}, visit mem i = some v → ∀ post,
    visit (mem ++ post) i = some { v with mem := v.mem ++ post }

variable {visit} {limit}

theorem walk_succ (fuel i : ℕ) (mem : List α) :
    walk visit limit (fuel + 1) i mem =
      if limit ≤ i then some (true, mem, [])
      else (visit mem i).bind fun v ↦
        match v.kept with
        | none => some (false, v.mem, [])
        | some kept => (walk visit limit fuel (i + v.stride) v.mem).bind fun r ↦
          some (r.1, r.2.1, kept.toList.map (i, ·) ++ r.2.2) := rfl

theorem places_succ (fuel i : ℕ) (mem : List α) :
    places visit limit (fuel + 1) i mem =
      if limit ≤ i then []
      else (i, mem) ::
        match visit mem i with
        | none => []
        | some v =>
          if v.kept.isSome then places visit limit fuel (i + v.stride) v.mem else [] := rfl

theorem walk_of_le {i : ℕ} (h : limit ≤ i) (fuel : ℕ) (mem : List α) :
    walk visit limit fuel i mem = some (true, mem, []) := by
  cases fuel with
  | zero => rfl
  | succ fuel => rw [walk_succ, if_pos h]

theorem places_of_le {i : ℕ} (h : limit ≤ i) (fuel : ℕ) (mem : List α) :
    places visit limit fuel i mem = [] := by
  cases fuel with
  | zero => rfl
  | succ fuel => rw [places_succ, if_pos h]

section Step

variable {i : ℕ} {mem : List α} (fuel : ℕ)

theorem walk_none (h : i < limit) (hvisit : visit mem i = none) :
    walk visit limit (fuel + 1) i mem = none := by
  rw [walk_succ, if_neg (Nat.not_le_of_lt h), hvisit]
  rfl

theorem walk_refused (h : i < limit) {v : Visit α β} (hvisit : visit mem i = some v)
    (hkept : v.kept = none) :
    walk visit limit (fuel + 1) i mem = some (false, v.mem, []) := by
  simp only [walk_succ, if_neg (Nat.not_le_of_lt h), hvisit, Option.bind_some, hkept]

theorem walk_kept (h : i < limit) {v : Visit α β} (hvisit : visit mem i = some v)
    {kept : Option β} (hkept : v.kept = some kept) :
    walk visit limit (fuel + 1) i mem = (walk visit limit fuel (i + v.stride) v.mem).map
      (fun r ↦ (r.1, r.2.1, kept.toList.map (i, ·) ++ r.2.2)) := by
  simp only [walk_succ, if_neg (Nat.not_le_of_lt h), hvisit, Option.bind_some, hkept]
  cases walk visit limit fuel (i + v.stride) v.mem <;> rfl

theorem places_none (h : i < limit) (hvisit : visit mem i = none) :
    places visit limit (fuel + 1) i mem = [(i, mem)] := by
  rw [places_succ, if_neg (Nat.not_le_of_lt h), hvisit]

theorem places_refused (h : i < limit) {v : Visit α β} (hvisit : visit mem i = some v)
    (hkept : v.kept = none) : places visit limit (fuel + 1) i mem = [(i, mem)] := by
  simp only [places_succ, if_neg (Nat.not_le_of_lt h), hvisit, hkept, Option.isSome_none,
    Bool.false_eq_true, if_false]

theorem places_kept (h : i < limit) {v : Visit α β} (hvisit : visit mem i = some v)
    {kept : Option β} (hkept : v.kept = some kept) :
    places visit limit (fuel + 1) i mem =
      (i, mem) :: places visit limit fuel (i + v.stride) v.mem := by
  simp only [places_succ, if_neg (Nat.not_le_of_lt h), hvisit, hkept, Option.isSome_some, if_true]

end Step

theorem walk_isSome_iff {fuel i : ℕ} {mem : List α} :
    (walk visit limit fuel i mem).isSome ↔
      ∀ x ∈ places visit limit fuel i mem, (visit x.2 x.1).isSome := by
  induction fuel generalizing i mem with
  | zero => simp [walk, places]
  | succ fuel ih =>
    rcases Nat.lt_or_ge i limit with hlt | hle
    · cases hvisit : visit mem i with
      | none => simp [walk_none fuel hlt hvisit, places_none fuel hlt hvisit, hvisit]
      | some v =>
        cases hkept : v.kept with
        | none =>
          simp [walk_refused fuel hlt hvisit hkept, places_refused fuel hlt hvisit hkept,
            hvisit]
        | some kept =>
          rw [walk_kept fuel hlt hvisit hkept, places_kept fuel hlt hvisit hkept,
            Option.isSome_map, ih]
          simp [hvisit]
    · rw [walk_of_le hle, places_of_le hle]
      simp

theorem walk_spec {fuel i : ℕ} {mem mem' : List α} {ok : Bool} {kept : List (ℕ × β)}
    (h : walk visit limit fuel i mem = some (ok, mem', kept)) :
    (ok = true ↔ ∀ x ∈ places visit limit fuel i mem, ∀ v ∈ visit x.2 x.1, v.kept ≠ none) ∧
      ∀ y, y ∈ kept ↔ ∃ x ∈ places visit limit fuel i mem, y.1 = x.1 ∧
        ∃ v ∈ visit x.2 x.1, v.kept = some (some y.2) := by
  induction fuel generalizing i mem ok kept with
  | zero =>
    obtain ⟨rfl, -, rfl⟩ : true = ok ∧ mem = mem' ∧ [] = kept := by simpa [walk] using h
    simp [places]
  | succ fuel ih =>
    rcases Nat.lt_or_ge i limit with hlt | hle
    · cases hvisit : visit mem i with
      | none =>
        rw [walk_none fuel hlt hvisit] at h
        cases h
      | some v =>
        cases hkept : v.kept with
        | none =>
          rw [walk_refused fuel hlt hvisit hkept] at h
          rw [places_refused fuel hlt hvisit hkept]
          obtain ⟨rfl, -, rfl⟩ : false = ok ∧ v.mem = mem' ∧ [] = kept := by simpa using h
          simp [hvisit, hkept]
        | some item =>
          rw [walk_kept fuel hlt hvisit hkept] at h
          obtain ⟨⟨ok', mem₁, rest⟩, hrest, heq⟩ := Option.map_eq_some_iff.mp h
          obtain ⟨rfl, rfl, rfl⟩ : ok' = ok ∧ mem₁ = mem' ∧
              item.toList.map (i, ·) ++ rest = kept := by simpa using heq
          obtain ⟨hok, hmem⟩ := ih hrest
          rw [places_kept fuel hlt hvisit hkept]
          refine ⟨?_, fun y ↦ ?_⟩
          · rw [hok]
            simp [hvisit, hkept]
          · have hhead : y ∈ item.toList.map (i, ·) ↔
                y.1 = i ∧ ∃ v ∈ visit mem i, v.kept = some (some y.2) := by
              obtain ⟨j, b⟩ := y
              cases item <;> simp [hvisit, hkept, eq_comm]
            rw [List.mem_append, hmem, hhead]
            simp [List.mem_cons, or_and_right, exists_or]
    · rw [walk_of_le hle] at h
      obtain ⟨rfl, -, rfl⟩ : true = ok ∧ mem = mem' ∧ [] = kept := by simpa using h
      rw [places_of_le hle]
      simp

namespace Local

variable (h : Local visit)
include h

theorem walk_append {fuel i : ℕ} {mem : List α} {r : Bool × List α × List (ℕ × β)}
    (hwalk : walk visit limit fuel i mem = some r) (post : List α) :
    walk visit limit fuel i (mem ++ post) = some (r.1, r.2.1 ++ post, r.2.2) := by
  induction fuel generalizing i mem r with
  | zero =>
    obtain rfl := Option.some.inj hwalk
    rfl
  | succ fuel ih =>
    rcases Nat.lt_or_ge i limit with hlt | hle
    · cases hvisit : visit mem i with
      | none =>
        rw [walk_none fuel hlt hvisit] at hwalk
        cases hwalk
      | some v =>
        have hvisit' := h.append hvisit post
        cases hkept : v.kept with
        | none =>
          rw [walk_refused fuel hlt hvisit hkept] at hwalk
          obtain rfl := Option.some.inj hwalk
          exact walk_refused fuel hlt hvisit' hkept
        | some item =>
          rw [walk_kept fuel hlt hvisit hkept] at hwalk
          obtain ⟨r', hrest, rfl⟩ := Option.map_eq_some_iff.mp hwalk
          rw [walk_kept fuel hlt hvisit' hkept]
          simp only [ih hrest, Option.map_some]
    · rw [walk_of_le hle] at hwalk ⊢
      obtain rfl := Option.some.inj hwalk
      rfl

theorem walk_fuel {fuel i : ℕ} (hfuel : limit ≤ i + fuel) (mem : List α) (k : ℕ) :
    walk visit limit (fuel + k) i mem = walk visit limit fuel i mem := by
  induction fuel generalizing i mem with
  | zero =>
    have hle : limit ≤ i := hfuel
    rw [walk_of_le hle, walk_of_le hle]
  | succ fuel ih =>
    rcases Nat.lt_or_ge i limit with hlt | hle
    · rw [Nat.add_right_comm]
      cases hvisit : visit mem i with
      | none => rw [walk_none _ hlt hvisit, walk_none _ hlt hvisit]
      | some v =>
        cases hkept : v.kept with
        | none => rw [walk_refused _ hlt hvisit hkept, walk_refused _ hlt hvisit hkept]
        | some item =>
          have hpos := h.stride_pos hvisit
          rw [walk_kept _ hlt hvisit hkept, walk_kept _ hlt hvisit hkept, ih (by omega)]
    · rw [walk_of_le hle, walk_of_le hle]

end Local

end Libobject.Stride
