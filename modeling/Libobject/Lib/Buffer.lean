import Libobject.Lib.Scan

/-!
# Writing into a buffer

A buffer is a list of fixed length; a write that does not fit in it is undefined. What is proved
about writes is where they leave the parts of a buffer that holds a text.
-/

namespace Libobject.Buffer

variable {α : Type*}

def put (buf : List α) (off : ℕ) (bs : List α) : Option (List α) :=
  if off + bs.length ≤ buf.length then
    some (buf.take off ++ bs ++ buf.drop (off + bs.length))
  else none

/-- The `n` elements from `off` on; a read that goes past the end is undefined. -/
def get (buf : List α) (off n : ℕ) : Option (List α) :=
  if off + n ≤ buf.length then some ((buf.drop off).take n) else none

/-- `memmove` of `n` elements inside the buffer. -/
def move (buf : List α) (dst src n : ℕ) : Option (List α) :=
  if src + n ≤ buf.length then put buf dst ((buf.drop src).take n) else none

theorem put_append (pre post bs : List α) (h : bs.length ≤ post.length) :
    put (pre ++ post) pre.length bs = some (pre ++ bs ++ post.drop bs.length) := by
  rw [put, if_pos (by rw [List.length_append]; omega), List.take_left, List.drop_append]
  simp

theorem get_append {pre bs : List α} {off n : ℕ} (hoff : pre.length = off) (hn : bs.length = n)
    (post : List α) : get (pre ++ (bs ++ post)) off n = some bs := by
  subst hoff hn
  have hle : pre.length + bs.length ≤ (pre ++ (bs ++ post)).length := by
    simp only [List.length_append]
    omega
  rw [get, if_pos hle, List.drop_left, List.take_left]

theorem get_append_left {buf bs : List α} {off n : ℕ} (h : get buf off n = some bs)
    (post : List α) : get (buf ++ post) off n = some bs := by
  unfold get at h ⊢
  split at h
  · next hle =>
      rw [if_pos (by rw [List.length_append]; omega), List.drop_append_of_le_length (by omega),
        List.take_append_of_le_length (by rw [List.length_drop]; omega)]
      exact h
  · cases h

theorem put_append_left {buf buf' bs : List α} {off : ℕ} (h : put buf off bs = some buf')
    (post : List α) : put (buf ++ post) off bs = some (buf' ++ post) := by
  unfold put at h ⊢
  split at h
  · next hle =>
      obtain rfl := Option.some.inj h
      rw [if_pos (by rw [List.length_append]; omega), List.take_append_of_le_length (by omega),
        List.drop_append_of_le_length hle]
      simp only [List.append_assoc]
  · cases h

theorem getElem?_append {buf : List α} {q : ℕ} {a : α} (h : buf[q]? = some a) (post : List α) :
    (buf ++ post)[q]? = some a := by
  obtain ⟨hlt, -⟩ := List.getElem?_eq_some_iff.mp h
  rw [List.getElem?_append_left hlt, h]

theorem put_over {pre old bs : List α} {off : ℕ} (hoff : pre.length = off)
    (hlen : bs.length = old.length) (post : List α) :
    put (pre ++ (old ++ post)) off bs = some (pre ++ (bs ++ post)) := by
  subst hoff
  have hput := put_append pre (old ++ post) bs (by rw [List.length_append]; omega)
  rwa [hlen, List.drop_left, List.append_assoc] at hput

theorem get_isSome {buf : List α} {off n : ℕ} :
    (get buf off n).isSome ↔ off + n ≤ buf.length := by
  unfold get
  split
  · next hle => simpa using hle
  · next hgt => simpa using hgt

theorem length_get {buf bs : List α} {off n : ℕ} (h : get buf off n = some bs) :
    bs.length = n := by
  unfold get at h
  split at h
  · next hle =>
      obtain rfl := Option.some.inj h
      rw [List.length_take, List.length_drop]
      omega
  · cases h

theorem length_put {buf buf' bs : List α} {off : ℕ} (h : put buf off bs = some buf') :
    buf'.length = buf.length := by
  unfold put at h
  split at h
  · next hle =>
      obtain rfl := Option.some.inj h
      simp only [List.length_append, List.length_take, List.length_drop]
      omega
  · cases h

theorem length_move {buf buf' : List α} {dst src n : ℕ} (h : move buf dst src n = some buf') :
    buf'.length = buf.length := by
  rw [move] at h
  split at h
  · exact length_put h
  · cases h

theorem getElem?_put {buf buf' bs : List α} {off q : ℕ} (h : put buf off bs = some buf')
    (hq : q < off ∨ off + bs.length ≤ q) : buf'[q]? = buf[q]? := by
  unfold put at h
  split at h
  · next hle =>
      obtain rfl := Option.some.inj h
      have hoff : (buf.take off).length = off := by
        rw [List.length_take, Nat.min_eq_left (by omega)]
      rcases hq with hq | hq
      · rw [List.append_assoc, List.getElem?_append_left (by omega), List.getElem?_take_of_lt hq]
      · have hlen : (buf.take off ++ bs).length = off + bs.length := by
          rw [List.length_append, hoff]
        rw [List.getElem?_append_right (by omega), hlen, List.getElem?_drop,
          Nat.add_sub_cancel' hq]
  · cases h

theorem drop_put {buf buf' bs : List α} {off : ℕ} (h : put buf off bs = some buf') :
    buf'.drop off = bs ++ buf.drop (off + bs.length) := by
  unfold put at h
  split at h
  · next hle =>
      obtain rfl := Option.some.inj h
      have htake : (buf.take off).length = off := by
        rw [List.length_take, Nat.min_eq_left (by omega)]
      rw [List.append_assoc, List.drop_left' htake]
  · cases h

theorem put_isSome {buf bs : List α} {off : ℕ} :
    (put buf off bs).isSome ↔ off + bs.length ≤ buf.length := by
  unfold put
  split
  · next hle => simpa using hle
  · next hgt => simpa using hgt

theorem put_put (buf : List α) (off : ℕ) (as bs : List α) :
    (put buf off as).bind (fun buf' ↦ put buf' (off + as.length) bs) =
      put buf off (as ++ bs) := by
  by_cases has : off + as.length ≤ buf.length
  · have hlen : (buf.take off ++ as).length = off + as.length := by
      rw [List.length_append, List.length_take, Nat.min_eq_left (by omega)]
    have hput : put buf off as =
        some (buf.take off ++ as ++ buf.drop (off + as.length)) := if_pos has
    have hrest : (buf.take off ++ as ++ buf.drop (off + as.length)).drop
        (off + as.length + bs.length) = buf.drop (off + (as ++ bs).length) := by
      rw [← List.drop_drop, List.drop_left' hlen, List.drop_drop, List.length_append,
        Nat.add_assoc]
    have htotal : (buf.take off ++ as ++ buf.drop (off + as.length)).length = buf.length := by
      rw [List.length_append, hlen, List.length_drop]
      omega
    rw [hput, Option.bind_some, put, put, List.take_left' hlen, hrest, htotal,
      List.append_assoc _ as bs, Nat.add_assoc, ← List.length_append]
  · have hnone : put buf off as = none := if_neg has
    rw [hnone, Option.bind_none, put, if_neg (by rw [List.length_append]; omega)]

/-- A part `b` is moved to make room for `c` in front of it, which is then written: what stood
between `a` and `b` is gone, and what followed `b` is overwritten or kept. -/
theorem splice {a x b post : List α} (c : List α)
    (hfit : c.length + b.length ≤ x.length + b.length + post.length) :
    ∃ buf' post', move (a ++ x ++ b ++ post) (a.length + c.length) (a.length + x.length)
        b.length = some buf' ∧
      put buf' a.length c = some (a ++ c ++ b ++ post') ∧
        c.length + post'.length = x.length + post.length := by
  have hsrc : (a ++ x ++ b ++ post).drop (a.length + x.length) = b ++ post := by
    rw [List.append_assoc (a ++ x), List.drop_left' (by rw [List.length_append])]
  have hmove : move (a ++ x ++ b ++ post) (a.length + c.length) (a.length + x.length) b.length =
      put (a ++ x ++ b ++ post) (a.length + c.length) b := by
    rw [move, if_pos (by simp only [List.length_append]; omega), hsrc, List.take_left]
  -- what stands behind `a` is cut where `c` will end
  obtain ⟨p, q, hpq, hp, hq⟩ : ∃ p q, a ++ x ++ b ++ post = a ++ p ++ q ∧ p.length = c.length ∧
      c.length + q.length = x.length + b.length + post.length := by
    refine ⟨(x ++ b ++ post).take c.length, (x ++ b ++ post).drop c.length, ?_, ?_, ?_⟩
    · rw [List.append_assoc a (List.take _ _), List.take_append_drop]
      simp only [List.append_assoc]
    · rw [List.length_take, List.length_append, List.length_append]
      omega
    · rw [List.length_drop, List.length_append, List.length_append]
      omega
  have hput := put_append (a ++ p) q b (by omega)
  have hput' := put_append a (p ++ (b ++ q.drop b.length)) c
    (by rw [List.length_append]; omega)
  rw [List.length_append, hp] at hput
  rw [List.drop_left' hp] at hput'
  refine ⟨a ++ p ++ b ++ q.drop b.length, q.drop b.length, ?_, ?_, ?_⟩
  · rw [hmove, hpq, hput]
  · simpa only [List.append_assoc] using hput'
  · rw [List.length_drop]
    omega

end Libobject.Buffer
