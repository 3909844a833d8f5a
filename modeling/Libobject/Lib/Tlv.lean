import Libobject.Lib.Bytes

/-!
# Records of type, length and value

A record has its type and the length of its value in two bytes each, and its value padded to a
multiple of four bytes. `walk` goes from record to record as their lengths say.
-/

namespace Libobject.Tlv

/-- A type and a value. -/
abbrev Record := ℕ × List UInt8

/-- What a value of `n` bytes takes. -/
def aligned (n : ℕ) : ℕ := (n + 3) / 4 * 4

def bytes (r : Record) : List UInt8 :=
  beBytes 2 r.1 ++ (beBytes 2 r.2.length ++
    (r.2 ++ List.replicate (aligned r.2.length - r.2.length) 0))

/-- The records that `bs` consists of, `fuel` at most. -/
def walk : ℕ → List UInt8 → Option (List Record)
  | _, [] => some []
  | 0, _ => none
  | fuel + 1, bs =>
    let len := beNat (field bs 2 2)
    let total := 4 + aligned len
    if bs.length < total then none
    else (walk fuel (bs.drop total)).map fun rs ↦ (beNat (bs.take 2), field bs 4 len) :: rs

theorem walk_cons {fuel : ℕ} {bs : List UInt8} {r : Record} {rs : List Record}
    (h : walk fuel bs = some (r :: rs)) : r.1 = beNat (bs.take 2) := by
  cases bs with
  | nil =>
    rw [walk] at h
    cases h
  | cons b bs =>
    cases fuel with
    | zero => cases h
    | succ fuel =>
      rw [walk] at h
      · obtain ⟨-, h⟩ := Option.ite_none_left_eq_some.mp h
        obtain ⟨rs', -, heq⟩ := Option.map_eq_some_iff.mp h
        rw [← (List.cons.inj heq).1]
      · exact List.cons_ne_nil b bs

/-- Type and length have room in their two bytes. -/
def Fits (r : Record) : Prop := r.1 < 2 ^ 16 ∧ r.2.length < 2 ^ 16

theorem le_aligned (n : ℕ) : n ≤ aligned n := by
  rw [aligned]
  omega

theorem four_dvd_aligned (n : ℕ) : 4 ∣ aligned n := Nat.dvd_mul_left 4 _

theorem length_bytes (r : Record) : (bytes r).length = 4 + aligned r.2.length := by
  have hle := le_aligned r.2.length
  simp only [bytes, List.length_append, length_beBytes, List.length_replicate]
  omega

theorem four_dvd_length (rs : List Record) : 4 ∣ (rs.flatMap bytes).length := by
  induction rs with
  | nil => exact Nat.dvd_zero 4
  | cons r rs ih =>
    have haligned := four_dvd_aligned r.2.length
    rw [List.flatMap_cons, List.length_append, length_bytes]
    omega

theorem length_le (rs : List Record) : rs.length ≤ (rs.flatMap bytes).length := by
  induction rs with
  | nil => exact Nat.zero_le _
  | cons r rs ih =>
    rw [List.flatMap_cons, List.length_append, length_bytes, List.length_cons]
    omega

theorem beNat_two {n : ℕ} (h : n < 2 ^ 16) : beNat (beBytes 2 n) = n := by
  rw [beNat_beBytes]
  exact Nat.mod_eq_of_lt h

theorem fields {r : Record} (h : Fits r) (rest : List UInt8) :
    beNat ((bytes r ++ rest).take 2) = r.1 ∧ beNat (field (bytes r ++ rest) 2 2) = r.2.length ∧
      field (bytes r ++ rest) 4 r.2.length = r.2 := by
  have hassoc : bytes r ++ rest = beBytes 2 r.1 ++ (beBytes 2 r.2.length ++ (r.2 ++
      (List.replicate (aligned r.2.length - r.2.length) 0 ++ rest))) := by
    simp only [bytes, List.append_assoc]
  rw [hassoc]
  refine ⟨?_, ?_, ?_⟩
  · rw [List.take_left' (length_beBytes 2 _), beNat_two h.1]
  · have hlen := field_append_right _ (length_beBytes 2 r.1) (beBytes 2 r.2.length)
      (r.2 ++ (List.replicate (aligned r.2.length - r.2.length) 0 ++ rest))
    rw [length_beBytes] at hlen
    rw [hlen, beNat_two h.2]
  · rw [← List.append_assoc]
    exact field_append_right _ (by simp) r.2 _

theorem walk_bytes {rs : List Record} (h : ∀ r ∈ rs, Fits r) {fuel : ℕ}
    (hfuel : rs.length ≤ fuel) : walk fuel (rs.flatMap bytes) = some rs := by
  induction rs generalizing fuel with
  | nil => cases fuel <;> rfl
  | cons r rs ih =>
    obtain ⟨fuel, rfl⟩ := Nat.exists_eq_succ_of_ne_zero
      (Nat.ne_of_gt (Nat.lt_of_lt_of_le (Nat.succ_pos _) hfuel))
    obtain ⟨htype, hlen, hvalue⟩ := fields (h r List.mem_cons_self) (rs.flatMap bytes)
    have htotal : (bytes r).length = 4 + aligned r.2.length := length_bytes r
    have hne : bytes r ++ rs.flatMap bytes ≠ [] := by
      intro hnil
      have hzero := congrArg List.length hnil
      rw [List.length_append, htotal, List.length_nil] at hzero
      omega
    have hroom : ¬ (bytes r ++ rs.flatMap bytes).length < 4 + aligned r.2.length := by
      rw [List.length_append, htotal]
      omega
    have hdrop : (bytes r ++ rs.flatMap bytes).drop (4 + aligned r.2.length) =
        rs.flatMap bytes := List.drop_left' htotal
    rw [List.flatMap_cons, walk]
    · rw [hlen, if_neg hroom, hdrop, htype, hvalue,
        ih (fun r' hr' ↦ h r' (List.mem_cons_of_mem r hr')) (Nat.le_of_succ_le_succ hfuel)]
      rfl
    · exact hne

end Libobject.Tlv
