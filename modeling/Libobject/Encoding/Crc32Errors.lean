import Libobject.Encoding.Crc32

/-!
# Errors that the CRC-32 of a message sees

Errors within 32 bits that follow each other are seen for any polynomial of that degree. That two
single bits are seen rests on the order of this one.
-/

namespace Libobject.Crc32

/-- Messages that differ within 32 bits, or in two bits less than `2 ^ 32 - 1` bits apart, have
different checks. -/
theorem crc32_ne (start : BitVec 32) {x y : List UInt8}
    (h : Crc.Burst 32 x y ∨ ∃ n < 0xffffffff, Crc.TwoBits n x y) :
    crc32 start x ≠ crc32 start y := by
  rw [crc32_eq, crc32_eq]
  rcases h with hburst | ⟨n, hlt, htwo⟩
  · exact Crc.check_ne_of_burst rfl start hburst
  · refine Crc.check_ne_of_two rfl start htwo fun hback ↦ ?_
    obtain ⟨front, mid, back, b, c, -, -, hn⟩ := htwo
    have hle := Nat.le_of_dvd (by omega) (dvd_of_moves (by decide) hback)
    omega

/-- The first bits of two neighbouring bytes. -/
theorem crc32_ne_neighbours : crc32 0 [0, 0] ≠ crc32 0 [1, 1] := by
  refine crc32_ne 0 (.inr ⟨8, by decide, [], List.replicate 7 false, List.replicate 7 false,
    false, false, ?_, ?_, rfl⟩)
  · decide
  · decide

end Libobject.Crc32
