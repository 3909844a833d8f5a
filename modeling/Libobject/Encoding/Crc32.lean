import Libobject.Lib.Crc
import Mathlib.Dynamics.PeriodicPts.Defs
import Mathlib.Tactic.NormNum.Prime

/-!
# CRC-32 of bytes and of files

The check of a file is made of one read after the other. A read that delivers less than it is asked
for leaves the rest of the buffer as it was.
-/

namespace Libobject.Crc32

def crc32tab : List (BitVec 32) := [
  0x00000000, 0x77073096, 0xee0e612c, 0x990951ba, 0x076dc419, 0x706af48f, 0xe963a535, 0x9e6495a3,
  0x0edb8832, 0x79dcb8a4, 0xe0d5e91e, 0x97d2d988, 0x09b64c2b, 0x7eb17cbd, 0xe7b82d07, 0x90bf1d91,
  0x1db71064, 0x6ab020f2, 0xf3b97148, 0x84be41de, 0x1adad47d, 0x6ddde4eb, 0xf4d4b551, 0x83d385c7,
  0x136c9856, 0x646ba8c0, 0xfd62f97a, 0x8a65c9ec, 0x14015c4f, 0x63066cd9, 0xfa0f3d63, 0x8d080df5,
  0x3b6e20c8, 0x4c69105e, 0xd56041e4, 0xa2677172, 0x3c03e4d1, 0x4b04d447, 0xd20d85fd, 0xa50ab56b,
  0x35b5a8fa, 0x42b2986c, 0xdbbbc9d6, 0xacbcf940, 0x32d86ce3, 0x45df5c75, 0xdcd60dcf, 0xabd13d59,
  0x26d930ac, 0x51de003a, 0xc8d75180, 0xbfd06116, 0x21b4f4b5, 0x56b3c423, 0xcfba9599, 0xb8bda50f,
  0x2802b89e, 0x5f058808, 0xc60cd9b2, 0xb10be924, 0x2f6f7c87, 0x58684c11, 0xc1611dab, 0xb6662d3d,
  0x76dc4190, 0x01db7106, 0x98d220bc, 0xefd5102a, 0x71b18589, 0x06b6b51f, 0x9fbfe4a5, 0xe8b8d433,
  0x7807c9a2, 0x0f00f934, 0x9609a88e, 0xe10e9818, 0x7f6a0dbb, 0x086d3d2d, 0x91646c97, 0xe6635c01,
  0x6b6b51f4, 0x1c6c6162, 0x856530d8, 0xf262004e, 0x6c0695ed, 0x1b01a57b, 0x8208f4c1, 0xf50fc457,
  0x65b0d9c6, 0x12b7e950, 0x8bbeb8ea, 0xfcb9887c, 0x62dd1ddf, 0x15da2d49, 0x8cd37cf3, 0xfbd44c65,
  0x4db26158, 0x3ab551ce, 0xa3bc0074, 0xd4bb30e2, 0x4adfa541, 0x3dd895d7, 0xa4d1c46d, 0xd3d6f4fb,
  0x4369e96a, 0x346ed9fc, 0xad678846, 0xda60b8d0, 0x44042d73, 0x33031de5, 0xaa0a4c5f, 0xdd0d7cc9,
  0x5005713c, 0x270241aa, 0xbe0b1010, 0xc90c2086, 0x5768b525, 0x206f85b3, 0xb966d409, 0xce61e49f,
  0x5edef90e, 0x29d9c998, 0xb0d09822, 0xc7d7a8b4, 0x59b33d17, 0x2eb40d81, 0xb7bd5c3b, 0xc0ba6cad,
  0xedb88320, 0x9abfb3b6, 0x03b6e20c, 0x74b1d29a, 0xead54739, 0x9dd277af, 0x04db2615, 0x73dc1683,
  0xe3630b12, 0x94643b84, 0x0d6d6a3e, 0x7a6a5aa8, 0xe40ecf0b, 0x9309ff9d, 0x0a00ae27, 0x7d079eb1,
  0xf00f9344, 0x8708a3d2, 0x1e01f268, 0x6906c2fe, 0xf762575d, 0x806567cb, 0x196c3671, 0x6e6b06e7,
  0xfed41b76, 0x89d32be0, 0x10da7a5a, 0x67dd4acc, 0xf9b9df6f, 0x8ebeeff9, 0x17b7be43, 0x60b08ed5,
  0xd6d6a3e8, 0xa1d1937e, 0x38d8c2c4, 0x4fdff252, 0xd1bb67f1, 0xa6bc5767, 0x3fb506dd, 0x48b2364b,
  0xd80d2bda, 0xaf0a1b4c, 0x36034af6, 0x41047a60, 0xdf60efc3, 0xa867df55, 0x316e8eef, 0x4669be79,
  0xcb61b38c, 0xbc66831a, 0x256fd2a0, 0x5268e236, 0xcc0c7795, 0xbb0b4703, 0x220216b9, 0x5505262f,
  0xc5ba3bbe, 0xb2bd0b28, 0x2bb45a92, 0x5cb36a04, 0xc2d7ffa7, 0xb5d0cf31, 0x2cd99e8b, 0x5bdeae1d,
  0x9b64c2b0, 0xec63f226, 0x756aa39c, 0x026d930a, 0x9c0906a9, 0xeb0e363f, 0x72076785, 0x05005713,
  0x95bf4a82, 0xe2b87a14, 0x7bb12bae, 0x0cb61b38, 0x92d28e9b, 0xe5d5be0d, 0x7cdcefb7, 0x0bdbdf21,
  0x86d3d2d4, 0xf1d4e242, 0x68ddb3f8, 0x1fda836e, 0x81be16cd, 0xf6b9265b, 0x6fb077e1, 0x18b74777,
  0x88085ae6, 0xff0f6a70, 0x66063bca, 0x11010b5c, 0x8f659eff, 0xf862ae69, 0x616bffd3, 0x166ccf45,
  0xa00ae278, 0xd70dd2ee, 0x4e048354, 0x3903b3c2, 0xa7672661, 0xd06016f7, 0x4969474d, 0x3e6e77db,
  0xaed16a4a, 0xd9d65adc, 0x40df0b66, 0x37d83bf0, 0xa9bcae53, 0xdebb9ec5, 0x47b2cf7f, 0x30b5ffe9,
  0xbdbdf21c, 0xcabac28a, 0x53b39330, 0x24b4a3a6, 0xbad03605, 0xcdd70693, 0x54de5729, 0x23d967bf,
  0xb3667a2e, 0xc4614ab8, 0x5d681b02, 0x2a6f2b94, 0xb40bbe37, 0xc30c8ea1, 0x5a05df1b, 0x2d02ef8d]

/-- A turn of the loop. The byte is a signed character. -/
def turn (crc : BitVec 32) (c : UInt8) : BitVec 32 :=
  crc32tab.getD ((crc ^^^ c.toBitVec.signExtend 32) &&& 0xff).toNat 0 ^^^ (crc >>> 8)

/-- `buf` are the bytes that are counted by `size`. -/
def crc32 (crc : BitVec 32) (buf : List UInt8) : BitVec 32 :=
  buf.foldl turn (crc ^^^ 0xFFFFFFFF) ^^^ 0xFFFFFFFF

abbrev poly : BitVec 32 := 0xEDB88320

abbrev one : BitVec 32 := 0x80000000

/-! ## The table -/

theorem crc32tab_eq : ∀ i < 256, crc32tab.getD i 0 = Crc.moves poly 8 (BitVec.ofNat 32 i) := by
  decide +kernel

theorem and_signExtend (s : BitVec 32) (c : UInt8) :
    (s ^^^ c.toBitVec.signExtend 32) &&& 0xff = (s ^^^ c.toBitVec.setWidth 32) &&& 0xff := by
  refine BitVec.eq_of_getLsbD_eq fun i hi ↦ ?_
  have hlow := Crc.getLsbD_low (w := 32) i
  simp only [BitVec.getLsbD_and, BitVec.getLsbD_xor, BitVec.getLsbD_signExtend,
    BitVec.getLsbD_setWidth]
  by_cases hlt : i < 8
  · simp [hi, hlt]
  · have hzero : (0xff : BitVec 32).getLsbD i = false := by simpa [hlt] using hlow
    rw [hzero, Bool.and_false, Bool.and_false]

theorem turn_eq (s : BitVec 32) (c : UInt8) : turn s c = Crc.register poly s (Crc.bits c) := by
  have hlt : ((s ^^^ c.toBitVec.setWidth 32) &&& 0xff).toNat < 256 := by
    rw [BitVec.toNat_and]
    exact Nat.and_lt_two_pow _ (by decide : (0xff : BitVec 32).toNat < 2 ^ 8)
  rw [turn, and_signExtend, crc32tab_eq _ hlt, BitVec.ofNat_toNat, BitVec.setWidth_eq]
  exact (Crc.register_bits poly (by decide) s c).symm

theorem crc32_eq (start : BitVec 32) (x : List UInt8) : crc32 start x = Crc.check poly start x := by
  have hfold (s : BitVec 32) : x.foldl turn s = Crc.register poly s (x.flatMap Crc.bits) := by
    induction x generalizing s with
    | nil => rfl
    | cons c x ih => rw [List.foldl_cons, ih, turn_eq, List.flatMap_cons, Crc.register_append]
  have hnot (s : BitVec 32) : s ^^^ 0xFFFFFFFF = ~~~s := BitVec.xor_allOnes
  rw [crc32, hfold, hnot, hnot, Crc.check]

theorem crc32_append (start : BitVec 32) (x y : List UInt8) :
    crc32 (crc32 start x) y = crc32 start (x ++ y) := by
  rw [crc32_eq, crc32_eq, crc32_eq, Crc.check_append]

/-! ## The order of the polynomial -/

theorem moves_one : Crc.moves poly 32 one = poly := by
  have hlow : Crc.moves poly 31 one = one >>> 31 := Crc.moves_high poly (by decide)
  rw [Crc.moves_add 31 1, hlow]
  decide

set_option maxRecDepth 4000 in
theorem moves_order (s : BitVec 32) : Crc.moves poly 0xffffffff s = s := by
  have hpower : Crc.power poly one 32 0xffffffff = one := by decide +kernel
  rw [Crc.moves_eq_times rfl moves_one,
    ← Crc.power_eq rfl moves_one (by decide : 0xffffffff < 2 ^ 32),
    hpower, Crc.times_one rfl moves_one]

theorem isPeriodicPt_iff {n : ℕ} {s : BitVec 32} :
    Function.IsPeriodicPt (Crc.shiftIn poly · false) n s ↔ Crc.moves poly n s = s := by
  have hiterate : (Crc.shiftIn poly · false)^[n] = Crc.moves poly n := by
    induction n with
    | zero => rfl
    | succ n ih =>
      funext t
      rw [Function.iterate_succ_apply, ih, Crc.moves]
  rw [Function.IsPeriodicPt, Function.IsFixedPt, hiterate]

/-- The largest divisors of `2 ^ 32 - 1`, each with what its power less one is to be multiplied
with. -/
def divisors : List (ℕ × BitVec 32) := [(0x55555555, 0xc736eb52), (0x33333333, 0x3d436701),
  (0x0f0f0f0f, 0xe1a0922e), (0x00ff00ff, 0x3c1c66b1), (0x0000ffff, 0xd4e6c8ca)]

set_option maxRecDepth 4000 in
theorem divisors_invertible :
    ∀ d ∈ divisors, Crc.times poly d.2 (Crc.power poly one 32 d.1 ^^^ one) = one := by
  decide +kernel

theorem exists_divisor {g : ℕ} (h : g ∣ 0xffffffff) (hne : g ≠ 0xffffffff) :
    ∃ d ∈ divisors, g ∣ d.1 := by
  obtain ⟨m, hm⟩ := h
  have hone : m ≠ 1 := by
    rintro rfl
    exact hne (by omega)
  obtain ⟨q, hq, k, rfl⟩ := Nat.exists_prime_and_dvd hone
  have hfactors : q ∣ 3 * (5 * (17 * (257 * 65537))) := by
    refine ⟨g * k, ?_⟩
    calc
      3 * (5 * (17 * (257 * 65537))) = g * (q * k) := by norm_num [← hm]
      _ = q * (g * k) := Nat.mul_left_comm g q k
  have hcases : q = 3 ∨ q = 5 ∨ q = 17 ∨ q = 257 ∨ q = 65537 := by
    simpa only [hq.dvd_mul, Nat.prime_dvd_prime_iff_eq hq Nat.prime_three,
      Nat.prime_dvd_prime_iff_eq hq Nat.prime_five,
      Nat.prime_dvd_prime_iff_eq hq (by norm_num : Nat.Prime 17),
      Nat.prime_dvd_prime_iff_eq hq (by norm_num : Nat.Prime 257),
      Nat.prime_dvd_prime_iff_eq hq (by norm_num : Nat.Prime 65537)] using hfactors
  have hquotient (d : ℕ) (hd : q * d = 0xffffffff) : g ∣ d := by
    refine ⟨k, Nat.eq_of_mul_eq_mul_left hq.pos ?_⟩
    rw [hd, hm, Nat.mul_left_comm]
  rcases hcases with rfl | rfl | rfl | rfl | rfl
  · exact ⟨(0x55555555, 0xc736eb52), by simp [divisors], hquotient 0x55555555 (by norm_num)⟩
  · exact ⟨(0x33333333, 0x3d436701), by simp [divisors], hquotient 0x33333333 (by norm_num)⟩
  · exact ⟨(0x0f0f0f0f, 0xe1a0922e), by simp [divisors], hquotient 0x0f0f0f0f (by norm_num)⟩
  · exact ⟨(0x00ff00ff, 0x3c1c66b1), by simp [divisors], hquotient 0x00ff00ff (by norm_num)⟩
  · exact ⟨(0x0000ffff, 0xd4e6c8ca), by simp [divisors], hquotient 0x0000ffff (by norm_num)⟩

theorem dvd_of_moves {n : ℕ} {s : BitVec 32} (hs : s ≠ 0) (h : Crc.moves poly n s = s) :
    0xffffffff ∣ n := by
  by_contra hnot
  have hperiod : Function.IsPeriodicPt (Crc.shiftIn poly · false) (n.gcd 0xffffffff) s := by
    apply Function.IsPeriodicPt.gcd
    · exact isPeriodicPt_iff.mpr h
    · exact isPeriodicPt_iff.mpr (moves_order s)
  obtain ⟨d, hd, hdvd⟩ := exists_divisor (Nat.gcd_dvd_right n _)
    fun hgcd ↦ hnot (hgcd ▸ Nat.gcd_dvd_left n _)
  have hlt : d.1 < 2 ^ 32 := by
    simp only [divisors, List.mem_cons, List.not_mem_nil, or_false] at hd
    rcases hd with rfl | rfl | rfl | rfl | rfl <;> simp
  have hback : Crc.moves poly d.1 s = s := isPeriodicPt_iff.mp (hperiod.trans_dvd hdvd)
  exact hs (Crc.eq_zero_of_moves rfl moves_one hlt (divisors_invertible d hd) hback)

/-! ## The file -/

/-- What is around a call: whether the file can be opened, its size as `stat` has it, if it has, and
how many bytes each read delivers at most. -/
structure Surroundings where
  opens : Bool
  st_size : Option ℕ
  count : ℕ → ℕ

namespace Surroundings

variable (s : Surroundings)

def fs_get_size : ℤ :=
  match s.st_size with
  | none => -1
  | some n => (BitVec.ofNat 32 n).toInt

/-- The size is kept in an unsigned integer, which is never negative. -/
def size : BitVec 32 := BitVec.ofInt 32 s.fs_get_size

/-- What the read `n` delivers. -/
def read (content : List UInt8) (pos n len : ℕ) : List UInt8 :=
  (content.drop pos).take (min len (s.count n))

/-- The loop over the reads from the read `n` on, at the place `pos` in the file. -/
def read_loop (content buffer : List UInt8) (size pos n : ℕ) (value : BitVec 32) : BitVec 32 :=
  if size = 0 then value
  else
    let read_len := if size > 1024 then 1024 else size
    let bytes := s.read content pos n read_len
    let buffer := bytes ++ buffer.drop bytes.length
    read_loop content buffer (size - read_len) (pos + bytes.length) (n + 1)
      (crc32 value (buffer.take read_len))
termination_by size
decreasing_by split <;> omega

/-- The check of a file, if success is reported. `buffer` is what stands on the stack before. -/
def file_compute_crc32 (content buffer : List UInt8) : Option (BitVec 32) :=
  if s.opens then some (s.read_loop content buffer s.size.toNat 0 0 0) else none

/-- All bytes that the loop takes from the buffer. -/
def taken (content buffer : List UInt8) (size pos n : ℕ) : List UInt8 :=
  if size = 0 then []
  else
    let bytes := s.read content pos n (min 1024 size)
    (bytes ++ buffer.drop bytes.length).take (min 1024 size) ++
      taken content (bytes ++ buffer.drop bytes.length) (size - min 1024 size)
        (pos + bytes.length) (n + 1)
termination_by size
decreasing_by omega

theorem taken_eq (content buffer : List UInt8) (size pos n : ℕ) :
    s.taken content buffer size pos n =
      if size = 0 then []
      else
        let bytes := s.read content pos n (min 1024 size)
        (bytes ++ buffer.drop bytes.length).take (min 1024 size) ++
          s.taken content (bytes ++ buffer.drop bytes.length) (size - min 1024 size)
            (pos + bytes.length) (n + 1) := by
  rw [taken]

theorem read_loop_eq (content buffer : List UInt8) (size pos n : ℕ) (value : BitVec 32) :
    s.read_loop content buffer size pos n value =
      crc32 value (s.taken content buffer size pos n) := by
  induction size using Nat.strongRecOn generalizing buffer pos n value with
  | ind size ih =>
    rw [read_loop, taken_eq]
    split
    · rw [crc32, List.foldl_nil, BitVec.xor_assoc, BitVec.xor_self, BitVec.xor_zero]
    · have hlen : (if size > 1024 then 1024 else size) = min 1024 size := by
        split <;> omega
      simp only [hlen]
      rw [ih _ (by omega), crc32_append]

theorem read_length {content : List UInt8} {pos n size : ℕ} (h : pos + size ≤ content.length) :
    (s.read content pos n (min 1024 size)).length = min (min 1024 size) (s.count n) := by
  rw [read, List.length_take, List.length_drop]
  omega

theorem read_length_le (content : List UInt8) (pos n size : ℕ) :
    (s.read content pos n (min 1024 size)).length ≤ min 1024 size := by
  rw [read, List.length_take]
  omega

theorem taken_of_count {content : List UInt8} (buffer : List UInt8) {size pos n : ℕ}
    (hlen : pos + size ≤ content.length)
    (hcount : ∀ i, 1024 * i < size → min 1024 (size - 1024 * i) ≤ s.count (n + i)) :
    s.taken content buffer size pos n = (content.drop pos).take size := by
  induction size using Nat.strongRecOn generalizing buffer pos n with
  | ind size ih =>
    rw [taken_eq]
    split
    · next hzero => rw [hzero, List.take_zero]
    · next hzero =>
        have hfirst : min 1024 size ≤ s.count n := hcount 0 (by omega)
        have hread : s.read content pos n (min 1024 size) =
            (content.drop pos).take (min 1024 size) := by
          rw [read, Nat.min_eq_left hfirst]
        have hlength : ((content.drop pos).take (min 1024 size)).length = min 1024 size := by
          rw [List.length_take, List.length_drop]
          omega
        have hrest := @ih (size - min 1024 size) (by omega)
          ((content.drop pos).take (min 1024 size) ++ buffer.drop (min 1024 size))
          (pos + min 1024 size) (n + 1) (by omega) fun i hi ↦ by
            have h := hcount (i + 1) (by omega)
            rw [Nat.add_assoc, Nat.add_comm 1 i]
            omega
        dsimp only
        rw [hread, hlength, hrest, List.take_left' hlength, ← List.drop_drop, ← List.take_add]
        congr 1
        omega

theorem take_congr {content content' : List UInt8} {m n : ℕ} (hle : n ≤ m)
    (h : content.take m = content'.take m) : content.take n = content'.take n := by
  have htake := congrArg (List.take n) h
  rwa [List.take_take, List.take_take, Nat.min_eq_left hle] at htake

theorem read_congr {content content' : List UInt8} {pos n len m : ℕ}
    (hm : min len (s.count n) ≤ m) (h : content.take (pos + m) = content'.take (pos + m)) :
    s.read content pos n len = s.read content' pos n len := by
  have hdrop := congrArg (List.drop pos) h
  rw [List.drop_take, List.drop_take, Nat.add_sub_cancel_left] at hdrop
  exact take_congr hm hdrop

theorem taken_congr {content content' : List UInt8} (buffer : List UInt8) {size pos : ℕ} (n : ℕ)
    (h : content.take (pos + size) = content'.take (pos + size)) :
    s.taken content buffer size pos n = s.taken content' buffer size pos n := by
  induction size using Nat.strongRecOn generalizing buffer pos n with
  | ind size ih =>
    have hread : s.read content pos n (min 1024 size) = s.read content' pos n (min 1024 size) :=
      s.read_congr (by omega) h
    have hle := s.read_length_le content' pos n size
    rw [taken_eq, s.taken_eq content']
    split
    · rfl
    · dsimp only
      rw [hread, ih _ (by omega)]
      exact take_congr (by omega) h

theorem taken_of_lt {content content' : List UInt8} (buffer : List UInt8) {size pos n : ℕ}
    (hlen : pos + size ≤ content.length) (hcount : s.count n < min 1024 size)
    (h : content.take (pos + size - 1) = content'.take (pos + size - 1)) :
    s.taken content buffer size pos n = s.taken content' buffer size pos n := by
  have hread : s.read content pos n (min 1024 size) = s.read content' pos n (min 1024 size) :=
    s.read_congr (m := size - 1) (by omega) (take_congr (by omega) h)
  have hshort := s.read_length (n := n) hlen
  rw [taken_eq, taken_eq, if_neg (by omega), if_neg (by omega)]
  dsimp only
  rw [← hread, s.taken_congr _ _]
  exact take_congr (by omega) h

theorem taken_short {content content' : List UInt8} (buffer : List UInt8) {size pos n i : ℕ}
    (hlen : pos + size ≤ content.length) (hi : 1024 * i < size)
    (hcount : s.count (n + i) < min 1024 (size - 1024 * i))
    (h : content.take (pos + size - 1) = content'.take (pos + size - 1)) :
    s.taken content buffer size pos n = s.taken content' buffer size pos n := by
  induction i generalizing buffer size pos n with
  | zero => exact s.taken_of_lt buffer hlen hcount h
  | succ i ih =>
    by_cases hfirst : s.count n < min 1024 size
    · exact s.taken_of_lt buffer hlen hfirst h
    · have hlength : (s.read content pos n (min 1024 size)).length = 1024 := by
        rw [s.read_length hlen]
        omega
      have hread : s.read content pos n (min 1024 size) =
          s.read content' pos n (min 1024 size) :=
        s.read_congr (m := size - 1) (by omega) (take_congr (by omega) h)
      rw [taken_eq, taken_eq, if_neg (by omega), if_neg (by omega)]
      dsimp only
      rw [← hread, hlength, Nat.min_eq_left (by omega : 1024 ≤ size)]
      congr 1
      refine ih _ (by omega) (by omega) ?_ (take_congr (by omega) h)
      rw [Nat.add_assoc, Nat.add_comm 1 i]
      omega

theorem taken_zero (length size pos n : ℕ) :
    s.taken (List.replicate length 0) (List.replicate 1024 0) size pos n =
      List.replicate size 0 := by
  induction size using Nat.strongRecOn generalizing pos n with
  | ind size ih =>
    have hle := s.read_length_le (List.replicate length 0) pos n size
    have hread : s.read (List.replicate length 0) pos n (min 1024 size) =
        List.replicate (s.read (List.replicate length 0) pos n (min 1024 size)).length 0 := by
      rw [read, List.drop_replicate, List.take_replicate, List.length_replicate]
    rw [taken_eq]
    split
    · next hzero => rw [hzero, List.replicate_zero]
    · dsimp only
      rw [hread, List.length_replicate, List.drop_replicate, List.replicate_append_replicate,
        Nat.add_sub_cancel' (by omega), ih _ (by omega), List.take_replicate,
        List.replicate_append_replicate]
      congr 1
      omega

theorem taken_nil (buffer : List UInt8) (turns n : ℕ) :
    s.taken [] buffer (1024 * turns + 1023) 0 n =
      (List.replicate turns (buffer.take 1024)).flatten ++ buffer.take 1023 := by
  induction turns generalizing n with
  | zero =>
    have hdone : s.taken [] buffer 0 0 (n + 1) = [] := by rw [taken_eq, if_pos rfl]
    rw [taken_eq, if_neg (by omega)]
    simp [read, hdone]
  | succ turns ih =>
    have hmin : min 1024 (1024 * (turns + 1) + 1023) = 1024 := by omega
    rw [taken_eq, if_neg (by omega)]
    simp only [read, List.drop_nil, List.take_nil, List.nil_append, List.length_nil,
      List.drop_zero, hmin, Nat.add_zero]
    rw [show 1024 * (turns + 1) + 1023 - 1024 = 1024 * turns + 1023 by omega, ih,
      List.replicate_succ, List.flatten_cons, List.append_assoc]

end Surroundings

/-! ## Zeros -/

theorem register_zeros (n : ℕ) (s : BitVec 32) :
    Crc.register poly s ((List.replicate n 0).flatMap Crc.bits) = Crc.moves poly (8 * n) s := by
  induction n generalizing s with
  | zero => rfl
  | succ n ih =>
    have hbits : Crc.bits 0 = List.replicate 8 false := by decide
    rw [List.replicate_succ, List.flatMap_cons, Crc.register_append, ih, Nat.mul_succ,
      Nat.add_comm, Crc.moves_add, hbits]
    rfl

theorem check_zeros {m n : ℕ} (hlt : m < n) (hn : n < 2 ^ 32)
    (h : Crc.check poly 0 (List.replicate n 0) = Crc.check poly 0 (List.replicate m 0)) :
    m = 0 ∧ n = 0xffffffff := by
  rw [Crc.check, Crc.check, BitVec.not_inj, register_zeros, register_zeros,
    show 8 * n = 8 * (n - m) + 8 * m by omega, Crc.moves_add] at h
  have hback : Crc.moves poly (8 * (n - m)) (~~~0) = ~~~0 := Crc.moves_injective rfl _ h
  have hdvd : 0xffffffff ∣ n - m :=
    (by decide : Nat.Coprime 0xffffffff 8).dvd_of_dvd_mul_left (dvd_of_moves (by decide) hback)
  have hle := Nat.le_of_dvd (Nat.sub_pos_of_lt hlt) hdvd
  omega

/-- A block that brings the register back to where the check starts. -/
def block : List UInt8 :=
  List.replicate 4 0xff ++ (List.replicate 1016 0 ++ [0x62, 0xf5, 0x26, 0x92])

theorem length_block : block.length = 1024 := by
  rw [block, List.length_append, List.length_append, List.length_replicate, List.length_replicate]
  rfl

theorem register_block :
    Crc.register poly 0xffffffff (block.flatMap Crc.bits) = 0xffffffff ∧
      Crc.register poly 0xffffffff ((block.take 1023).flatMap Crc.bits) = 0xf0958f4b := by
  have htake : block.take 1023 =
      List.replicate 4 0xff ++ (List.replicate 1016 0 ++ [0x62, 0xf5, 0x26]) := by
    rw [block, List.take_append, List.take_append, List.take_replicate, List.take_replicate,
      List.length_replicate, List.length_replicate]
    rfl
  have hstart : Crc.register poly 0xffffffff ((List.replicate 4 0xff).flatMap Crc.bits) = 0#32 := by
    decide +kernel
  rw [htake, block]
  simp only [List.flatMap_append, Crc.register_append, hstart, register_zeros, Crc.moves_zero]
  decide +kernel

theorem check_blocks (turns : ℕ) :
    Crc.check poly 0 ((List.replicate turns block).flatten ++ block.take 1023) ≠
      Crc.check poly 0 [] := by
  have hturns : Crc.register poly 0xffffffff
      ((List.replicate turns block).flatten.flatMap Crc.bits) = 0xffffffff := by
    induction turns with
    | zero => rfl
    | succ turns ih =>
      rw [List.replicate_succ, List.flatten_cons, List.flatMap_append, Crc.register_append,
        register_block.1, ih]
  have hstart : ~~~(0 : BitVec 32) = 0xffffffff := rfl
  rw [Crc.check, Crc.check, hstart, List.flatMap_append, Crc.register_append, hturns,
    register_block.2]
  decide

/-! ## When the check is right -/

/-- The table does what the bits ask for, a check can be gone on with, and the check of every file
of that length is the check of its bytes. -/
structure Right (s : Surroundings) (length : ℕ) : Prop where
  table : ∀ start x, crc32 start x = Crc.check poly start x
  append : ∀ x y, crc32 (crc32 0 x) y = crc32 0 (x ++ y)
  file : ∀ content buffer, content.length = length → buffer.length = 1024 →
    ∀ crc ∈ s.file_compute_crc32 content buffer, crc = Crc.check poly 0 content

/-- The size that is kept is that of the file, and each read delivers all that it is asked for. -/
structure Whole (s : Surroundings) (length : ℕ) : Prop where
  size : s.size.toNat = length
  count : ∀ i, 1024 * i < length → min 1024 (length - 1024 * i) ≤ s.count i

theorem file_compute_crc32_of_opens {s : Surroundings} (h : s.opens = true)
    (content buffer : List UInt8) : s.file_compute_crc32 content buffer =
      some (Crc.check poly 0 (s.taken content buffer s.size.toNat 0 0)) := by
  rw [Surroundings.file_compute_crc32, if_pos h, s.read_loop_eq, crc32_eq]

theorem check_last (n : ℕ) : Crc.check poly 0 (List.replicate n 0 ++ [0]) ≠
    Crc.check poly 0 (List.replicate n 0 ++ [1]) :=
  Crc.check_ne rfl 0 (List.replicate n 0) 0 []

theorem Whole.of_file {s : Surroundings} {length : ℕ} (hopens : s.opens = true)
    (h : ∀ content buffer, content.length = length → buffer.length = 1024 →
      ∀ crc ∈ s.file_compute_crc32 content buffer, crc = Crc.check poly 0 content) :
    Whole s length := by
  have hcheck (content buffer : List UInt8) (hlen : content.length = length)
      (hbuffer : buffer.length = 1024) :
      Crc.check poly 0 (s.taken content buffer s.size.toNat 0 0) = Crc.check poly 0 content :=
    h content buffer hlen hbuffer _ (file_compute_crc32_of_opens hopens content buffer)
  -- a last byte that does not matter may be changed
  have hlast (hpos : 0 < length) (hsame : s.taken (List.replicate (length - 1) 0 ++ [0])
      (List.replicate 1024 0) s.size.toNat 0 0 = s.taken (List.replicate (length - 1) 0 ++ [1])
        (List.replicate 1024 0) s.size.toNat 0 0) : False := by
    apply check_last (length - 1)
    rw [← hcheck _ _ _ List.length_replicate, hsame, hcheck _ _ _ List.length_replicate] <;>
      simp <;> omega
  have htake (n : ℕ) (hn : n ≤ length - 1) :
      (List.replicate (length - 1) (0 : UInt8) ++ [0]).take n =
        (List.replicate (length - 1) (0 : UInt8) ++ [1]).take n := by
    rw [List.take_append_of_le_length, List.take_append_of_le_length] <;> simpa using hn
  have hsize : s.size.toNat = length := by
    rcases Nat.lt_trichotomy s.size.toNat length with hlt | heq | hgt
    · exact (hlast (by omega) (s.taken_congr _ 0 (htake (0 + s.size.toNat) (by omega)))).elim
    · exact heq
    · have hzeros := hcheck (List.replicate length 0) (List.replicate 1024 0)
        List.length_replicate List.length_replicate
      rw [s.taken_zero] at hzeros
      obtain ⟨rfl, hmax⟩ := check_zeros hgt s.size.isLt hzeros
      have hblocks := hcheck [] block rfl length_block
      have hturns : s.size.toNat = 1024 * (2 ^ 22 - 1) + 1023 := by omega
      have hblock : block.take 1024 = block := List.take_of_length_le length_block.le
      rw [hturns, s.taken_nil, hblock] at hblocks
      exact (check_blocks _ hblocks).elim
  refine ⟨hsize, fun i hi ↦ ?_⟩
  by_contra hcount
  refine hlast (by omega) (s.taken_short _ (i := i) ?_ ?_ ?_ (htake _ ?_))
  · simp
    omega
  · omega
  · rw [Nat.zero_add]
    omega
  · omega

/-- The check of a file is right if and only if the file cannot be opened or its size is kept as it
is and each read delivers all that it is asked for. -/
theorem right_iff (s : Surroundings) (length : ℕ) :
    Right s length ↔ (s.opens = true → Whole s length) := by
  constructor
  · exact fun h hopens ↦ Whole.of_file hopens h.file
  · intro h
    refine ⟨crc32_eq, fun x y ↦ crc32_append 0 x y, fun content buffer hlen _ crc hcrc ↦ ?_⟩
    have hopens : s.opens = true := by
      by_contra hnot
      simp [Surroundings.file_compute_crc32, hnot] at hcrc
    obtain ⟨hsize, hcount⟩ := h hopens
    rw [file_compute_crc32_of_opens hopens, hsize, s.taken_of_count buffer (by omega)] at hcrc
    · simpa [← hlen] using hcrc.symm
    · simpa using hcount

/-- A read that delivers nothing, and a size that cannot be looked up. -/
theorem not_right : ¬Right ⟨true, some 1, fun _ ↦ 0⟩ 1 ∧ ¬Right ⟨true, none, fun _ ↦ 1024⟩ 1 := by
  constructor
  · intro h
    have hcount := (Whole.of_file rfl h.file).count 0
    simp at hcount
  · intro h
    have hsize := (Whole.of_file rfl h.file).size
    revert hsize
    decide

end Libobject.Crc32
