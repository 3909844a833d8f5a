import Libobject.Lib.BlockHash
import Libobject.Lib.Buffer
import Libobject.Lib.Bytes

/-!
# Digests of messages that come in pieces

MD5 and SHA-1 keep the number of bytes so far, the state behind the whole blocks, and a buffer of
one block for what is left over. Both take in bytes and end in the same way.
-/

namespace Libobject.Digest

open BlockHash

/-- What the digests differ in. `length` are the eight bytes of a length. -/
structure Algorithm (σ : Type) where
  init : σ
  zero : σ
  block : σ → List UInt8 → σ
  length : BitVec 64 → List UInt8
  length_length : ∀ n, (length n).length = 8
  result : σ → List UInt8

structure Ctx (σ : Type) where
  bytes : BitVec 64
  state : σ
  buffer : List UInt8

namespace Algorithm

variable {σ : Type} (h : Algorithm σ)

/-- One or more blocks; `size` is a positive multiple of 64. -/
def body (s : σ) (data : List UInt8) (size : ℕ) : σ :=
  if size ≤ 64 then h.block s (data.take 64)
  else body (h.block s (data.take 64)) (data.drop 64) (size - 64)
termination_by size

/-- The buffer is not cleared. -/
def start (buffer : List UInt8) : Ctx σ := ⟨0, h.init, buffer⟩

/-- Whole blocks are taken where they are, and the rest is kept at the front of the buffer. -/
def updateBlocks (ctx : Ctx σ) (data : List UInt8) : Option (Ctx σ) :=
  let size := data.length
  if 64 ≤ size then
    (Buffer.put ctx.buffer 0 (data.drop (size - size % 64))).map fun buffer ↦
      { ctx with state := h.body ctx.state data (size - size % 64), buffer := buffer }
  else (Buffer.put ctx.buffer 0 data).map fun buffer ↦ { ctx with buffer := buffer }

/-- `data` are the bytes that are counted by `size`. -/
def update (ctx : Ctx σ) (data : List UInt8) : Option (Ctx σ) :=
  let used := (ctx.bytes &&& 0x3f).toNat
  let bytes := ctx.bytes + BitVec.ofNat 64 data.length
  if used = 0 then h.updateBlocks { ctx with bytes := bytes } data
  else
    let free := 64 - used
    if data.length < free then
      (Buffer.put ctx.buffer used data).map fun buffer ↦ ⟨bytes, ctx.state, buffer⟩
    else
      (Buffer.put ctx.buffer used (data.take free)).bind fun buffer ↦
        h.updateBlocks ⟨bytes, h.body ctx.state buffer 64, buffer⟩ (data.drop free)

/-- The result, and the context set to zero. -/
def final (ctx : Ctx σ) : Option (List UInt8 × Ctx σ) := do
  let used := (ctx.bytes &&& 0x3f).toNat
  let buffer ← Buffer.put ctx.buffer used [0x80]
  let used := used + 1
  let free := 64 - used
  let (state, used, free, buffer) ←
    if free < 8 then
      (Buffer.put buffer used (List.replicate free 0)).map fun buffer ↦
        (h.body ctx.state buffer 64, 0, 64, buffer)
    else some (ctx.state, used, free, buffer)
  let buffer ← Buffer.put buffer used (List.replicate (free - 8) 0)
  let buffer ← Buffer.put buffer 56 (h.length (ctx.bytes <<< 3))
  return (h.result (h.body state buffer 64), ⟨0, h.zero, List.replicate 64 0⟩)

/-! ## What a digest is -/

/-- A single bit, zeros up to the last eight bytes of a block, and the length in bits. -/
def pad (m : List UInt8) : List UInt8 :=
  m ++ 0x80 :: (List.replicate ((119 - m.length % 64) % 64) 0 ++
    h.length (BitVec.ofNat 64 (8 * m.length)))

def digest (m : List UInt8) : List UInt8 :=
  h.result (intake h.block 64 h.init (h.pad m)).1

/-! ## Pieces -/

/-- The context behind a message. -/
structure Holds (ctx : Ctx σ) (m : List UInt8) : Prop where
  bytes : ctx.bytes = BitVec.ofNat 64 m.length
  state : ctx.state = (intake h.block 64 h.init m).1
  length : ctx.buffer.length = 64
  buffer : ∃ old, ctx.buffer = (intake h.block 64 h.init m).2 ++ old

theorem used_eq (n : ℕ) : (BitVec.ofNat 64 n &&& 0x3f).toNat = n % 64 := by
  have hand : (BitVec.ofNat 64 n &&& 0x3f).toNat = n % 2 ^ 64 % 2 ^ 6 := by
    rw [BitVec.toNat_and, BitVec.toNat_ofNat]
    exact Nat.and_two_pow_sub_one_eq_mod _ 6
  rw [hand]
  omega

theorem body_one (s : σ) {b : List UInt8} (hb : b.length = 64) (post : List UInt8) :
    h.body s (b ++ post) 64 = h.block s b := by
  rw [body, if_pos le_rfl, List.take_left' hb]

theorem body_block (s : σ) {b : List UInt8} (hb : b.length = 64) : h.body s b 64 = h.block s b := by
  simpa using h.body_one s hb []

theorem body_eq (s : σ) {k : ℕ} {d : List UInt8} (hd : d.length = 64 * (k + 1))
    (post : List UInt8) :
    h.body s (d ++ post) (64 * (k + 1)) = (intake h.block 64 s d).1 := by
  induction k generalizing s d with
  | zero =>
    have hone : d.length = 64 := by omega
    rw [intake_one h.block (by omega) s hone]
    exact h.body_one s hone post
  | succ k ih =>
    have hfirst : (d.take 64).length = 64 := by
      rw [List.length_take]
      omega
    have hrest : (d.drop 64).length = 64 * (k + 1) := by
      rw [List.length_drop]
      omega
    have hintake := intake_block h.block (by omega : 0 < 64) s hfirst (d.drop 64)
    rw [List.take_append_drop] at hintake
    rw [hintake, ← ih _ hrest, body, if_neg (by omega), List.take_append_of_le_length (by omega),
      List.drop_append_of_le_length (by omega)]
    rfl

theorem updateBlocks_holds {ctx : Ctx σ} {m data : List UInt8}
    (hbytes : ctx.bytes = BitVec.ofNat 64 (m ++ data).length)
    (hstate : (intake h.block 64 h.init m) = (ctx.state, []))
    (hlen : ctx.buffer.length = 64) :
    ∃ ctx', h.updateBlocks ctx data = some ctx' ∧ h.Holds ctx' (m ++ data) := by
  have hintake : intake h.block 64 h.init (m ++ data) = intake h.block 64 ctx.state data := by
    rw [intake_append, hstate, List.nil_append]
  by_cases hsize : 64 ≤ data.length
  · obtain ⟨k, hk⟩ : ∃ k, data.length - data.length % 64 = 64 * (k + 1) :=
      ⟨data.length / 64 - 1, by omega⟩
    have hwhole : (data.take (64 * (k + 1))).length = 64 * (k + 1) := by
      rw [List.length_take]
      omega
    have htail : (data.drop (64 * (k + 1))).length < 64 := by
      rw [List.length_drop]
      omega
    have hbody := h.body_eq ctx.state hwhole (data.drop (64 * (k + 1)))
    have hdata := @intake_append _ _ h.block 64 ctx.state (data.take (64 * (k + 1)))
      (data.drop (64 * (k + 1)))
    rw [List.take_append_drop] at hbody hdata
    rw [intake_whole h.block (by omega) _ ⟨k + 1, hwhole⟩, List.nil_append,
      intake_of_lt _ _ htail, ← hbody] at hdata
    rw [updateBlocks, if_pos hsize, hk, Buffer.put, if_pos (by omega)]
    refine ⟨_, rfl, hbytes, ?_, ?_, ?_⟩
    · rw [hintake, hdata]
    · simp only [List.take_zero, List.nil_append, List.length_append, List.length_drop]
      omega
    · rw [hintake, hdata]
      exact ⟨_, rfl⟩
  · rw [updateBlocks, if_neg hsize, Buffer.put, if_pos (by omega)]
    refine ⟨_, rfl, hbytes, ?_, ?_, ?_⟩
    · rw [hintake, intake_of_lt _ _ (by omega)]
    · simp only [List.take_zero, List.nil_append, List.length_append, List.length_drop]
      omega
    · rw [hintake, intake_of_lt _ _ (by omega)]
      exact ⟨_, rfl⟩

theorem start_holds {buffer : List UInt8} (hlen : buffer.length = 64) :
    h.Holds (h.start buffer) [] := by
  have hnil : intake h.block 64 h.init [] = (h.init, []) :=
    intake_of_lt _ _ (by simp)
  refine ⟨rfl, ?_, hlen, buffer, ?_⟩
  · rw [hnil]
    rfl
  · rw [hnil]
    rfl

theorem update_holds {ctx : Ctx σ} {m : List UInt8} (hctx : h.Holds ctx m) (data : List UInt8) :
    ∃ ctx', h.update ctx data = some ctx' ∧ h.Holds ctx' (m ++ data) := by
  obtain ⟨hbytes, hstate, hlen, old, hbuffer⟩ := hctx
  have hleft := length_intake h.block (by omega : 0 < 64) h.init m
  have hcount : ctx.bytes + BitVec.ofNat 64 data.length = BitVec.ofNat 64 (m ++ data).length := by
    rw [hbytes, List.length_append, BitVec.ofNat_add]
  have hused : (ctx.bytes &&& 0x3f).toNat = m.length % 64 := by rw [hbytes, used_eq]
  rw [update, hused]
  generalize hr : (intake h.block 64 h.init m).2 = r at hleft hbuffer
  have hold : r.length + old.length = 64 := by rwa [hbuffer, List.length_append] at hlen
  have hpair : intake h.block 64 h.init m = (ctx.state, r) := by rw [hstate, ← hr]
  generalize m.length % 64 = used at hleft
  dsimp only
  split
  · next hzero =>
      have hnil : r = [] := List.length_eq_zero_iff.mp (hleft.trans hzero)
      rw [hnil] at hpair
      exact h.updateBlocks_holds hcount hpair hlen
  · next hpos =>
      have hput (bs : List UInt8) (hle : r.length + bs.length ≤ 64) :
          Buffer.put ctx.buffer (used) bs = some (r ++ (bs ++ old.drop bs.length)) := by
        rw [hbuffer, ← hleft, Buffer.put_append _ _ _ (by omega), List.append_assoc]
      split
      · next hlt =>
          rw [hput data (by omega)]
          refine ⟨_, rfl, hcount, ?_, ?_, ?_⟩
          · rw [intake_append, hpair, intake_of_lt]
            simp only [List.length_append]
            omega
          · simp only [List.length_append, List.length_drop]
            omega
          · rw [intake_append, hpair, intake_of_lt]
            · exact ⟨_, (List.append_assoc _ _ _).symm⟩
            · simp only [List.length_append]
              omega
      · next hge =>
          have htake : (data.take (64 - used)).length = 64 - used := by
            rw [List.length_take]
            omega
          have hblock : (r ++ data.take (64 - used)).length = 64 := by
            rw [List.length_append]
            omega
          rw [hput _ (by omega), Option.bind_some, ← List.append_assoc, h.body_one _ hblock]
          have hwhole : intake h.block 64 h.init (m ++ data.take (64 - used)) =
              (h.block ctx.state (r ++ data.take (64 - used)), []) := by
            rw [intake_append, hpair, intake_one h.block (by omega) _ hblock]
          have hbytes' : ctx.bytes + BitVec.ofNat 64 data.length =
              BitVec.ofNat 64 (m ++ data.take (64 - used) ++ data.drop (64 - used)).length := by
            rw [List.append_assoc, List.take_append_drop, hcount]
          have hnext := @updateBlocks_holds _ h ⟨_, _, r ++ data.take (64 - used) ++
            old.drop (data.take (64 - used)).length⟩ _ _ hbytes' hwhole
            (by simp only [List.length_append, List.length_drop]; omega)
          rwa [List.append_assoc m, List.take_append_drop] at hnext

theorem shift_eq (n : ℕ) : BitVec.ofNat 64 n <<< 3 = BitVec.ofNat 64 (8 * n) := by
  apply BitVec.eq_of_toNat_eq
  rw [BitVec.toNat_shiftLeft, BitVec.toNat_ofNat, BitVec.toNat_ofNat, Nat.shiftLeft_eq]
  omega

theorem close_eq (front rest : List UInt8) {len : List UInt8} (hfront : front.length ≤ 56)
    (hrest : front.length + rest.length = 64) (hlen : len.length = 8) :
    ∃ buffer, Buffer.put (front ++ rest) front.length (List.replicate (56 - front.length) 0) =
        some buffer ∧
      Buffer.put buffer 56 len = some (front ++ (List.replicate (56 - front.length) 0 ++ len)) := by
  have hboth := Buffer.put_put (front ++ rest) front.length
    (List.replicate (56 - front.length) 0) len
  have hput :
      Buffer.put (front ++ rest) front.length (List.replicate (56 - front.length) 0 ++ len) =
      some (front ++ (List.replicate (56 - front.length) 0 ++ len)) := by
    have h := @Buffer.put_over _ front rest (List.replicate (56 - front.length) 0 ++ len) _ rfl
      (by simp; omega) []
    simpa using h
  rw [hput, List.length_replicate, Nat.add_sub_cancel' hfront] at hboth
  exact Option.bind_eq_some_iff.mp hboth

theorem final_holds {ctx : Ctx σ} {m : List UInt8} (hctx : h.Holds ctx m) :
    h.final ctx = some (h.digest m, ⟨0, h.zero, List.replicate 64 0⟩) := by
  obtain ⟨hbytes, hstate, hlen, old, hbuffer⟩ := hctx
  have hleft := length_intake h.block (by omega : 0 < 64) h.init m
  have hused : (ctx.bytes &&& 0x3f).toNat = m.length % 64 := by rw [hbytes, used_eq]
  have hbits : ctx.bytes <<< 3 = BitVec.ofNat 64 (8 * m.length) := by rw [hbytes, shift_eq]
  generalize hr : (intake h.block 64 h.init m).2 = r at hleft hbuffer
  have hpair : intake h.block 64 h.init m = (ctx.state, r) := by rw [hstate, ← hr]
  have hold : r.length + old.length = 64 := by rwa [hbuffer, List.length_append] at hlen
  have hdigest : h.digest m = h.result (intake h.block 64 ctx.state
      (r ++ 0x80 :: (List.replicate ((119 - m.length % 64) % 64) 0 ++
        h.length (BitVec.ofNat 64 (8 * m.length))))).1 := by
    rw [digest, pad, intake_append, hpair]
  rw [final, hused, hbits, hdigest]
  generalize BitVec.ofNat 64 (8 * m.length) = bits
  generalize hu : m.length % 64 = used at *
  have height := h.length_length bits
  have hfirst : Buffer.put ctx.buffer used [0x80] = some (r ++ [0x80] ++ old.drop 1) := by
    rw [hbuffer, ← hleft, Buffer.put_append _ _ _ (by simp; omega)]
    rfl
  have hmark : (r ++ [(0x80 : UInt8)]).length = used + 1 := by simp [hleft]
  rw [hfirst, Option.bind_eq_bind, Option.bind_some]
  dsimp only
  by_cases hfull : 64 - (used + 1) < 8
  · -- the length does not fit into the block with the single bit
    have hblock : (r ++ [(0x80 : UInt8)] ++ List.replicate (64 - (used + 1)) 0).length = 64 := by
      rw [List.length_append, hmark, List.length_replicate]
      omega
    have hzeros : Buffer.put (r ++ [0x80] ++ old.drop 1) (used + 1)
        (List.replicate (64 - (used + 1)) 0) =
          some (r ++ [0x80] ++ List.replicate (64 - (used + 1)) 0) := by
      have h := @Buffer.put_over _ (r ++ [(0x80 : UInt8)]) (old.drop 1)
        (List.replicate (64 - (used + 1)) 0) _ hmark (by simp; omega) []
      simpa using h
    obtain ⟨buffer, hput, hlength⟩ := close_eq [] (r ++ [(0x80 : UInt8)] ++
      List.replicate (64 - (used + 1)) 0) (by simp) (by simpa using hblock) height
    have hlast : (List.replicate 56 (0 : UInt8) ++ h.length bits).length = 64 := by
      rw [List.length_append, List.length_replicate, height]
    have hsplit : r ++ 0x80 :: (List.replicate ((119 - used) % 64) 0 ++ h.length bits) =
        (r ++ [0x80] ++ List.replicate (64 - (used + 1)) 0) ++
          (List.replicate 56 0 ++ h.length bits) := by
      have hcount : (119 - used) % 64 = 64 - (used + 1) + 56 := by omega
      rw [hcount, List.replicate_add]
      simp
    rw [if_pos hfull, hzeros]
    simp only [Option.map_some, Option.bind_eq_bind, Option.bind_some]
    simp only [List.nil_append, List.length_nil, Nat.sub_zero] at hput hlength
    rw [hput, Option.bind_some, hlength, Option.bind_some, h.body_block _ hblock, hsplit,
      intake_block h.block (by omega) _ hblock, intake_one h.block (by omega) _ hlast]
    have hend := h.body_block (h.block ctx.state
      (r ++ [0x80] ++ List.replicate (64 - (used + 1)) 0)) hlast
    rw [← hend]
    rfl
  · obtain ⟨buffer, hput, hlength⟩ := close_eq (r ++ [0x80]) (old.drop 1) (by omega)
      (by rw [hmark, List.length_drop]; omega) height
    rw [hmark] at hput hlength
    have hcount : (119 - used) % 64 = 56 - (used + 1) := by omega
    have hfree : 64 - (used + 1) - 8 = 56 - (used + 1) := by omega
    have hblock : (r ++ 0x80 :: (List.replicate (56 - (used + 1)) 0 ++ h.length bits)).length =
        64 := by
      simp only [List.length_append, List.length_cons, List.length_replicate, height]
      omega
    rw [if_neg hfull]
    simp only [Option.bind_eq_bind, Option.bind_some, hfree]
    rw [hput, Option.bind_some, hlength, Option.bind_some, hcount,
      intake_one h.block (by omega) _ hblock, ← h.body_block _ hblock, List.append_assoc]
    rfl

theorem final_pieces (buffer : List UInt8) (hlen : buffer.length = 64)
    (pieces : List (List UInt8)) :
    (pieces.foldlM h.update (h.start buffer)).bind h.final =
      some (h.digest pieces.flatten, ⟨0, h.zero, List.replicate 64 0⟩) := by
  have hrun (ctx : Ctx σ) (m : List UInt8) (hctx : h.Holds ctx m) :
      ∃ ctx', pieces.foldlM h.update ctx = some ctx' ∧ h.Holds ctx' (m ++ pieces.flatten) := by
    induction pieces generalizing ctx m with
    | nil => exact ⟨ctx, rfl, by simpa using hctx⟩
    | cons piece pieces ih =>
      obtain ⟨next, hnext, hholds⟩ := h.update_holds hctx piece
      obtain ⟨ctx', hctx', hall⟩ := ih next (m ++ piece) hholds
      refine ⟨ctx', ?_, by simpa using hall⟩
      rw [List.foldlM_cons, hnext]
      exact hctx'
  obtain ⟨ctx, hctx, hall⟩ := hrun _ [] (h.start_holds hlen)
  rw [hctx, Option.bind_some, h.final_holds hall]
  rfl

end Algorithm

/-! ## MD5 -/

structure Md5 where
  a : BitVec 32
  b : BitVec 32
  c : BitVec 32
  d : BitVec 32

namespace Md5

def F (x y z : BitVec 32) : BitVec 32 := z ^^^ (x &&& (y ^^^ z))

def G (x y z : BitVec 32) : BitVec 32 := y ^^^ (z &&& (x ^^^ y))

def H (x y z : BitVec 32) : BitVec 32 := x ^^^ y ^^^ z

def I (x y z : BitVec 32) : BitVec 32 := y ^^^ (x ||| ~~~z)

/-- The four words change their places at each step. -/
def STEP (f : BitVec 32 → BitVec 32 → BitVec 32 → BitVec 32) (x t : BitVec 32) (s : ℕ) (v : Md5) :
    Md5 :=
  let a := v.a + (f v.b v.c v.d + x + t)
  let a := a <<< s ||| (a &&& 0xffffffff) >>> (32 - s)
  ⟨v.d, a + v.b, v.b, v.c⟩

/-- The word, the constant and the shift of each step of a round. -/
def round1 : List (ℕ × BitVec 32 × ℕ) := [
  (0, 0xd76aa478, 7), (1, 0xe8c7b756, 12), (2, 0x242070db, 17), (3, 0xc1bdceee, 22),
  (4, 0xf57c0faf, 7), (5, 0x4787c62a, 12), (6, 0xa8304613, 17), (7, 0xfd469501, 22),
  (8, 0x698098d8, 7), (9, 0x8b44f7af, 12), (10, 0xffff5bb1, 17), (11, 0x895cd7be, 22),
  (12, 0x6b901122, 7), (13, 0xfd987193, 12), (14, 0xa679438e, 17), (15, 0x49b40821, 22)]

def round2 : List (ℕ × BitVec 32 × ℕ) := [
  (1, 0xf61e2562, 5), (6, 0xc040b340, 9), (11, 0x265e5a51, 14), (0, 0xe9b6c7aa, 20),
  (5, 0xd62f105d, 5), (10, 0x02441453, 9), (15, 0xd8a1e681, 14), (4, 0xe7d3fbc8, 20),
  (9, 0x21e1cde6, 5), (14, 0xc33707d6, 9), (3, 0xf4d50d87, 14), (8, 0x455a14ed, 20),
  (13, 0xa9e3e905, 5), (2, 0xfcefa3f8, 9), (7, 0x676f02d9, 14), (12, 0x8d2a4c8a, 20)]

def round3 : List (ℕ × BitVec 32 × ℕ) := [
  (5, 0xfffa3942, 4), (8, 0x8771f681, 11), (11, 0x6d9d6122, 16), (14, 0xfde5380c, 23),
  (1, 0xa4beea44, 4), (4, 0x4bdecfa9, 11), (7, 0xf6bb4b60, 16), (10, 0xbebfbc70, 23),
  (13, 0x289b7ec6, 4), (0, 0xeaa127fa, 11), (3, 0xd4ef3085, 16), (6, 0x04881d05, 23),
  (9, 0xd9d4d039, 4), (12, 0xe6db99e5, 11), (15, 0x1fa27cf8, 16), (2, 0xc4ac5665, 23)]

def round4 : List (ℕ × BitVec 32 × ℕ) := [
  (0, 0xf4292244, 6), (7, 0x432aff97, 10), (14, 0xab9423a7, 15), (5, 0xfc93a039, 21),
  (12, 0x655b59c3, 6), (3, 0x8f0ccc92, 10), (10, 0xffeff47d, 15), (1, 0x85845dd1, 21),
  (8, 0x6fa87e4f, 6), (15, 0xfe2ce6e0, 10), (6, 0xa3014314, 15), (13, 0x4e0811a1, 21),
  (4, 0xf7537e82, 6), (11, 0xbd3af235, 10), (2, 0x2ad7d2bb, 15), (9, 0xeb86d391, 21)]

/-- The lowest byte of a word is the first one. -/
def GET (p : List UInt8) (n : ℕ) : BitVec 32 :=
  BitVec.ofNat 32 (leNat (field p (n * 4) 4))

def round (f : BitVec 32 → BitVec 32 → BitVec 32 → BitVec 32) (rows : List (ℕ × BitVec 32 × ℕ))
    (p : List UInt8) (v : Md5) : Md5 :=
  rows.foldl (fun v row ↦ STEP f (GET p row.1) row.2.1 row.2.2 v) v

def block (saved : Md5) (p : List UInt8) : Md5 :=
  let v := round I round4 p (round H round3 p (round G round2 p (round F round1 p saved)))
  ⟨v.a + saved.a, v.b + saved.b, v.c + saved.c, v.d + saved.d⟩

def bytes (w : BitVec 32) : List UInt8 := leBytes 4 w.toNat

end Md5

def md5 : Algorithm Md5 where
  init := ⟨0x67452301, 0xefcdab89, 0x98badcfe, 0x10325476⟩
  zero := ⟨0, 0, 0, 0⟩
  block := Md5.block
  length n := leBytes 8 n.toNat
  length_length _ := length_leBytes 8 _
  result v := Md5.bytes v.a ++ Md5.bytes v.b ++ Md5.bytes v.c ++ Md5.bytes v.d

/-! ## SHA-1 -/

structure Sha1 where
  a : BitVec 32
  b : BitVec 32
  c : BitVec 32
  d : BitVec 32
  e : BitVec 32

namespace Sha1

def ROTATE (bits : ℕ) (word : BitVec 32) : BitVec 32 := word <<< bits ||| word >>> (32 - bits)

def F1 (b c d : BitVec 32) : BitVec 32 := (b &&& c) ||| (~~~b &&& d)

def F2 (b c d : BitVec 32) : BitVec 32 := b ^^^ c ^^^ d

def F3 (b c d : BitVec 32) : BitVec 32 := (b &&& c) ||| (b &&& d) ||| (c &&& d)

def STEP (f : BitVec 32 → BitVec 32 → BitVec 32 → BitVec 32) (t : BitVec 32) (v : Sha1)
    (w : BitVec 32) : Sha1 :=
  ⟨ROTATE 5 v.a + f v.b v.c v.d + v.e + w + t, v.a, ROTATE 30 v.b, v.c, v.d⟩

/-- The highest byte of a word is the first one. -/
def GET (p : List UInt8) (n : ℕ) : BitVec 32 :=
  BitVec.ofNat 32 (beNat (field p (n * 4) 4))

/-- The words from 16 on, each from those before it. -/
def expand : ℕ → List (BitVec 32) → List (BitVec 32)
  | 0, words => words
  | k + 1, words =>
    let i := words.length
    expand k (words ++ [ROTATE 1 (words.getD (i - 3) 0 ^^^ words.getD (i - 8) 0 ^^^
      words.getD (i - 14) 0 ^^^ words.getD (i - 16) 0)])

def words (p : List UInt8) : List (BitVec 32) := expand 64 ((List.range 16).map (GET p))

def block (saved : Sha1) (p : List UInt8) : Sha1 :=
  let words := words p
  let v := (words.take 20).foldl (STEP F1 0x5a827999) saved
  let v := ((words.drop 20).take 20).foldl (STEP F2 0x6ed9eba1) v
  let v := ((words.drop 40).take 20).foldl (STEP F3 0x8f1bbcdc) v
  let v := ((words.drop 60).take 20).foldl (STEP F2 0xca62c1d6) v
  ⟨v.a + saved.a, v.b + saved.b, v.c + saved.c, v.d + saved.d, v.e + saved.e⟩

def bytes (w : BitVec 32) : List UInt8 := beBytes 4 w.toNat

end Sha1

def sha1 : Algorithm Sha1 where
  init := ⟨0x67452301, 0xefcdab89, 0x98badcfe, 0x10325476, 0xc3d2e1f0⟩
  zero := ⟨0, 0, 0, 0, 0⟩
  block := Sha1.block
  length n := beBytes 8 n.toNat
  length_length _ := by rw [beBytes, List.length_reverse, length_leBytes]
  result v := Sha1.bytes v.a ++ Sha1.bytes v.b ++ Sha1.bytes v.c ++ Sha1.bytes v.d ++ Sha1.bytes v.e

def digest_md5_init (buffer : List UInt8) : Ctx Md5 := md5.start buffer

def digest_md5_update (ctx : Ctx Md5) (data : List UInt8) : Option (Ctx Md5) := md5.update ctx data

def digest_md5_final (ctx : Ctx Md5) : Option (List UInt8 × Ctx Md5) := md5.final ctx

def digest_sha1_init (buffer : List UInt8) : Ctx Sha1 := sha1.start buffer

def digest_sha1_update (ctx : Ctx Sha1) (data : List UInt8) : Option (Ctx Sha1) :=
  sha1.update ctx data

def digest_sha1_final (ctx : Ctx Sha1) : Option (List UInt8 × Ctx Sha1) := sha1.final ctx

/-- Any pieces, put into a context with any bytes in its buffer, give the digest of the message. -/
theorem pieces_digest (buffer : {bytes : List UInt8 // bytes.length = 64})
    (pieces : List (List UInt8)) :
    ((pieces.foldlM digest_md5_update (digest_md5_init buffer.1)).bind digest_md5_final).map
        Prod.fst = some (md5.digest pieces.flatten) ∧
      ((pieces.foldlM digest_sha1_update (digest_sha1_init buffer.1)).bind digest_sha1_final).map
        Prod.fst = some (sha1.digest pieces.flatten) := by
  have hmd5 := md5.final_pieces buffer.1 buffer.2 pieces
  have hsha1 := sha1.final_pieces buffer.1 buffer.2 pieces
  constructor
  · exact congrArg (Option.map Prod.fst) hmd5
  · exact congrArg (Option.map Prod.fst) hsha1

example : md5.digest [49, 50, 51, 52, 53, 54, 55, 56, 57] = [0x25, 0xf9, 0xe7, 0x94, 0x32, 0x3b,
    0x45, 0x38, 0x85, 0xf5, 0x18, 0x1f, 0x1b, 0x62, 0x4d, 0x0b] := by
  rw [Algorithm.digest, intake_one _ (by decide) _ (by rfl)]
  decide +kernel

example : sha1.digest [49, 50, 51, 52, 53, 54, 55, 56, 57] = [0xf7, 0xc3, 0xbc, 0x1d, 0x80, 0x8e,
    0x04, 0x73, 0x2a, 0xdf, 0x67, 0x99, 0x65, 0xcc, 0xc3, 0x4c, 0xa7, 0xae, 0x34, 0x41] := by
  rw [Algorithm.digest, intake_one _ (by decide) _ (by rfl)]
  decide +kernel

end Libobject.Digest
