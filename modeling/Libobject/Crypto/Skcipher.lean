import Libobject.Lib.BlockCipher

/-!
# Symmetric-key ciphers

The algorithm of a mode encrypts a text with the block cipher under it, and fills up the last
block; decrypting takes the filling off again. An access outside of a buffer is undefined, and so is
a signed sum that does not fit.
-/

namespace Libobject.Crypto

open Buffer (put get put_put put_isSome)
open BlockCipher

inductive SkcipherPadding
  | no
  | zero
  | pkcs7
  deriving DecidableEq

def MAX_BLOCK_SIZE : ℕ := 128

def INT_BOUND : ℕ := 2 ^ 31

structure SkcipherAlgo (κ : Type*) where
  sub_algo : BlockCipher κ
  key : κ
  mode : Mode
  padding : SkcipherPadding
  iv : List UInt8
  last_block : List UInt8
  length_iv : iv.length = MAX_BLOCK_SIZE
  length_last_block : last_block.length = MAX_BLOCK_SIZE

structure Result where
  ret : ℤ
  out : List UInt8
  out_len : ℕ
  deriving DecidableEq

structure Encrypted extends Result where
  /-- How many bytes were written to `out`. -/
  written : ℕ
  deriving DecidableEq

namespace SkcipherAlgo

variable {κ : Type*} (algo : SkcipherAlgo κ)

def block_size : ℕ := algo.sub_algo.size

/-- The block combined with the bytes at `iv`, which only the chaining mode reads. -/
def mask (iv block : List UInt8) : Option (List UInt8) :=
  if algo.mode.Reads iv algo.block_size then some (algo.mode.mask iv block) else none

/-- What the policies of the paddings write behind the `offset` bytes of `last_block`. -/
def fill (offset : ℕ) : List UInt8 :=
  match algo.padding with
  | .no => []
  | .zero => List.replicate (algo.block_size - offset) 0
  | .pkcs7 => List.replicate (algo.block_size - offset) (UInt8.ofNat (algo.block_size - offset))

/-- The last block, with what is left of the text and the padding behind it. -/
def pad (tail : List UInt8) : Option (ℤ × List UInt8) :=
  if algo.block_size < tail.length then some (-1, algo.last_block)
  else do
    let last_block ← put algo.last_block 0 tail
    let last_block ← put last_block tail.length (algo.fill tail.length)
    return (1, last_block)

/-- The loop over the whole blocks of the text, from `i` on. -/
def encrypt_blocks (inp : List UInt8) :
    ℕ → ℕ → List UInt8 → List UInt8 → Option (ℕ × List UInt8 × List UInt8)
  | 0, i, iv, out => some (i, iv, out)
  | fuel + 1, i, iv, out =>
    if i < inp.length ∧ algo.block_size ≤ inp.length - i then do
      let block ← get inp i algo.block_size
      let block ← algo.mask iv block
      let block := algo.sub_algo.encrypt algo.key block
      let out ← put out i block
      if i + algo.block_size < INT_BOUND then
        encrypt_blocks inp fuel (i + algo.block_size) block out
      else none
    else some (i, iv, out)

/-- `encrypt` of both modes; a whole block is filled up behind a text of whole blocks. -/
def encrypt (inp out : List UInt8) (out_len : ℕ) : Option Encrypted := do
  let (i, iv, out) ← algo.encrypt_blocks inp inp.length 0 algo.iv out
  let (ret, last_block) ← algo.pad (inp.drop i)
  if ret < 0 then
    return { ret := -1, out := out, out_len := out_len, written := i }
  else if algo.padding ≠ .no then
    let block ← get last_block 0 algo.block_size
    let block ← algo.mask iv block
    let out ← put out i (algo.sub_algo.encrypt algo.key block)
    if i + algo.block_size < INT_BOUND then
      return { ret := 1, out := out, out_len := i + algo.block_size,
               written := i + algo.block_size }
    else none
  else if i + algo.block_size < INT_BOUND then
    return { ret := 1, out := out, out_len := i + algo.block_size, written := i }
  else none

/-- The scan of `i` over the zeros at the end, down to `low`; below 0 it compares as a number that
is larger than `low` again, and reads in front of `out`. -/
def unpad_zero_scan (out : List UInt8) (low : ℕ) : ℕ → Option ℕ
  | 0 =>
    if low ≤ 0 then do
      let c ← out[0]?
      if c = 0 then none else some 1
    else some 1
  | i + 1 =>
    if low ≤ i + 1 then do
      let c ← out[i + 1]?
      if c = 0 then unpad_zero_scan out low i else some (i + 2)
    else some (i + 2)

/-- `a - b` in the arithmetic of `u32`. -/
def sub32 (a b : ℕ) : ℕ := (a + 2 ^ 32 - b) % 2 ^ 32

def unpad_zero (out : List UInt8) (out_len : ℕ) : Option Result := do
  let c ← out[out_len]?
  if c ≠ 0 then
    return ⟨-1, out, out_len⟩
  else
    let len ← unpad_zero_scan out (sub32 out_len algo.block_size) out_len
    return ⟨1, out, len⟩

/-- The bytes from `out_len` down to above `out_len - count` are cleared: the first of them is the
one behind the text. No byte is where the difference is a `u32` below 0. -/
def unpad_pkcs7_clear (out : List UInt8) (out_len count : ℕ) : Option (List UInt8) :=
  if count ≤ out_len then put out (out_len + 1 - count) (List.replicate count 0) else some out

def unpad_pkcs7 (out : List UInt8) (out_len : ℕ) : Option Result := do
  let c ← out[sub32 out_len 1]?
  if c.toNat > 16 ∨ c.toNat ≤ 0 then
    return ⟨-1, out, out_len⟩
  else
    let out ← unpad_pkcs7_clear out out_len c.toNat
    return ⟨1, out, sub32 out_len c.toNat⟩

def unpad (out : List UInt8) (out_len : ℕ) : Option Result :=
  match algo.padding with
  | .no => some ⟨1, out, out_len⟩
  | .zero => algo.unpad_zero out out_len
  | .pkcs7 => unpad_pkcs7 out out_len

/-- The loop over the blocks of the ciphertext; `out_len` is how large `out` is said to be. -/
def decrypt_blocks (inp : List UInt8) (out_len : ℕ) :
    ℕ → ℕ → List UInt8 → List UInt8 → Option (ℤ × List UInt8)
  | 0, _, _, out => some (1, out)
  | fuel + 1, i, iv, out =>
    if i < inp.length then
      if out_len < i then some (-1, out)
      else do
        let block ← get inp i algo.block_size
        let text ← algo.mask iv (algo.sub_algo.decrypt algo.key block)
        let out ← put out i text
        if i + algo.block_size < INT_BOUND then
          decrypt_blocks inp out_len fuel (i + algo.block_size) block out
        else none
    else some (1, out)

/-- `decrypt` of both modes, into a buffer other than `inp`. -/
def decrypt (inp out : List UInt8) (out_len : ℕ) : Option Result := do
  let (ret, out) ← algo.decrypt_blocks inp out_len inp.length 0 algo.iv out
  if ret < 0 then return ⟨-1, out, out_len⟩
  else algo.unpad out inp.length

section Loops

variable {algo} {bs : List (List UInt8)} {tail iv out : List UInt8} {fuel n : ℕ}
  (done : List UInt8)

theorem put_nil {i : ℕ} (h : i ≤ out.length) : put out i [] = some out := by
  rw [put, if_pos (by simpa using h)]
  simp

theorem mask_eq {block : List UInt8} (h : algo.mode.Reads iv algo.block_size) :
    algo.mask iv block = some (algo.mode.mask iv block) := if_pos h

theorem encrypt_blocks_cons {b rest : List UInt8} (hb : b.length = algo.block_size)
    (hiv : algo.mode.Reads iv algo.block_size) :
    algo.encrypt_blocks (done ++ (b ++ rest)) (fuel + 1) done.length iv out =
      (put out done.length (algo.sub_algo.encrypt algo.key (algo.mode.mask iv b))).bind fun out ↦
        if (done ++ b).length < INT_BOUND then
          algo.encrypt_blocks (done ++ b ++ rest) fuel (done ++ b).length
            (algo.sub_algo.encrypt algo.key (algo.mode.mask iv b)) out
        else none := by
  have hpos : 0 < algo.block_size := algo.sub_algo.size_pos
  have henter : done.length < (done ++ (b ++ rest)).length ∧
      algo.block_size ≤ (done ++ (b ++ rest)).length - done.length := by
    simp only [List.length_append, hb]
    omega
  have hget : get (done ++ (b ++ rest)) done.length algo.block_size = some b :=
    Buffer.get_append rfl hb rest
  rw [encrypt_blocks, if_pos henter, hget, List.length_append, hb, List.append_assoc]
  simp only [Option.bind_eq_bind, Option.bind_some, mask_eq hiv]

theorem encrypt_blocks_exit (htail : tail.length < algo.block_size) :
    algo.encrypt_blocks (done ++ tail) fuel done.length iv out = some (done.length, iv, out) := by
  cases fuel with
  | zero => rfl
  | succ fuel =>
    rw [encrypt_blocks, if_neg]
    rw [List.length_append, Nat.add_sub_cancel_left]
    omega

theorem encrypt_blocks_eq (hbs : Blocks algo.block_size bs) (htail : tail.length < algo.block_size)
    (hiv : algo.mode.Reads iv algo.block_size) (hfuel : bs.length ≤ fuel)
    (hi : done.length ≤ out.length) (hint : done.length < INT_BOUND) :
    algo.encrypt_blocks (done ++ (bs.flatten ++ tail)) fuel done.length iv out =
      if done.length + bs.flatten.length < INT_BOUND then
        (put out done.length (algo.sub_algo.encBlocks algo.mode algo.key iv bs).flatten).map
          (fun out ↦ (done.length + bs.flatten.length,
            nextIv iv (algo.sub_algo.encBlocks algo.mode algo.key iv bs), out))
      else none := by
  induction bs generalizing done iv out fuel with
  | nil =>
    rw [List.flatten_nil, List.nil_append, encrypt_blocks_exit done htail, encBlocks,
      List.flatten_nil, put_nil hi, List.length_nil, Nat.add_zero, if_pos hint]
    rfl
  | cons b bs ih =>
    obtain ⟨hb, hbs⟩ := blocks_cons.mp hbs
    obtain ⟨fuel, rfl⟩ := Nat.exists_eq_succ_of_ne_zero
      (Nat.pos_iff_ne_zero.mp (Nat.lt_of_lt_of_le (Nat.succ_pos _) hfuel))
    have hc := length_encrypt_mask (C := algo.sub_algo) (k := algo.key) hiv hb
    have hsum : done.length + (b ++ bs.flatten).length =
        (done ++ b).length + bs.flatten.length := by
      simp only [List.length_append, Nat.add_assoc]
    rw [List.flatten_cons, List.append_assoc, encrypt_blocks_cons done hb hiv, encBlocks,
      List.flatten_cons, ← put_put, nextIv_cons, hsum]
    generalize algo.sub_algo.encrypt algo.key (algo.mode.mask iv b) = c at hc ⊢
    have hlen : done.length + c.length = (done ++ b).length := by
      rw [List.length_append, hc, hb]
      rfl
    cases hout : put out done.length c with
    | none => simp
    | some out₁ =>
      have hfit := put_isSome.mp (hout ▸ Option.isSome_some)
      rw [← Buffer.length_put hout, hlen] at hfit
      rw [Option.bind_some, Option.bind_some, hlen]
      by_cases hlt : (done ++ b).length < INT_BOUND
      · rw [if_pos hlt]
        exact ih (done ++ b) hbs (algo.mode.reads_length hc)
          (Nat.le_of_succ_le_succ hfuel) hfit hlt
      · rw [if_neg hlt, if_neg (by omega)]

theorem decrypt_blocks_cons {c rest : List UInt8} (hc : c.length = algo.block_size)
    (hi : done.length ≤ out.length) :
    algo.decrypt_blocks (done ++ (c ++ rest)) out.length (fuel + 1) done.length iv out =
      (algo.mask iv (algo.sub_algo.decrypt algo.key c)).bind fun text ↦
        (put out done.length text).bind fun out' ↦
          if (done ++ c).length < INT_BOUND then
            algo.decrypt_blocks (done ++ c ++ rest) out'.length fuel (done ++ c).length c out'
          else none := by
  have hpos : 0 < algo.block_size := algo.sub_algo.size_pos
  have henter : done.length < (done ++ (c ++ rest)).length := by
    simp only [List.length_append, hc]
    omega
  have hget : get (done ++ (c ++ rest)) done.length algo.block_size = some c :=
    Buffer.get_append rfl hc rest
  rw [decrypt_blocks, if_pos henter, if_neg (by omega), hget, List.length_append, hc,
    List.append_assoc]
  simp only [Option.bind_eq_bind, Option.bind_some]
  refine congrArg _ (funext fun text ↦ ?_)
  cases hout : put out done.length text with
  | none => rfl
  | some out' => rw [Option.bind_some, Option.bind_some, Buffer.length_put hout]

theorem decrypt_blocks_nil :
    algo.decrypt_blocks done n fuel done.length iv out = some (1, out) := by
  cases fuel with
  | zero => rfl
  | succ fuel => rw [decrypt_blocks, if_neg (lt_irrefl _)]

theorem decrypt_blocks_eq (hbs : Blocks algo.block_size bs)
    (hiv : algo.mode.Reads iv algo.block_size) (hfuel : bs.length ≤ fuel)
    (hi : done.length ≤ out.length) (hint : done.length < INT_BOUND) :
    algo.decrypt_blocks (done ++ bs.flatten) out.length fuel done.length iv out =
      if done.length + bs.flatten.length < INT_BOUND then
        (put out done.length (algo.sub_algo.decBlocks algo.mode algo.key iv bs).flatten).map
          (fun out ↦ (1, out))
      else none := by
  induction bs generalizing done iv out fuel with
  | nil =>
    rw [List.flatten_nil, List.append_nil, decrypt_blocks_nil done, decBlocks, List.flatten_nil,
      put_nil hi, List.length_nil, Nat.add_zero, if_pos hint]
    rfl
  | cons c cs ih =>
    obtain ⟨hc, hcs⟩ := blocks_cons.mp hbs
    obtain ⟨fuel, rfl⟩ := Nat.exists_eq_succ_of_ne_zero
      (Nat.pos_iff_ne_zero.mp (Nat.lt_of_lt_of_le (Nat.succ_pos _) hfuel))
    have htext := length_mask_decrypt (C := algo.sub_algo) (k := algo.key) hiv hc
    have hsum : done.length + (c ++ cs.flatten).length =
        (done ++ c).length + cs.flatten.length := by
      simp only [List.length_append, Nat.add_assoc]
    rw [List.flatten_cons, decrypt_blocks_cons done hc hi, decBlocks, List.flatten_cons,
      ← put_put, mask_eq hiv, Option.bind_some, hsum]
    generalize algo.mode.mask iv (algo.sub_algo.decrypt algo.key c) = text at htext ⊢
    have hlen : done.length + text.length = (done ++ c).length := by
      rw [List.length_append, htext, hc]
      rfl
    cases hout : put out done.length text with
    | none => simp
    | some out₁ =>
      have hfit := put_isSome.mp (hout ▸ Option.isSome_some)
      rw [← Buffer.length_put hout, hlen] at hfit
      rw [Option.bind_some, Option.bind_some, hlen]
      by_cases hlt : (done ++ c).length < INT_BOUND
      · rw [if_pos hlt]
        exact ih (done ++ c) hcs (algo.mode.reads_length hc)
          (Nat.le_of_succ_le_succ hfuel) hfit hlt
      · rw [if_neg hlt, if_neg (by omega)]

theorem decrypt_blocks_tail (hbs : Blocks algo.block_size bs)
    (htail : tail.length < algo.block_size) (hne : tail ≠ []) (hfuel : bs.length < fuel)
    (hi : done.length ≤ out.length) :
    algo.decrypt_blocks (done ++ (bs.flatten ++ tail)) out.length fuel done.length iv out =
      none := by
  induction bs generalizing done iv out fuel with
  | nil =>
    obtain ⟨fuel, rfl⟩ := Nat.exists_eq_succ_of_ne_zero (Nat.pos_iff_ne_zero.mp hfuel)
    have hpos := List.length_pos_iff.mpr hne
    have hget : get (done ++ tail) done.length algo.block_size = none := by
      rw [Buffer.get, if_neg]
      rw [List.length_append]
      omega
    rw [List.flatten_nil, List.nil_append, decrypt_blocks, if_neg (Nat.not_lt.mpr hi), hget,
      if_pos (by rw [List.length_append]; omega)]
    rfl
  | cons c cs ih =>
    obtain ⟨hc, hcs⟩ := blocks_cons.mp hbs
    obtain ⟨fuel, rfl⟩ := Nat.exists_eq_succ_of_ne_zero (Nat.pos_iff_ne_zero.mp
      (Nat.lt_of_le_of_lt (Nat.zero_le _) hfuel))
    rw [List.flatten_cons, List.append_assoc, decrypt_blocks_cons done hc hi]
    rw [Option.bind_eq_none_iff]
    intro text htext
    rw [Option.bind_eq_none_iff]
    intro out' hout
    have hfit := put_isSome.mp (hout ▸ Option.isSome_some)
    have htext' : text.length = algo.block_size := by
      rw [mask] at htext
      split at htext
      · next hiv =>
          obtain rfl := Option.some.inj htext
          exact length_mask_decrypt hiv hc
      · cases htext
    split
    · apply ih (done ++ c) hcs (Nat.lt_of_succ_lt_succ hfuel)
      rw [Buffer.length_put hout, List.length_append, hc, ← htext']
      exact hfit
    · rfl

end Loops

section Whole

variable {algo} {bs : List (List UInt8)} {tail out : List UInt8} {n : ℕ}

theorem length_le_flatten (hbs : Blocks algo.block_size bs) : bs.length ≤ bs.flatten.length := by
  rw [hbs.length_flatten]
  exact Nat.le_mul_of_pos_right _ algo.sub_algo.size_pos

theorem pad_eq (htail : tail.length < algo.block_size) (hpad : algo.padding ≠ .no)
    (hsize : algo.block_size ≤ MAX_BLOCK_SIZE) :
    ∃ rest, algo.pad tail = some (1, tail ++ algo.fill tail.length ++ rest) ∧
      (tail ++ algo.fill tail.length).length = algo.block_size := by
  have hlen : (tail ++ algo.fill tail.length).length = algo.block_size := by
    unfold fill
    rw [List.length_append]
    cases hp : algo.padding with
    | no => exact absurd hp hpad
    | zero =>
      rw [List.length_replicate]
      omega
    | pkcs7 =>
      rw [List.length_replicate]
      omega
  have hput := Buffer.put_append [] algo.last_block (tail ++ algo.fill tail.length)
    (by rw [hlen, algo.length_last_block]; exact hsize)
  have hboth := (put_put algo.last_block 0 tail (algo.fill tail.length)).trans hput
  rw [Nat.zero_add, List.nil_append] at hboth
  refine ⟨algo.last_block.drop (tail ++ algo.fill tail.length).length, ?_, hlen⟩
  rw [pad, if_neg (Nat.not_lt.mpr htail.le)]
  simp only [Option.bind_eq_bind, Option.pure_def]
  rw [← Option.bind_assoc, hboth]
  rfl

theorem encrypt_eq (out : List UInt8) (n : ℕ) (hbs : Blocks algo.block_size bs)
    (htail : tail.length < algo.block_size) (hpad : algo.padding ≠ .no)
    (hsize : algo.block_size ≤ MAX_BLOCK_SIZE) :
    algo.encrypt (bs.flatten ++ tail) out n =
      if (bs.length + 1) * algo.block_size < INT_BOUND then
        (put out 0 (algo.sub_algo.encBlocks algo.mode algo.key algo.iv
          (bs ++ [tail ++ algo.fill tail.length])).flatten).map fun out ↦
            ⟨⟨1, out, (bs.length + 1) * algo.block_size⟩, (bs.length + 1) * algo.block_size⟩
      else none := by
  have hiv : algo.mode.Reads algo.iv algo.block_size := fun _ ↦ algo.length_iv ▸ hsize
  have hfuel : bs.length ≤ (bs.flatten ++ tail).length := by
    rw [List.length_append]
    exact (length_le_flatten hbs).trans (Nat.le_add_right _ _)
  have hloop := encrypt_blocks_eq [] hbs htail hiv hfuel (Nat.zero_le out.length)
    (by decide)
  obtain ⟨rest, hpadded, hblock⟩ := pad_eq htail hpad hsize
  simp only [List.nil_append, List.length_nil, Nat.zero_add] at hloop
  have hsum : (bs.length + 1) * algo.block_size = bs.flatten.length + algo.block_size := by
    rw [hbs.length_flatten, Nat.succ_mul]
  have hpos : 0 < algo.block_size := algo.sub_algo.size_pos
  rw [encrypt, hloop, encBlocks_snoc, List.flatten_append, ← put_put, hsum, Nat.zero_add]
  have hcs := blocks_encBlocks (C := algo.sub_algo) (k := algo.key) hiv hbs
  have hlen : (algo.sub_algo.encBlocks algo.mode algo.key algo.iv bs).flatten.length =
      bs.flatten.length := by
    rw [hcs.length_flatten, length_encBlocks, hbs.length_flatten]
    rfl
  have hnext := reads_nextIv hiv hcs
  generalize algo.sub_algo.encBlocks algo.mode algo.key algo.iv bs = cs at hcs hlen hnext ⊢
  by_cases hint : bs.flatten.length < INT_BOUND
  · rw [if_pos hint]
    cases hout : put out 0 cs.flatten with
    | none => simp
    | some out₁ =>
      have hget : get (tail ++ algo.fill tail.length ++ rest) 0 algo.block_size =
          some (tail ++ algo.fill tail.length) :=
        Buffer.get_append (List.length_nil : ([] : List UInt8).length = 0) hblock rest
      simp only [Option.map_some, Option.bind_eq_bind, Option.bind_some, List.drop_left, hpadded,
        hget, mask_eq hnext, hpad, hlen, List.flatten_cons, List.flatten_nil, List.append_nil,
        ne_eq, not_false_eq_true, if_true]
      rw [if_neg (by decide)]
      by_cases hfull : bs.flatten.length + algo.block_size < INT_BOUND
      · simp only [if_pos hfull, Option.map_eq_bind]
        rfl
      · simp only [if_neg hfull, Option.bind_fun_none]
  · rw [if_neg hint, if_neg (by omega)]
    rfl

theorem pad_fits {ret : ℤ} {last_block : List UInt8} (h : algo.pad tail = some (ret, last_block))
    (hret : 0 ≤ ret) (hpad : algo.padding ≠ .no) : algo.block_size ≤ MAX_BLOCK_SIZE := by
  rw [pad] at h
  split at h
  · cases h
    cases hret
  · next hle =>
      simp only [Option.bind_eq_bind, Option.pure_def] at h
      rw [← Option.bind_assoc] at h
      obtain ⟨lb, hput, -⟩ := Option.bind_eq_some_iff.mp h
      have hboth := put_put algo.last_block 0 tail (algo.fill tail.length)
      rw [Nat.zero_add] at hboth
      have hfit := put_isSome.mp ((hboth.symm.trans hput) ▸ Option.isSome_some)
      have hfill : (algo.fill tail.length).length = algo.block_size - tail.length := by
        unfold fill
        cases hp : algo.padding with
        | no => exact absurd hp hpad
        | zero => exact List.length_replicate
        | pkcs7 => exact List.length_replicate
      rw [List.length_append, hfill, algo.length_last_block] at hfit
      omega

/-- A text is encrypted with a padding only if `last_block` has room for a block. Without one the
length that is reported is a block more than what was written. -/
theorem encrypt_cases {inp : List UInt8} {r : Encrypted} (h : algo.encrypt inp out n = some r)
    (hret : 0 ≤ r.ret) :
    (algo.padding ≠ .no ∧ algo.block_size ≤ MAX_BLOCK_SIZE) ∨
      (algo.padding = .no ∧ r.out_len = r.written + algo.block_size) := by
  simp only [encrypt, Option.bind_eq_bind, Option.bind_eq_some_iff] at h
  obtain ⟨⟨i, iv, out₁⟩, -, ⟨ret, last_block⟩, hpadded, h⟩ := h
  split at h
  · cases h
    cases hret
  · next hpos =>
      split at h
      · next hpad => exact .inl ⟨hpad, pad_fits hpadded (Int.not_lt.mp hpos) hpad⟩
      · next hno =>
          split at h
          · cases h
            exact .inr ⟨not_not.mp hno, rfl⟩
          · cases h

theorem decrypt_eq (out : List UInt8) (hbs : Blocks algo.block_size bs)
    (hiv : bs = [] ∨ algo.mode.Reads algo.iv algo.block_size) :
    algo.decrypt bs.flatten out out.length =
      if bs.flatten.length < INT_BOUND then
        (put out 0 (algo.sub_algo.decBlocks algo.mode algo.key algo.iv bs).flatten).bind fun out ↦
          algo.unpad out bs.flatten.length
      else none := by
  rcases hiv with rfl | hiv
  · have hloop : algo.decrypt_blocks [] out.length 0 0 algo.iv out = some (1, out) := rfl
    rw [decrypt, List.flatten_nil, List.length_nil, hloop, decBlocks, List.flatten_nil,
      put_nil (Nat.zero_le _), if_pos (by decide)]
    rfl
  · have hloop := decrypt_blocks_eq [] hbs hiv (length_le_flatten hbs)
      (Nat.zero_le out.length) (by decide)
    simp only [List.nil_append, List.length_nil, Nat.zero_add] at hloop
    rw [decrypt, hloop]
    by_cases hint : bs.flatten.length < INT_BOUND
    · rw [if_pos hint, if_pos hint]
      cases put out 0 (algo.sub_algo.decBlocks algo.mode algo.key algo.iv bs).flatten with
      | none => rfl
      | some out₁ => rfl
    · rw [if_neg hint, if_neg hint]
      rfl

/-- The lengths with which the blocks of a ciphertext can be decrypted at all. -/
structure Decryptable (algo : SkcipherAlgo κ) (L c : ℕ) : Prop where
  whole : algo.block_size ∣ L
  fits : L ≤ c
  int : L < INT_BOUND
  iv : L = 0 ∨ algo.mode.Reads algo.iv algo.block_size

theorem decryptable_of_decrypt {inp : List UInt8} {r : Result}
    (h : algo.decrypt inp out out.length = some r) :
    Decryptable algo inp.length out.length := by
  obtain ⟨bs, tail, rfl, hbs, htail⟩ := exists_blocks algo.sub_algo.size_pos inp
  have hnil : tail = [] := by
    by_contra hne
    have hfuel : bs.length < (bs.flatten ++ tail).length := by
      rw [List.length_append]
      exact Nat.lt_of_le_of_lt (length_le_flatten hbs)
        (Nat.lt_add_of_pos_right (List.length_pos_iff.mpr hne))
    have hloop : algo.decrypt_blocks ([] ++ (bs.flatten ++ tail)) out.length
        (bs.flatten ++ tail).length ([] : List UInt8).length algo.iv out = none :=
      decrypt_blocks_tail [] hbs htail hne hfuel (Nat.zero_le out.length)
    simp only [List.nil_append, List.length_nil] at hloop
    rw [decrypt, hloop] at h
    cases h
  subst hnil
  rw [List.append_nil] at h ⊢
  have hwhole : algo.block_size ∣ bs.flatten.length := hbs.length_flatten ▸ Nat.dvd_mul_left _ _
  have hiv : bs = [] ∨ algo.mode.Reads algo.iv algo.block_size := by
    cases bs with
    | nil => exact .inl rfl
    | cons c cs =>
      right
      obtain ⟨hc, -⟩ := blocks_cons.mp hbs
      obtain ⟨fuel, hfuel⟩ := Nat.exists_eq_succ_of_ne_zero
        (Nat.pos_iff_ne_zero.mp (Nat.lt_of_lt_of_le (Nat.succ_pos _) (length_le_flatten hbs)))
      by_contra hiv
      have hfirst : algo.decrypt_blocks (c ++ cs.flatten) out.length (fuel + 1) 0 algo.iv out =
          none := by
        have hcons : algo.decrypt_blocks ([] ++ (c ++ cs.flatten)) out.length (fuel + 1)
            ([] : List UInt8).length algo.iv out = _ :=
          decrypt_blocks_cons [] hc (Nat.zero_le out.length)
        rw [mask, if_neg hiv] at hcons
        exact hcons
      rw [decrypt, hfuel, List.flatten_cons, hfirst] at h
      cases h
  rw [decrypt_eq out hbs hiv] at h
  split at h
  · next hint =>
      obtain ⟨out₁, hput, -⟩ := Option.bind_eq_some_iff.mp h
      have hfit := put_isSome.mp (hput ▸ Option.isSome_some)
      refine ⟨hwhole, ?_, hint, hiv.imp_left fun hnil ↦ by rw [hnil]; rfl⟩
      rcases hiv with rfl | hiv
      · exact Nat.zero_le _
      · rw [Nat.zero_add, (blocks_decBlocks hiv hbs).length_flatten, length_decBlocks] at hfit
        exact hbs.length_flatten.trans_le hfit
  · cases h

end Whole

end SkcipherAlgo

end Libobject.Crypto
