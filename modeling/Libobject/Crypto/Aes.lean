import Libobject.Crypto.AesRound
import Libobject.Crypto.RoundTrip

/-!
# AES

`set_key` expands a key into the two schedules of 60 words, those of decrypting in the order in
which its rounds use them. A key whose length is no multiple of 8 is copied first, to an array of
32 bytes, and filled up with zeros. An access outside of an array is undefined.
-/

namespace Libobject.Crypto

open Buffer (put put_put put_isSome)

theorem neZero_four : NeZero 4 := ⟨by decide⟩

attribute [local instance] neZero_four

namespace Aes

def AES_KEYSIZE_128 : ℕ := 16
def AES_KEYSIZE_192 : ℕ := 24
def AES_KEYSIZE_256 : ℕ := 32
def AES_MAX_KEYLENGTH_U32 : ℕ := 60

/-- The word of four bytes, the lowest of them first. -/
def join (a b c d : BitVec 8) : Word :=
  a.setWidth 32 ^^^ b.setWidth 32 <<< 8 ^^^ c.setWidth 32 <<< 16 ^^^ d.setWidth 32 <<< 24

def get_unaligned_u32 (p : List UInt8) (i : ℕ) : Option Word := do
  let b0 ← p[i]?
  let b1 ← p[i + 1]?
  let b2 ← p[i + 2]?
  let b3 ← p[i + 3]?
  return join b0.toBitVec b1.toBitVec b2.toBitVec b3.toBitVec

def put_unaligned_u32 (w : Word) : List UInt8 := [⟨byte w 0⟩, ⟨byte w 1⟩, ⟨byte w 2⟩, ⟨byte w 3⟩]

end Aes

open Aes

structure Aes where
  key_enc : List Word
  key_dec : List Word
  key_length : ℕ
  deriving DecidableEq

namespace Aes

/-- The four words of a schedule from `i` on. -/
def key_at (key : List Word) (i : ℕ) : Option State := do
  let k0 ← key[i]?
  let k1 ← key[i + 1]?
  let k2 ← key[i + 2]?
  let k3 ← key[i + 3]?
  return ![k0, k1, k2, k3]

/-- The words of the key, one after the other. -/
def load_key (in_key : List UInt8) : ℕ → ℕ → List Word → Option (List Word)
  | 0, _, key_enc => some key_enc
  | n + 1, i, key_enc => do
    let w ← get_unaligned_u32 in_key (i * 4)
    let key_enc ← put key_enc i [w]
    load_key in_key n (i + 1) key_enc

/-- A turn of the loop that expands the key, and if the loop goes on behind it. -/
def expand_turn (key_len kwords i : ℕ) (rc : Word) (key_enc : List Word) :
    Option (List Word × Bool) := do
  let rki := i * kwords
  let rko := rki + kwords
  let last ← key_enc[rki + (kwords - 1)]?
  let k ← key_at key_enc rki
  let r0 := ror32 (subw last) 8 ^^^ rc ^^^ k 0
  let r1 := r0 ^^^ k 1
  let r2 := r1 ^^^ k 2
  let r3 := r2 ^^^ k 3
  let key_enc ← put key_enc rko [r0, r1, r2, r3]
  if key_len = AES_KEYSIZE_192 then
    if i ≥ 7 then return (key_enc, false)
    else
      let k4 ← key_enc[rki + 4]?
      let k5 ← key_enc[rki + 5]?
      let r4 := r3 ^^^ k4
      let key_enc ← put key_enc (rko + 4) [r4, r4 ^^^ k5]
      return (key_enc, true)
  else if key_len = AES_KEYSIZE_256 then
    if i ≥ 6 then return (key_enc, false)
    else
      let k ← key_at key_enc (rki + 4)
      let r4 := subw r3 ^^^ k 0
      let r5 := r4 ^^^ k 1
      let r6 := r5 ^^^ k 2
      let key_enc ← put key_enc (rko + 4) [r4, r5, r6, r6 ^^^ k 3]
      return (key_enc, true)
  else return (key_enc, true)

/-- The loop, with `n` turns left. -/
def expand (key_len kwords : ℕ) : ℕ → ℕ → Word → List Word → Option (List Word)
  | 0, _, _, key_enc => some key_enc
  | n + 1, i, rc, key_enc => do
    let (key_enc, more) ← expand_turn key_len kwords i rc key_enc
    if more then expand key_len kwords n (i + 1) (mul_by_x rc) key_enc else return key_enc

def words (k : State) : List Word := [k 0, k 1, k 2, k 3]

/-- The loop over the round keys between the two at the ends, from the last of them on. -/
def invert_keys (key_enc : List Word) : ℕ → ℕ → List Word → Option (ℕ × List Word)
  | 0, i, key_dec => some (i, key_dec)
  | j + 1, i, key_dec => do
    let k ← key_at key_enc (4 * (j + 1))
    let key_dec ← put key_dec i (words fun p ↦ inv_mix_columns (k p))
    invert_keys key_enc j (i + 4) key_dec

def aes_check_keylen (keylen : ℕ) : ℤ :=
  if keylen = AES_KEYSIZE_128 ∨ keylen = AES_KEYSIZE_192 ∨ keylen = AES_KEYSIZE_256 then 0 else -1

/-- The key and its length, as they are expanded. -/
def new_key (in_key : List UInt8) (key_len : ℕ) : Option (List UInt8 × ℕ) :=
  if key_len % 8 ≠ 0 then do
    let bytes ← Buffer.get in_key 0 key_len
    let new_key ← put (List.replicate 32 0) 0 bytes
    let key_len := (key_len / 8 + 1) * 8
    return (new_key, if key_len = 8 then 16 else key_len)
  else some (in_key, key_len)

def set_key (ctx : Aes) (in_key : List UInt8) (key_len : ℕ) : Option (ℤ × Aes) := do
  let (in_key, key_len) ← new_key in_key key_len
  if aes_check_keylen key_len ≠ 0 then return (aes_check_keylen key_len, ctx)
  else
    let kwords := key_len / 4
    let key_enc ← load_key in_key kwords 0 ctx.key_enc
    let key_enc ← expand key_len kwords 10 0 1 key_enc
    let first ← key_at key_enc (key_len + 24)
    let key_dec ← put ctx.key_dec 0 (words first)
    let (i, key_dec) ← invert_keys key_enc (key_len / 4 + 5) 4 key_dec
    let last ← key_at key_enc 0
    let key_dec ← put key_dec i (words last)
    return (0, ⟨key_enc, key_dec, key_len⟩)

/-- The four words of a block. -/
def load (inp : List UInt8) : Option State := do
  let s0 ← get_unaligned_u32 inp 0
  let s1 ← get_unaligned_u32 inp 4
  let s2 ← get_unaligned_u32 inp 8
  let s3 ← get_unaligned_u32 inp 12
  return ![s0, s1, s2, s3]

def store (st : State) : List UInt8 := (words st).flatMap put_unaligned_u32

/-- The loop over two rounds at a time; it ends in the middle of a turn. -/
def table_rounds (step : State → State) (key : List Word) (rounds : ℕ) :
    ℕ → ℕ → ℕ → State → Option (State × ℕ)
  | 0, _, _, _ => none
  | n + 1, round, rkp, st0 => do
    let k ← key_at key rkp
    let st1 : State := fun p ↦ step st0 p ^^^ k p
    if round = rounds - 2 then return (st1, rkp)
    else
      let k ← key_at key (rkp + 4)
      table_rounds step key rounds n (round + 2) (rkp + 8) fun p ↦ step st1 p ^^^ k p

/-- `__encrypt` and `__decrypt`, which are the same up to the tables and the keys. The word `zero`
is made of entries of the table, to load it. -/
def crypt (step last : State → State) (zero : State) (key : List Word) (key_length : ℕ)
    (inp : List UInt8) : Option (List UInt8) := do
  let rounds := 6 + key_length / 4
  let st ← load inp
  let k ← key_at key 0
  let (st1, rkp) ← table_rounds step key rounds rounds 0 4 fun p ↦ k p ^^^ st p ^^^ zero p
  let k ← key_at key (rkp + 4)
  return store fun p ↦ last st1 p ^^^ k p

/-- The sum of four entries of a table. -/
def preload (table : List (BitVec 8)) (a b c d : ℕ) : Word :=
  (table.getD a 0 ^^^ table.getD b 0 ^^^ table.getD c 0 ^^^ table.getD d 0).setWidth 32

def encrypt (ctx : Aes) (inp : List UInt8) : Option (List UInt8) :=
  crypt (fun st p ↦ mix_columns (subshift st p)) subshift
    ![preload aes_sbox 0 64 134 195, preload aes_sbox 16 82 158 221,
      preload aes_sbox 32 96 160 234, preload aes_sbox 48 112 186 241]
    ctx.key_enc ctx.key_length inp

def decrypt (ctx : Aes) (inp : List UInt8) : Option (List UInt8) :=
  crypt (fun st p ↦ inv_mix_columns (inv_subshift st p)) inv_subshift
    ![preload aes_inv_sbox 0 64 129 200, preload aes_inv_sbox 16 83 150 212,
      preload aes_inv_sbox 32 96 160 236, preload aes_inv_sbox 48 112 187 247]
    ctx.key_dec ctx.key_length inp

section Words

variable {key : List Word}

theorem key_at_isSome {i : ℕ} (h : i + 4 ≤ key.length) : (key_at key i).isSome := by
  rw [key_at, List.getElem?_eq_getElem (show i < key.length by omega),
    List.getElem?_eq_getElem (show i + 1 < key.length by omega),
    List.getElem?_eq_getElem (show i + 2 < key.length by omega),
    List.getElem?_eq_getElem (show i + 3 < key.length by omega)]
  rfl

theorem length_flatMap_words (ks : List State) : (ks.flatMap words).length = 4 * ks.length := by
  induction ks with
  | nil => rfl
  | cons k ks ih =>
    rw [List.flatMap_cons, List.length_append, ih, List.length_cons, Nat.mul_succ, Nat.add_comm]
    rfl

theorem vec_eq (k : State) : ![k 0, k 1, k 2, k 3] = k := by
  funext p
  match p with
  | 0 => rfl
  | 1 => rfl
  | 2 => rfl
  | 3 => rfl

theorem key_at_words (pre : List Word) (k : State) (post : List Word) :
    key_at (pre ++ (words k ++ post)) pre.length = some k := by
  have hget (i : ℕ) : (pre ++ (words k ++ post))[pre.length + i]? = (words k ++ post)[i]? := by
    rw [List.getElem?_append_right (Nat.le_add_right _ _), Nat.add_sub_cancel_left]
  have h0 : (pre ++ (words k ++ post))[pre.length]? = (words k ++ post)[0]? := hget 0
  rw [key_at, h0, hget, hget, hget]
  exact congrArg some (vec_eq k)

theorem byte_join_zero (a b c d : BitVec 8) : byte (join a b c d) 0 = a := byte_join a b c d 0

theorem byte_join_one (a b c d : BitVec 8) : byte (join a b c d) 1 = b := byte_join a b c d 1

theorem byte_join_two (a b c d : BitVec 8) : byte (join a b c d) 2 = c := byte_join a b c d 2

theorem byte_join_three (a b c d : BitVec 8) : byte (join a b c d) 3 = d := byte_join a b c d 3

theorem join_byte (w : Word) : join (byte w 0) (byte w 1) (byte w 2) (byte w 3) = w := by
  refine ext_byte fun i ↦ (byte_join _ _ _ _ i).trans ?_
  match i with
  | 0 => rfl
  | 1 => rfl
  | 2 => rfl
  | 3 => rfl

theorem put_join (a b c d : UInt8) :
    put_unaligned_u32 (join a.toBitVec b.toBitVec c.toBitVec d.toBitVec) = [a, b, c, d] := by
  rw [put_unaligned_u32, byte_join_zero, byte_join_one, byte_join_two, byte_join_three]

theorem store_load {inp : List UInt8} (h : inp.length = 16) :
    ∃ st, load inp = some st ∧ store st = inp := by
  match inp, h with
  | [a0, a1, a2, a3, b0, b1, b2, b3, c0, c1, c2, c3, d0, d1, d2, d3], _ =>
    refine ⟨_, rfl, ?_⟩
    have hwords : words ![join a0.toBitVec a1.toBitVec a2.toBitVec a3.toBitVec,
        join b0.toBitVec b1.toBitVec b2.toBitVec b3.toBitVec,
        join c0.toBitVec c1.toBitVec c2.toBitVec c3.toBitVec,
        join d0.toBitVec d1.toBitVec d2.toBitVec d3.toBitVec] =
      [join a0.toBitVec a1.toBitVec a2.toBitVec a3.toBitVec,
        join b0.toBitVec b1.toBitVec b2.toBitVec b3.toBitVec,
        join c0.toBitVec c1.toBitVec c2.toBitVec c3.toBitVec,
        join d0.toBitVec d1.toBitVec d2.toBitVec d3.toBitVec] := rfl
    rw [store, hwords]
    simp only [List.flatMap_cons, List.flatMap_nil, put_join, List.cons_append, List.nil_append]

theorem load_store (st : State) : load (store st) = some st := by
  have hload : load (store st) = some ![join (byte (st 0) 0) (byte (st 0) 1) (byte (st 0) 2)
      (byte (st 0) 3), join (byte (st 1) 0) (byte (st 1) 1) (byte (st 1) 2) (byte (st 1) 3),
      join (byte (st 2) 0) (byte (st 2) 1) (byte (st 2) 2) (byte (st 2) 3),
      join (byte (st 3) 0) (byte (st 3) 1) (byte (st 3) 2) (byte (st 3) 3)] := rfl
  rw [hload, join_byte, join_byte, join_byte, join_byte, vec_eq]

theorem length_store (st : State) : (store st).length = 16 := rfl

end Words

section Rounds

variable {rest : List Word} {ks : List State} {step last : State → State}

theorem table_rounds_eq (m round : ℕ) {fuel rounds : ℕ} (hks : ks.length = 2 * m + 1)
    (hround : round + 2 * m = rounds - 2) (hfuel : m < fuel) (pre : List Word) (st : State) :
    table_rounds step (pre ++ (ks.flatMap words ++ rest)) rounds fuel round pre.length st =
      some (ks.foldl (fun s k p ↦ step s p ^^^ k p) st, pre.length + 8 * m) := by
  induction m generalizing ks fuel round pre st with
  | zero =>
    obtain ⟨k, rfl⟩ := List.length_eq_one_iff.mp hks
    obtain ⟨fuel, rfl⟩ := Nat.exists_eq_succ_of_ne_zero (Nat.pos_iff_ne_zero.mp hfuel)
    rw [table_rounds, List.flatMap_cons, List.append_assoc, key_at_words]
    simp only [Option.bind_eq_bind, Option.bind_some]
    rw [if_pos (show round = rounds - 2 from hround)]
    rfl
  | succ m ih =>
    obtain ⟨fuel, rfl⟩ := Nat.exists_eq_succ_of_ne_zero
      (Nat.pos_iff_ne_zero.mp (Nat.lt_of_le_of_lt (Nat.zero_le _) hfuel))
    match ks, hks with
    | k :: k' :: ks, hks =>
      have hsplit : pre ++ ((k :: k' :: ks).flatMap words ++ rest) =
          (pre ++ words k ++ words k') ++ (ks.flatMap words ++ rest) := by
        simp only [List.flatMap_cons, List.append_assoc]
      have hfirst : key_at (pre ++ ((k :: k' :: ks).flatMap words ++ rest)) pre.length =
          some k := by
        rw [List.flatMap_cons, List.append_assoc]
        exact key_at_words _ _ _
      have hsecond : key_at (pre ++ ((k :: k' :: ks).flatMap words ++ rest))
          (pre.length + 4) = some k' := by
        have h := key_at_words (pre ++ words k) k' (ks.flatMap words ++ rest)
        rwa [List.length_append, ← List.append_assoc, ← hsplit] at h
      have hlen : (pre ++ words k ++ words k').length = pre.length + 8 := by
        rw [List.length_append, List.length_append]
        rfl
      have hks' : ks.length = 2 * m + 1 := by
        simp only [List.length_cons] at hks
        omega
      have hrest := ih (round + 2) hks' (by omega) (Nat.lt_of_succ_lt_succ hfuel)
        (pre ++ words k ++ words k')
        (fun p ↦ step (fun p ↦ step st p ^^^ k p) p ^^^ k' p)
      rw [← hsplit, hlen] at hrest
      rw [table_rounds, hfirst, Option.bind_eq_bind, Option.bind_some, if_neg (by omega),
        hsecond, Option.bind_some, hrest]
      have hmul : pre.length + 8 + 8 * m = pre.length + 8 * (m + 1) := by omega
      rw [hmul]
      rfl

theorem crypt_eq (first fin st : State) {zero : State} {key_length m : ℕ} {inp : List UInt8}
    (hzero : zero = fun _ ↦ 0) (hks : ks.length = 2 * m + 1)
    (hrounds : 6 + key_length / 4 = 2 * m + 2) (hload : load inp = some st) :
    crypt step last zero (words first ++ (ks.flatMap words ++ (words fin ++ rest))) key_length inp =
      some (store fun p ↦
        last (ks.foldl (fun s k p ↦ step s p ^^^ k p) fun p ↦ st p ^^^ first p) p ^^^ fin p) := by
  have hfirst : key_at (words first ++ (ks.flatMap words ++ (words fin ++ rest))) 0 = some first :=
    key_at_words [] first _
  have hloop : table_rounds step (words first ++ (ks.flatMap words ++ (words fin ++ rest)))
      (6 + key_length / 4) (6 + key_length / 4) 0 4 (fun p ↦ st p ^^^ first p) = _ :=
    table_rounds_eq m 0 hks (by omega) (by omega) (words first) fun p ↦ st p ^^^ first p
  have hflat := length_flatMap_words ks
  have hfin : key_at (words first ++ (ks.flatMap words ++ (words fin ++ rest)))
      (4 + 8 * m + 4) = some fin := by
    have h := key_at_words (words first ++ ks.flatMap words) fin rest
    rw [List.length_append, hflat, hks, List.append_assoc] at h
    have hpos : (words first).length + 4 * (2 * m + 1) = 4 + 8 * m + 4 := by
      show 4 + 4 * (2 * m + 1) = 4 + 8 * m + 4
      omega
    rwa [hpos] at h
  have hstart : (fun p ↦ first p ^^^ st p ^^^ zero p) = fun p ↦ st p ^^^ first p := by
    funext p
    rw [hzero]
    exact BitVec.xor_zero.trans (BitVec.xor_comm _ _)
  rw [crypt, hload, hfirst]
  simp only [Option.bind_eq_bind, Option.bind_some]
  rw [hstart, hloop, Option.bind_some, show (words first).length = 4 from rfl, hfin]
  rfl

end Rounds

section SetKey

variable {key_enc key_dec : List Word}

theorem exists_keys (n : ℕ) (key : List Word) (h : 4 * n ≤ key.length) :
    ∃ (ks : List State) (rest : List Word), key = ks.flatMap words ++ rest ∧ ks.length = n := by
  induction n generalizing key with
  | zero => exact ⟨[], key, rfl, rfl⟩
  | succ n ih =>
    match key, h with
    | k0 :: k1 :: k2 :: k3 :: key, h =>
      simp only [List.length_cons] at h
      obtain ⟨ks, rest, rfl, hks⟩ := ih key (by omega)
      exact ⟨![k0, k1, k2, k3] :: ks, rest, rfl, congrArg (· + 1) hks⟩

theorem invert_keys_eq {first : State} {ks : List State} {i : ℕ} (rest : List Word)
    (hi : i ≤ key_dec.length) :
    invert_keys (words first ++ (ks.flatMap words ++ rest)) ks.length i key_dec =
      (put key_dec i ((network.invKeys ks).flatMap words)).map
        fun key_dec ↦ (i + 4 * ks.length, key_dec) := by
  induction ks using List.reverseRecOn generalizing i key_dec rest with
  | nil =>
    have hput : put key_dec i [] = some key_dec := by
      rw [put, if_pos (by simpa using hi)]
      simp
    have hnil : ((network.invKeys []).flatMap words) = [] := rfl
    rw [hnil, hput]
    rfl
  | append_singleton ks k ih =>
    have hkey : key_at (words first ++ ((ks ++ [k]).flatMap words ++ rest))
        (4 * (ks.length + 1)) = some k := by
      have h := key_at_words (words first ++ ks.flatMap words) k rest
      rw [List.length_append, length_flatMap_words, List.append_assoc] at h
      have hpos : (words first).length + 4 * ks.length = 4 * (ks.length + 1) := by
        show 4 + 4 * ks.length = 4 * (ks.length + 1)
        omega
      rw [hpos] at h
      rwa [List.flatMap_append, List.flatMap_singleton, List.append_assoc]
    have hinv : (network.invKeys (ks ++ [k])).flatMap words =
        words (network.invMix k) ++ (network.invKeys ks).flatMap words := by
      rw [RoundCipher.invKeys, List.map_append, List.reverse_append]
      rfl
    have hlen : (words (network.invMix k)).length = 4 := rfl
    rw [List.length_append, List.length_singleton, invert_keys, hkey, hinv, ← put_put, hlen,
      Option.bind_eq_bind, Option.bind_some]
    have hwords : (words fun p ↦ inv_mix_columns (k p)) = words (network.invMix k) := rfl
    rw [hwords]
    cases hput : put key_dec i (words (network.invMix k)) with
    | none => rfl
    | some key_dec' =>
      have hfit := put_isSome.mp (hput ▸ Option.isSome_some)
      rw [hlen, ← Buffer.length_put hput] at hfit
      have hrest := ih (words k ++ rest) hfit
      rw [List.flatMap_append, List.flatMap_singleton, List.append_assoc, Option.bind_eq_bind,
        Option.bind_some, hrest, Option.bind_some, Nat.mul_succ, Nat.add_assoc,
        Nat.add_comm 4]

theorem exists_bind {α β : Type*} {o : Option α} {f : α → Option β} {P : α → Prop}
    {Q : β → Prop} (ho : ∃ a, o = some a ∧ P a) (hf : ∀ a, P a → ∃ b, f a = some b ∧ Q b) :
    ∃ b, o.bind f = some b ∧ Q b := by
  obtain ⟨a, rfl, ha⟩ := ho
  exact hf a ha

theorem exists_put {α : Type*} {buf bs : List α} {off n : ℕ} (hn : buf.length = n)
    (h : off + bs.length ≤ n) : ∃ buf', put buf off bs = some buf' ∧ buf'.length = n := by
  obtain ⟨buf', hput⟩ := Option.isSome_iff_exists.mp (put_isSome.mpr (hn.symm ▸ h))
  exact ⟨buf', hput, (Buffer.length_put hput).trans hn⟩

theorem exists_key_at {i n : ℕ} (hn : key_enc.length = n) (h : i + 4 ≤ n) :
    ∃ k, key_at key_enc i = some k ∧ True := by
  obtain ⟨k, hk⟩ := Option.isSome_iff_exists.mp (key_at_isSome (hn.symm ▸ h))
  exact ⟨k, hk, trivial⟩

theorem exists_get {i n : ℕ} (hn : key_enc.length = n) (h : i < n) :
    ∃ w, key_enc[i]? = some w ∧ True :=
  ⟨key_enc[i], List.getElem?_eq_getElem (hn.symm ▸ h), trivial⟩

def Supported (key_len : ℕ) : Prop :=
  key_len = AES_KEYSIZE_128 ∨ key_len = AES_KEYSIZE_192 ∨ key_len = AES_KEYSIZE_256

instance decidableSupported (key_len : ℕ) : Decidable (Supported key_len) :=
  inferInstanceAs (Decidable (_ ∨ _))

/-- The turns that the expansion of a key makes. -/
def Turn (key_len i : ℕ) : Prop :=
  (key_len = AES_KEYSIZE_128 ∧ i ≤ 9) ∨ (key_len = AES_KEYSIZE_192 ∧ i ≤ 7) ∨
    (key_len = AES_KEYSIZE_256 ∧ i ≤ 6)

theorem expand_turn_some {key_len i : ℕ} (rc : Word) (hlen : key_enc.length = 60)
    (hi : Turn key_len i) :
    ∃ r, expand_turn key_len (key_len / 4) i rc key_enc = some r ∧ r.1.length = 60 ∧
      (r.2 = true → i < 9 → Turn key_len (i + 1)) := by
  simp only [Turn, AES_KEYSIZE_128, AES_KEYSIZE_192, AES_KEYSIZE_256] at hi ⊢
  have hrko : i * (key_len / 4) + (key_len / 4) + 4 ≤ 60 := by
    rcases hi with ⟨rfl, hi⟩ | ⟨rfl, hi⟩ | ⟨rfl, hi⟩ <;> omega
  have hkwords : 4 ≤ key_len / 4 := by omega
  simp only [expand_turn, Option.bind_eq_bind]
  refine exists_bind (exists_get hlen (by omega)) fun last _ ↦ ?_
  refine exists_bind (exists_key_at hlen (by omega)) fun k _ ↦ ?_
  refine exists_bind (exists_put hlen hrko) fun enc henc ↦ ?_
  by_cases h24 : key_len = AES_KEYSIZE_192
  · simp only [if_pos h24]
    obtain rfl : key_len = 24 := h24
    by_cases h7 : i ≥ 7
    · simp only [if_pos h7]
      exact ⟨_, rfl, henc, fun h ↦ by cases h⟩
    · simp only [if_neg h7]
      refine exists_bind (exists_get henc (by omega)) fun k4 _ ↦ ?_
      refine exists_bind (exists_get henc (by omega)) fun k5 _ ↦ ?_
      refine exists_bind (exists_put henc (by simp only [List.length_cons, List.length_nil]; omega))
        fun enc' henc' ↦ ?_
      exact ⟨_, rfl, henc', fun _ _ ↦ .inr (.inl ⟨trivial, by omega⟩)⟩
  · simp only [if_neg h24]
    by_cases h32 : key_len = AES_KEYSIZE_256
    · simp only [if_pos h32]
      obtain rfl : key_len = 32 := h32
      by_cases h6 : i ≥ 6
      · simp only [if_pos h6]
        exact ⟨_, rfl, henc, fun h ↦ by cases h⟩
      · simp only [if_neg h6]
        refine exists_bind (exists_key_at henc (by omega)) fun k' _ ↦ ?_
        refine exists_bind
          (exists_put henc (by simp only [List.length_cons, List.length_nil]; omega))
          fun enc' henc' ↦ ?_
        exact ⟨_, rfl, henc', fun _ _ ↦ .inr (.inr ⟨trivial, by omega⟩)⟩
    · simp only [if_neg h32]
      have hne : key_len ≠ 24 ∧ key_len ≠ 32 := ⟨h24, h32⟩
      exact ⟨_, rfl, henc, fun _ h9 ↦ .inl ⟨by omega, by omega⟩⟩

theorem expand_some {key_len : ℕ} (n i : ℕ) (rc : Word) (hlen : key_enc.length = 60)
    (hn : i + n = 10) (hi : n ≠ 0 → Turn key_len i) :
    ∃ enc, expand key_len (key_len / 4) n i rc key_enc = some enc ∧ enc.length = 60 := by
  induction n generalizing i rc key_enc with
  | zero => exact ⟨key_enc, rfl, hlen⟩
  | succ n ih =>
    rw [expand, Option.bind_eq_bind]
    refine exists_bind (expand_turn_some rc hlen (hi (Nat.succ_ne_zero n))) ?_
    rintro ⟨enc, more⟩ ⟨henc, hmore⟩
    cases more with
    | false => exact ⟨enc, rfl, henc⟩
    | true => exact ih (i + 1) _ henc (by omega) fun hn0 ↦ hmore rfl (by omega)

theorem get_unaligned_u32_isSome {p : List UInt8} {i : ℕ} :
    (get_unaligned_u32 p i).isSome ↔ i + 4 ≤ p.length := by
  constructor
  · intro h
    obtain ⟨w, hw⟩ := Option.isSome_iff_exists.mp h
    simp only [get_unaligned_u32, Option.bind_eq_bind, Option.bind_eq_some_iff] at hw
    obtain ⟨-, -, -, -, -, -, b3, hb3, -⟩ := hw
    have hlt := (List.getElem?_eq_some_iff.mp hb3).1
    omega
  · intro h
    rw [get_unaligned_u32, List.getElem?_eq_getElem (show i < p.length by omega),
      List.getElem?_eq_getElem (show i + 1 < p.length by omega),
      List.getElem?_eq_getElem (show i + 2 < p.length by omega),
      List.getElem?_eq_getElem (show i + 3 < p.length by omega)]
    rfl

theorem load_key_some {in_key : List UInt8} (n i : ℕ) (hlen : key_enc.length = 60)
    (hin : 4 * (i + n) ≤ in_key.length) (hi : i + n ≤ 60) :
    ∃ enc, load_key in_key n i key_enc = some enc ∧ enc.length = 60 := by
  induction n generalizing i key_enc with
  | zero => exact ⟨key_enc, rfl, hlen⟩
  | succ n ih =>
    obtain ⟨w, hw⟩ := Option.isSome_iff_exists.mp
      (get_unaligned_u32_isSome.mpr (show i * 4 + 4 ≤ in_key.length by omega))
    rw [load_key, hw, Option.bind_eq_bind, Option.bind_some]
    refine exists_bind (exists_put hlen ?_) fun enc henc ↦
      ih (i + 1) henc (by omega) (by omega)
    rw [List.length_singleton]
    omega

theorem length_le_of_load_key {in_key : List UInt8} {n i : ℕ} {enc : List Word}
    (h : load_key in_key n i key_enc = some enc) (hn : n ≠ 0) :
    4 * (i + n) ≤ in_key.length := by
  induction n generalizing i key_enc with
  | zero => exact absurd rfl hn
  | succ n ih =>
    simp only [load_key, Option.bind_eq_bind, Option.bind_eq_some_iff] at h
    obtain ⟨w, hw, enc', -, hrest⟩ := h
    rcases Nat.eq_zero_or_pos n with rfl | hpos
    · have := get_unaligned_u32_isSome.mp (hw ▸ Option.isSome_some)
      omega
    · have := ih hrest hpos.ne'
      omega

/-- The two schedules of one key. -/
structure Expanded (aes : Aes) : Prop where
  supported : Supported aes.key_length
  length_enc : aes.key_enc.length = AES_MAX_KEYLENGTH_U32
  length_dec : aes.key_dec.length = AES_MAX_KEYLENGTH_U32
  schedules : ∃ (first : State) (ks : List State) (fin : State) (rest rest' : List Word),
    ks.length = aes.key_length / 4 + 5 ∧
      aes.key_enc = words first ++ (ks.flatMap words ++ (words fin ++ rest)) ∧
      aes.key_dec = words fin ++ ((network.invKeys ks).flatMap words ++ (words first ++ rest'))

theorem Supported.bounds {key_len : ℕ} (h : Supported key_len) :
    key_len / 4 ≤ 8 ∧ key_len = 4 * (key_len / 4) ∧ 4 ≤ key_len / 4 ∧ key_len / 4 % 2 = 0 := by
  rcases h with rfl | rfl | rfl <;> decide

theorem length_words (k : State) : (words k).length = 4 := rfl

theorem exists_invert (first fin : State) (ks : List State) (rest : List Word)
    (hdec : key_dec.length = 60) (hks : 4 * ks.length + 8 ≤ 60) :
    ∃ dec₁ dec₂ rest', put key_dec 0 (words fin) = some dec₁ ∧
      invert_keys (words first ++ (ks.flatMap words ++ rest)) ks.length 4 dec₁ =
        some (4 + 4 * ks.length, dec₂) ∧
      put dec₂ (4 + 4 * ks.length) (words first) =
        some (words fin ++ ((network.invKeys ks).flatMap words ++ (words first ++ rest'))) ∧
      (words fin ++ ((network.invKeys ks).flatMap words ++ (words first ++ rest'))).length =
        60 := by
  have hinv : ((network.invKeys ks).flatMap words).length = 4 * ks.length := by
    rw [length_flatMap_words, RoundCipher.invKeys, List.length_reverse, List.length_map]
  have hfit : (words fin ++ ((network.invKeys ks).flatMap words ++ words first)).length ≤
      key_dec.length := by
    rw [List.length_append, List.length_append, hinv, length_words, length_words]
    omega
  have hwrite := Buffer.put_append [] key_dec
    (words fin ++ ((network.invKeys ks).flatMap words ++ words first)) hfit
  rw [List.nil_append, List.nil_append, List.length_nil, ← put_put,
    Option.bind_eq_some_iff] at hwrite
  obtain ⟨dec₁, hput₁, hwrite⟩ := hwrite
  rw [Nat.zero_add, length_words, ← put_put, Option.bind_eq_some_iff] at hwrite
  obtain ⟨dec₂, hput₂, hwrite⟩ := hwrite
  have hdec₁ : dec₁.length = 60 := (Buffer.length_put hput₁).trans hdec
  have hdec₂ : dec₂.length = 60 := (Buffer.length_put hput₂).trans hdec₁
  have hinvert : invert_keys (words first ++ (ks.flatMap words ++ rest)) ks.length 4 dec₁ = _ :=
    invert_keys_eq rest (by omega)
  rw [hput₂] at hinvert
  rw [hinv, List.append_assoc, List.append_assoc] at hwrite
  exact ⟨dec₁, dec₂, _, hput₁, hinvert, hwrite, (Buffer.length_put hwrite).trans hdec₂⟩

theorem set_key_supported {ctx : Aes} {in_key key : List UInt8} {key_len len : ℕ}
    (henc : ctx.key_enc.length = 60) (hdec : ctx.key_dec.length = 60)
    (hnew : new_key in_key key_len = some (key, len)) (hlen : Supported len)
    (hkey : len ≤ key.length) :
    ∃ aes, set_key ctx in_key key_len = some (0, aes) ∧ Expanded aes := by
  obtain ⟨hmax, hfour, hmin, -⟩ := hlen.bounds
  have hcheck : aes_check_keylen len = 0 := if_pos hlen
  have hturn : Turn len 0 := by
    rcases hlen with h | h | h
    · exact .inl ⟨h, Nat.zero_le _⟩
    · exact .inr (.inl ⟨h, Nat.zero_le _⟩)
    · exact .inr (.inr ⟨h, Nat.zero_le _⟩)
  obtain ⟨enc₀, hload, henc₀⟩ : ∃ enc, load_key key (len / 4) 0 ctx.key_enc = some enc ∧
      enc.length = 60 := load_key_some (len / 4) 0 henc (by omega) (by omega)
  obtain ⟨enc, hexpand, hlen_enc⟩ := expand_some 10 0 1 henc₀ rfl fun _ ↦ hturn
  -- the first key, those of the rounds, and the last
  obtain ⟨all, rest, rfl, hall⟩ := exists_keys (len / 4 + 7) enc (by omega)
  obtain ⟨first, ks, fin, rfl⟩ : ∃ first ks fin, all = first :: (ks ++ [fin]) := by
    match all, hall with
    | first :: more, hall =>
      have hne : more ≠ [] := by
        rintro rfl
        simp at hall
      exact ⟨first, more.dropLast, more.getLast hne,
        congrArg (first :: ·) (List.dropLast_append_getLast hne).symm⟩
  have hks : ks.length = len / 4 + 5 := by
    simp only [List.length_cons, List.length_append, List.length_nil] at hall
    omega
  have hwords : (first :: (ks ++ [fin])).flatMap words ++ rest =
      words first ++ (ks.flatMap words ++ (words fin ++ rest)) := by
    rw [List.flatMap_cons, List.flatMap_append, List.flatMap_singleton, List.append_assoc,
      List.append_assoc]
  rw [hwords] at hexpand hlen_enc
  have hfirst : key_at (words first ++ (ks.flatMap words ++ (words fin ++ rest))) 0 = some first :=
    key_at_words [] first _
  have hfin : key_at (words first ++ (ks.flatMap words ++ (words fin ++ rest))) (len + 24) =
      some fin := by
    have h := key_at_words (words first ++ ks.flatMap words) fin rest
    rw [List.length_append, length_flatMap_words, List.append_assoc, length_words] at h
    have hpos : 4 + 4 * ks.length = len + 24 := by omega
    rwa [hpos] at h
  obtain ⟨dec₁, dec₂, rest', hput, hinvert, hwrite, hlen_dec⟩ :=
    exists_invert first fin ks (words fin ++ rest) hdec (by omega)
  refine ⟨⟨_, _, len⟩, ?_, hlen, hlen_enc, hlen_dec, first, ks, fin, rest, rest', hks, rfl, rfl⟩
  rw [set_key, hnew, Option.bind_eq_bind, Option.bind_some]
  simp only [hcheck, hload, hexpand, hfin, hput, hfirst, ne_eq, not_true_eq_false, if_false,
    Option.bind_eq_bind, Option.bind_some, ← hks, hinvert, hwrite]
  rfl

end SetKey

section Inverse

variable {aes : Aes} {block : List UInt8}

theorem preload_enc : (![preload aes_sbox 0 64 134 195, preload aes_sbox 16 82 158 221,
    preload aes_sbox 32 96 160 234, preload aes_sbox 48 112 186 241] : State) = fun _ ↦ 0 := by
  decide

theorem preload_dec : (![preload aes_inv_sbox 0 64 129 200, preload aes_inv_sbox 16 83 150 212,
    preload aes_inv_sbox 32 96 160 236, preload aes_inv_sbox 48 112 187 247] : State) =
      fun _ ↦ 0 := by
  decide

theorem Expanded.crypt (h : Expanded aes) : ∃ first ks fin, ∀ (st : State) (block : List UInt8),
    load block = some st →
      aes.encrypt block = some (store (network.encrypt first ks fin st)) ∧
        aes.decrypt block = some (store (network.decrypt fin (network.invKeys ks) first st)) := by
  obtain ⟨first, ks, fin, rest, rest', hks, henc, hdec⟩ := h.schedules
  obtain ⟨-, -, hmin, heven⟩ := h.supported.bounds
  obtain ⟨m, hm⟩ : ∃ m, ks.length = 2 * m + 1 := ⟨(ks.length - 1) / 2, by omega⟩
  have hinv : (network.invKeys ks).length = 2 * m + 1 := by
    rw [RoundCipher.invKeys, List.length_reverse, List.length_map, hm]
  refine ⟨first, ks, fin, fun st block hload ↦ ⟨?_, ?_⟩⟩
  · rw [encrypt, henc]
    exact crypt_eq first fin st preload_enc hm (by omega) hload
  · rw [decrypt, hdec]
    exact crypt_eq fin first st preload_dec hinv (by omega) hload

/-- Encrypting and decrypting a block are inverse to each other. -/
def Inverse (aes : Aes) : Prop :=
  ∀ block : List UInt8, block.length = 16 →
    (∃ c, aes.encrypt block = some c ∧ c.length = 16 ∧ aes.decrypt c = some block) ∧
      ∃ p, aes.decrypt block = some p ∧ p.length = 16 ∧ aes.encrypt p = some block

theorem Expanded.inverse (h : Expanded aes) : Inverse aes := by
  obtain ⟨first, ks, fin, hcrypt⟩ := h.crypt
  intro block hlen
  obtain ⟨st, hload, hstore⟩ := store_load hlen
  obtain ⟨henc, hdec⟩ := hcrypt st block hload
  refine ⟨⟨_, henc, length_store _, ?_⟩, _, hdec, length_store _, ?_⟩
  · rw [(hcrypt _ _ (load_store _)).2, network.decrypt_encrypt, hstore]
  · rw [(hcrypt _ _ (load_store _)).1, network.encrypt_decrypt, hstore]

end Inverse

/-- An object of the class, with its two arrays. -/
structure Ctx extends Aes where
  length_enc : key_enc.length = AES_MAX_KEYLENGTH_U32
  length_dec : key_dec.length = AES_MAX_KEYLENGTH_U32

/-- `set_key` expands a key of a supported length, with which blocks can be encrypted and decrypted
again, or returns an error and leaves the schedules. -/
def SetsKey (ctx : Ctx) (in_key : List UInt8) (key_len : ℕ) : Prop :=
  ∃ ret aes, set_key ctx.toAes in_key key_len = some (ret, aes) ∧
    (ret = 0 ∧ Supported aes.key_length ∧ Inverse aes ∨ ret < 0 ∧ aes = ctx.toAes)

/-- A key of whole words of 8 bytes has to be there if its length is supported, any other one has to
fit in the array that it is copied to. -/
def SetsKeyWhen (in_key : List UInt8) (key_len : ℕ) : Prop :=
  if key_len % 8 = 0 then Supported key_len → key_len ≤ in_key.length
  else key_len ≤ in_key.length ∧ key_len ≤ 32

theorem new_key_some {in_key : List UInt8} {key_len : ℕ} (h8 : key_len % 8 ≠ 0)
    (hin : key_len ≤ in_key.length) (hmax : key_len ≤ 32) :
    ∃ key len, new_key in_key key_len = some (key, len) ∧ Supported len ∧ len ≤ key.length := by
  obtain ⟨bytes, hget⟩ := Option.isSome_iff_exists.mp
    (Buffer.get_isSome.mpr (show 0 + key_len ≤ in_key.length by omega))
  have hbytes := Buffer.length_get hget
  obtain ⟨key, hput, hkey⟩ := exists_put
    (List.length_replicate : (List.replicate 32 (0 : UInt8)).length = 32)
    (show 0 + bytes.length ≤ 32 by omega)
  have hlen : Supported (if (key_len / 8 + 1) * 8 = 8 then 16 else (key_len / 8 + 1) * 8) ∧
      (if (key_len / 8 + 1) * 8 = 8 then 16 else (key_len / 8 + 1) * 8) ≤ 32 := by
    simp only [Supported, AES_KEYSIZE_128, AES_KEYSIZE_192, AES_KEYSIZE_256]
    split <;> omega
  refine ⟨key, _, ?_, hlen.1, hkey ▸ hlen.2⟩
  rw [new_key, if_pos h8, hget, Option.bind_eq_bind, Option.bind_some, hput]
  rfl

/-- When a key can be set. -/
theorem sets_key_iff (ctx : Ctx) (in_key : List UInt8) (key_len : ℕ) :
    SetsKey ctx in_key key_len ↔ SetsKeyWhen in_key key_len := by
  have hset {key : List UInt8} {len : ℕ} (hnew : new_key in_key key_len = some (key, len))
      (hlen : Supported len) (hkey : len ≤ key.length) : SetsKey ctx in_key key_len := by
    obtain ⟨aes, hset, haes⟩ := set_key_supported ctx.length_enc ctx.length_dec hnew hlen hkey
    exact ⟨0, aes, hset, .inl ⟨rfl, haes.supported, haes.inverse⟩⟩
  by_cases h8 : key_len % 8 = 0
  · have hnew : new_key in_key key_len = some (in_key, key_len) := if_neg (not_not.mpr h8)
    rw [SetsKeyWhen, if_pos h8]
    by_cases hlen : Supported key_len
    · refine ⟨fun ⟨_, _, h, _⟩ _ ↦ ?_, fun h ↦ hset hnew hlen (h hlen)⟩
      have hcheck : aes_check_keylen key_len = 0 := if_pos hlen
      obtain ⟨-, hfour, hmin, -⟩ := hlen.bounds
      rw [set_key, hnew, Option.bind_eq_bind, Option.bind_some] at h
      simp only [hcheck, ne_eq, not_true_eq_false, if_false] at h
      obtain ⟨enc, hload, -⟩ := Option.bind_eq_some_iff.mp h
      have hle := length_le_of_load_key hload (by omega)
      omega
    · have hcheck : aes_check_keylen key_len = -1 := if_neg hlen
      refine iff_of_true ⟨-1, ctx.toAes, ?_, .inr ⟨by decide, rfl⟩⟩ fun h ↦ absurd h hlen
      rw [set_key, hnew, Option.bind_eq_bind, Option.bind_some]
      simp only [hcheck]
      rfl
  · rw [SetsKeyWhen, if_neg h8]
    constructor
    · rintro ⟨ret, aes, h, -⟩
      obtain ⟨r, hnew, -⟩ := Option.bind_eq_some_iff.mp h
      rw [new_key, if_pos h8] at hnew
      obtain ⟨bytes, hget, hnew⟩ := Option.bind_eq_some_iff.mp hnew
      obtain ⟨key, hput, -⟩ := Option.bind_eq_some_iff.mp hnew
      have hin := Buffer.get_isSome.mp (hget ▸ Option.isSome_some)
      have hfit := put_isSome.mp (hput ▸ Option.isSome_some)
      rw [Buffer.length_get hget, List.length_replicate] at hfit
      exact ⟨by omega, by omega⟩
    · rintro ⟨hin, hmax⟩
      obtain ⟨key, len, hnew, hlen, hkey⟩ := new_key_some h8 hin hmax
      exact hset hnew hlen hkey

def blank : Ctx where
  key_enc := List.replicate 60 0
  key_dec := List.replicate 60 0
  key_length := 0
  length_enc := by decide
  length_dec := by decide

/-- A key of 33 bytes is copied past the end of the array. -/
theorem not_sets_key : ¬∀ (ctx : Ctx) (in_key : List UInt8) (key_len : ℕ),
    key_len ≤ in_key.length → SetsKey ctx in_key key_len := by
  intro h
  obtain ⟨ret, aes, hset, -⟩ := h blank (List.replicate 33 0) 33 (by decide)
  have hnone : set_key blank.toAes (List.replicate 33 0) 33 = none := by decide
  exact Option.some_ne_none _ (hset.symm.trans hnone)

theorem block_size_pos : 0 < 16 := by decide

/-- AES under its expanded keys, as a cipher of the modes. -/
def cipher : BlockCipher {aes : Aes // Expanded aes} where
  size := 16
  size_pos := block_size_pos
  encrypt aes b := (aes.1.encrypt b).getD b
  decrypt aes b := (aes.1.decrypt b).getD b
  length_encrypt aes b h := by
    obtain ⟨⟨c, hc, hlen, -⟩, -⟩ := aes.2.inverse b h
    rw [hc]
    exact hlen
  length_decrypt aes b h := by
    obtain ⟨-, p, hp, hlen, -⟩ := aes.2.inverse b h
    rw [hp]
    exact hlen
  decrypt_encrypt aes b h := by
    obtain ⟨⟨c, hc, -, hdec⟩, -⟩ := aes.2.inverse b h
    rw [hc, Option.getD_some, hdec, Option.getD_some]

theorem roundTrips_pkcs7_iff {algo : SkcipherAlgo {aes : Aes // Expanded aes}}
    (hcipher : algo.sub_algo = cipher) (hpad : algo.padding = .pkcs7) {plain out out' : List UInt8}
    (hlen : plain.length < 2 ^ 30) (hout : algo.total plain.length ≤ out.length) :
    algo.RoundTrips plain out out' ↔ algo.total plain.length < out'.length := by
  have hsize : algo.block_size = 16 := by
    rw [SkcipherAlgo.block_size, hcipher]
    rfl
  have hplain : algo.Admissible plain := by
    rw [SkcipherAlgo.Admissible, hpad]
    trivial
  have htotal : algo.total plain.length < INT_BOUND := by
    rw [SkcipherAlgo.total, hsize, INT_BOUND]
    omega
  rw [SkcipherAlgo.roundTrips_iff hplain, SkcipherAlgo.RoundTripWhen, hpad, hsize]
  constructor
  · rintro ⟨-, -, -, hroom, -⟩
    exact hroom
  · intro hroom
    exact ⟨by decide, htotal, hout, hroom, Nat.sub_le _ _⟩

/-- Once a key has been set, a text padded as PKCS7 goes round, in every mode, if there is room for
one byte more than the ciphertext. -/
theorem set_key_round_trips (ctx : Ctx) {in_key : List UInt8} {key_len : ℕ}
    (hlen : Supported key_len) (hkey : key_len ≤ in_key.length) :
    ∃ (aes : Aes) (haes : Expanded aes), set_key ctx.toAes in_key key_len = some (0, aes) ∧
      ∀ (algo : SkcipherAlgo {aes : Aes // Expanded aes}) (plain out out' : List UInt8),
        algo.sub_algo = cipher → algo.key = ⟨aes, haes⟩ → algo.padding = .pkcs7 →
          plain.length < 2 ^ 30 → algo.total plain.length ≤ out.length →
            (algo.RoundTrips plain out out' ↔ algo.total plain.length < out'.length) := by
  have h8 : key_len % 8 = 0 := by
    rcases hlen with h | h | h <;> rw [h] <;> rfl
  obtain ⟨aes, hset, haes⟩ := set_key_supported ctx.length_enc ctx.length_dec
    (if_neg (not_not_intro h8) : new_key in_key key_len = some (in_key, key_len)) hlen hkey
  exact ⟨aes, haes, hset, fun algo plain out out' hcipher _ hpad hplain hout ↦
    roundTrips_pkcs7_iff hcipher hpad hplain hout⟩

/-- Three bytes under a key of zeros. -/
theorem set_key_round_trips_three :
    ∃ (aes : Aes) (haes : Expanded aes),
      set_key blank.toAes (List.replicate 16 0) 16 = some (0, aes) ∧
        SkcipherAlgo.RoundTrips ⟨cipher, ⟨aes, haes⟩, .cbc, .pkcs7, List.replicate 128 7,
          List.replicate 128 0, List.length_replicate, List.length_replicate⟩ [1, 2, 3]
          (List.replicate 16 0) (List.replicate 17 0) := by
  obtain ⟨aes, haes, hset, htrip⟩ :=
    @set_key_round_trips blank (List.replicate 16 0) 16 (.inl rfl) (by decide)
  refine ⟨aes, haes, hset, (htrip ⟨cipher, ⟨aes, haes⟩, .cbc, .pkcs7, _, _, List.length_replicate,
    List.length_replicate⟩ [1, 2, 3] (List.replicate 16 0) (List.replicate 17 0) rfl rfl rfl
    (by decide) ?_).mpr ?_⟩
  · simp [SkcipherAlgo.total, SkcipherAlgo.block_size, cipher]
  · simp [SkcipherAlgo.total, SkcipherAlgo.block_size, cipher]

end Aes

end Libobject.Crypto
