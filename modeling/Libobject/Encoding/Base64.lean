import Libobject.Lib.Rfc4648
import Mathlib.Data.List.Infix
import Mathlib.Data.Int.Notation
import Mathlib.Tactic.NormNum

/-!
# Encoding and decoding base 64

The bytes that are read lie in memory, with others behind them; what is not there cannot be read.
Both loops take whole groups, of three bytes and of four characters, whether the last one is whole
or not.
-/

namespace Libobject.Base64

section Encode

def base64_table : Text :=
  Scan.ascii "ABCDEFGHIJKLMNOPQRSTUVWXYZabcdefghijklmnopqrstuvwxyz0123456789+/"

def digit (d : UInt8) : UInt8 := base64_table.getD d.toNat 0

/-- The loop over the groups, with `len - i` and `src_len - j`. -/
def encodeFrom : List UInt8 → ℤ → ℤ → Option Text
  | a :: b :: c :: src, left, srcLeft =>
    if left ≤ 2 then some []
    else do
      let t : UInt8 := if srcLeft < 2 then 0 else b >>> 4
      let dst ← encodeFrom src (left - 4) (srcLeft - 3)
      return digit (a >>> 2) :: digit ((a &&& 0x3) <<< 4 ||| t) ::
        digit ((b &&& 0xf) <<< 2 ||| c >>> 6) :: digit (c &&& 0x3f) :: dst
  | _, left, _ => if left ≤ 2 then some [] else none

/-- The last characters are overwritten with the padding. -/
def overwrite (r : ℕ) (dst : Text) : Text :=
  match r with
  | 1 => dst.take (dst.length - 2) ++ [61, 61]
  | 2 => dst.take (dst.length - 1) ++ [61]
  | _ => dst

/-- What is returned, what is written and the length. A length that is no C integer is undefined. -/
def base64_encode (src : List UInt8) (src_len dst_len : ℕ) : Option (ℤ × Text × ℕ) :=
  let len := if src_len % 3 = 0 then src_len / 3 * 4 else (src_len / 3 + 1) * 4
  if 2147483648 ≤ len then none
  else if dst_len < len then some (-1, [], dst_len)
  else do
    let dst ← encodeFrom src len src_len
    return (0, overwrite (src_len % 3) dst, len)

/-- The encoding, whatever lies behind the bytes. -/
def EncodesWell (x : List UInt8) : Prop :=
  ∀ rest dst_len, (Rfc4648.encode x).length ≤ dst_len →
    base64_encode (x ++ rest) x.length dst_len =
      some (0, Rfc4648.encode x, (Rfc4648.encode x).length)

theorem toNat_or {x y : UInt8} {i : ℕ} (hi : i < 8) (hy : y.toNat < 2 ^ i) :
    (x <<< UInt8.ofNat i ||| y).toNat = x.toNat * 2 ^ i % 256 + y.toNat := by
  have hmod : (UInt8.ofNat i).toNat % 8 = i := by
    rw [UInt8.toNat_ofNat_of_lt' (Nat.lt_trans hi (by decide)), Nat.mod_eq_of_lt hi]
  have hsplit : 256 = 2 ^ (8 - i) * 2 ^ i := by
    rw [← Nat.pow_add, Nat.sub_add_cancel hi.le]
  have hshift : x.toNat * 2 ^ i % 256 = (x.toNat % 2 ^ (8 - i)) <<< i := by
    rw [hsplit, Nat.mul_mod_mul_right, Nat.shiftLeft_eq]
  rw [UInt8.toNat_or, UInt8.toNat_shiftLeft, hmod, Nat.shiftLeft_eq, hshift,
    Nat.shiftLeft_add_eq_or_of_lt hy]

theorem toNat_shiftRight {x : UInt8} {i : ℕ} (hi : i < 8) :
    (x >>> UInt8.ofNat i).toNat = x.toNat / 2 ^ i := by
  rw [UInt8.toNat_shiftRight, UInt8.toNat_ofNat_of_lt' (Nat.lt_trans hi (by decide)),
    Nat.mod_eq_of_lt hi,
    Nat.shiftRight_eq_div_pow]

theorem toNat_and_pred {x : UInt8} {i : ℕ} (hi : i < 8) :
    (x &&& UInt8.ofNat (2 ^ i - 1)).toNat = x.toNat % 2 ^ i := by
  have hle : 2 ^ i ≤ 2 ^ 7 := Nat.pow_le_pow_right (by decide) (by omega)
  have hlt : 2 ^ i - 1 < UInt8.size :=
    Nat.lt_of_le_of_lt (Nat.sub_le _ _) (Nat.lt_of_le_of_lt hle (by decide))
  rw [UInt8.toNat_and, UInt8.toNat_ofNat_of_lt' hlt, Nat.and_two_pow_sub_one_eq_mod]

theorem digit_eq (a b c : UInt8) :
    [digit (a >>> 2), digit ((a &&& 0x3) <<< 4 ||| b >>> 4),
      digit ((b &&& 0xf) <<< 2 ||| c >>> 6), digit (c &&& 0x3f)] =
      (Rfc4648.digits a b c).map Rfc4648.symbol := by
  have ha := a.toNat_lt
  have hb := b.toNat_lt
  have hc := c.toNat_lt
  have h0 : (a >>> 2).toNat = a.toNat / 4 := toNat_shiftRight (by decide)
  have hlow : (a &&& 0x3).toNat = a.toNat % 4 := toNat_and_pred (i := 2) (by decide)
  have hlow' : (b &&& 0xf).toNat = b.toNat % 16 := toNat_and_pred (i := 4) (by decide)
  have h3 : (c &&& 0x3f).toNat = c.toNat % 64 := toNat_and_pred (i := 6) (by decide)
  have hhigh : (b >>> 4).toNat = b.toNat / 16 := toNat_shiftRight (by decide)
  have hhigh' : (c >>> 6).toNat = c.toNat / 64 := toNat_shiftRight (by decide)
  have h1 : ((a &&& 0x3) <<< 4 ||| b >>> 4).toNat = a.toNat % 4 * 16 + b.toNat / 16 := by
    have hor : ((a &&& 0x3) <<< 4 ||| b >>> 4).toNat =
        (a &&& 0x3).toNat * 16 % 256 + (b >>> 4).toNat :=
      toNat_or (by decide) (show (b >>> 4).toNat < 16 by omega)
    omega
  have h2 : ((b &&& 0xf) <<< 2 ||| c >>> 6).toNat = b.toNat % 16 * 4 + c.toNat / 64 := by
    have hor : ((b &&& 0xf) <<< 2 ||| c >>> 6).toNat =
        (b &&& 0xf).toNat * 4 % 256 + (c >>> 6).toNat :=
      toNat_or (by decide) (show (c >>> 6).toNat < 4 by omega)
    omega
  simp only [digit, h0, h1, h2, h3, Rfc4648.digits, List.map_cons, List.map_nil]
  rfl

theorem digit_injective {d e : UInt8} (hd : d.toNat < 64) (he : e.toNat < 64)
    (h : digit d = digit e) : d = e := by
  have hlen : base64_table.length = 64 := Rfc4648.length_alphabet
  have hnodup : base64_table.Nodup := by
    have hcodes : (Rfc4648.alphabet.map UInt8.toNat).Nodup := by
      have heq := congrArg (List.map UInt8.toNat) Rfc4648.alphabet_eq
      simp only [List.map_cons, List.map_nil, UInt8.toNat_ofNat, Nat.reducePow, Nat.reduceMod]
        at heq
      rw [heq]
      decide
    exact List.Nodup.of_map _ hcodes
  rw [← hlen] at hd he
  have hget {d : UInt8} (hd : d.toNat < base64_table.length) : digit d = base64_table[d.toNat] := by
    rw [digit, List.getD_eq_getElem?_getD, List.getElem?_eq_getElem hd, Option.getD_some]
  rw [hget hd, hget he, hnodup.getElem_inj_iff] at h
  exact UInt8.toNat_inj.1 h

theorem encodeFrom_append (x src : List UInt8) (hx : x.length % 3 = 0) {left srcLeft : ℤ}
    (hleft : 0 ≤ left) (hsrc : 0 ≤ srcLeft) :
    encodeFrom (x ++ src) ((Rfc4648.encode x).length + left) (x.length + srcLeft) =
      (encodeFrom src left srcLeft).map (Rfc4648.encode x ++ ·) := by
  fun_induction Rfc4648.encode x with
  | case1 => simp
  | case2 a => cases hx
  | case3 a b => cases hx
  | case4 a b c xs ih =>
    have hxs : xs.length % 3 = 0 := by
      simp only [List.length_cons] at hx
      omega
    have hleft' : (((Rfc4648.digits a b c).map Rfc4648.symbol ++
        Rfc4648.encode xs).length : ℤ) + left - 4 = (Rfc4648.encode xs).length + left := by
      rw [List.length_append, List.length_map, Rfc4648.digits]
      push_cast [List.length_cons, List.length_nil]
      omega
    have hsrc' : ((a :: b :: c :: xs).length : ℤ) + srcLeft - 3 = xs.length + srcLeft := by
      push_cast [List.length_cons]
      omega
    rw [List.cons_append, List.cons_append, List.cons_append, encodeFrom, hleft', hsrc', ih hxs,
      if_neg (by omega), if_neg (by omega), ← digit_eq]
    generalize encodeFrom src left srcLeft = dst
    cases dst with
    | none => rfl
    | some dst => rfl

/-- What lies behind the bytes does not matter if it can be read, and its first bits are zeros where
two bytes are left. -/
def TailOk (n : ℕ) (rest : List UInt8) : Prop :=
  n % 3 = 0 ∨ n % 3 = 1 ∧ 2 ≤ rest.length ∨ n % 3 = 2 ∧ ∃ c ∈ rest.head?, c < 64

theorem overwrite_append (n : ℕ) (xs : Text) {ys : Text} (h : 2 ≤ ys.length) :
    overwrite n (xs ++ ys) = xs ++ overwrite n ys := by
  have htake (k : ℕ) (hk : k ≤ ys.length) :
      (xs ++ ys).take ((xs ++ ys).length - k) = xs ++ ys.take (ys.length - k) := by
    rw [List.length_append, Nat.add_sub_assoc hk, List.take_length_add_append]
  match n with
  | 0 => rfl
  | 1 => rw [overwrite, htake 2 h, List.append_assoc, overwrite]
  | 2 => rw [overwrite, htake 1 (by omega), List.append_assoc, overwrite]
  | _ + 3 => rfl

theorem encodeFrom_done (src : List UInt8) {left srcLeft : ℤ} (h : left ≤ 2) :
    encodeFrom src left srcLeft = some [] := by
  unfold encodeFrom
  split
  · exact if_pos h
  · exact if_pos h

theorem encodeFrom_group (a b c : UInt8) (src : List UInt8) (srcLeft : ℤ) :
    encodeFrom (a :: b :: c :: src) 4 srcLeft =
      some [digit (a >>> 2),
        digit ((a &&& 0x3) <<< 4 ||| (if srcLeft < 2 then 0 else b >>> 4 : UInt8)),
        digit ((b &&& 0xf) <<< 2 ||| c >>> 6), digit (c &&& 0x3f)] := by
  rw [encodeFrom, if_neg (by decide), encodeFrom_done src (by decide)]
  rfl

theorem encodeFrom_one (a : UInt8) (rest : List UInt8) :
    (encodeFrom (a :: rest) 4 1).map (overwrite 1) = some (Rfc4648.encode [a]) ↔
      2 ≤ rest.length := by
  match rest with
  | [] => exact ⟨nofun, nofun⟩
  | [b] => exact ⟨nofun, fun h ↦ absurd h (Nat.not_le.2 Nat.one_lt_two)⟩
  | b :: c :: rest =>
    refine iff_of_true ?_ (by simp)
    have hgroup := congrArg (List.take 2) (digit_eq a 0 0)
    rw [← List.map_take] at hgroup
    rw [Rfc4648.encode, ← hgroup]
    rw [encodeFrom_group]
    rfl

theorem length_of_encodeFrom {src dst : List UInt8} {srcLeft : ℤ}
    (h : encodeFrom src 4 srcLeft = some dst) : dst.length = 4 := by
  match src with
  | [] | [_] | [_, _] => cases h
  | a :: b :: c :: src =>
    rw [encodeFrom_group] at h
    cases h
    rfl

theorem encodeFrom_two (a b : UInt8) (rest : List UInt8) :
    (encodeFrom (a :: b :: rest) 4 2).map (overwrite 2) = some (Rfc4648.encode [a, b]) ↔
      ∃ c ∈ rest.head?, c < 64 := by
  match rest with
  | [] => exact ⟨nofun, nofun⟩
  | c :: rest =>
    have hgroup := congrArg (List.take 3) (digit_eq a b 0)
    rw [← List.map_take] at hgroup
    have hloop : (encodeFrom (a :: b :: c :: rest) 4 2).map (overwrite 2) =
        some [digit (a >>> 2), digit ((a &&& 0x3) <<< 4 ||| b >>> 4),
          digit ((b &&& 0xf) <<< 2 ||| c >>> 6), 61] := by
      rw [encodeFrom_group]
      rfl
    have hdigit : digit ((b &&& 0xf) <<< 2 ||| c >>> 6) =
        digit ((b &&& 0xf) <<< 2 ||| (0 : UInt8) >>> 6) ↔
        c < 64 := by
      have hc := c.toNat_lt
      have hlow : (b &&& 0xf).toNat = b.toNat % 16 := toNat_and_pred (i := 4) (by decide)
      have hhigh : (c >>> 6).toNat = c.toNat / 64 := toNat_shiftRight (by decide)
      have hor : ((b &&& 0xf) <<< 2 ||| c >>> 6).toNat =
          (b &&& 0xf).toNat * 4 % 256 + (c >>> 6).toNat :=
        toNat_or (by decide) (show (c >>> 6).toNat < 4 by omega)
      have hzero : ((b &&& 0xf) <<< 2 ||| (0 : UInt8) >>> 6).toNat =
          (b &&& 0xf).toNat * 4 % 256 + 0 :=
        toNat_or (by decide) (show (0 : UInt8).toNat < 4 by decide)
      rw [UInt8.lt_iff_toNat_lt]
      constructor
      · intro h
        have heq := congrArg UInt8.toNat (digit_injective (by omega) (by omega) h)
        have hsmall : (64 : UInt8).toNat = 64 := rfl
        omega
      · intro h
        have hsmall : (64 : UInt8).toNat = 64 := rfl
        have heq : (b &&& 0xf) <<< 2 ||| c >>> 6 = (b &&& 0xf) <<< 2 ||| (0 : UInt8) >>> 6 := by
          apply UInt8.toNat_inj.1
          omega
        rw [heq]
    rw [hloop, Rfc4648.encode, ← hgroup]
    simp only [List.head?_cons, Option.mem_some_iff, exists_eq_left']
    rw [← hdigit]
    simp [Rfc4648.padding]

theorem encodeFrom_last {z : List UInt8} (hz : z.length < 3) (rest : List UInt8) :
    (encodeFrom (z ++ rest) (Rfc4648.encode z).length z.length).map (overwrite z.length) =
        some (Rfc4648.encode z) ↔ TailOk z.length rest := by
  match z with
  | [] => simp [encodeFrom_done, Rfc4648.encode, overwrite, TailOk]
  | [a] =>
    rw [Rfc4648.length_encode_last (by simp) (by simp)]
    exact (encodeFrom_one a rest).trans (by simp [TailOk])
  | [a, b] =>
    rw [Rfc4648.length_encode_last (by simp) (by simp)]
    exact (encodeFrom_two a b rest).trans (by simp [TailOk])
  | _ :: _ :: _ :: _ =>
    simp only [List.length_cons] at hz
    omega

theorem overwrite_last {z src dst : List UInt8} (hz : z.length < 3) (xs : Text)
    (h : encodeFrom src (Rfc4648.encode z).length z.length = some dst) :
    overwrite z.length (xs ++ dst) = xs ++ overwrite z.length dst := by
  match z with
  | [] => rfl
  | a :: z =>
    rw [Rfc4648.length_encode_last (by simp) (by omega)] at h
    apply overwrite_append
    rw [length_of_encodeFrom h]
    decide

theorem base64_encode_iff {x rest : List UInt8} {dst_len : ℕ}
    (hcap : (Rfc4648.encode x).length ≤ dst_len) :
    base64_encode (x ++ rest) x.length dst_len =
        some (0, Rfc4648.encode x, (Rfc4648.encode x).length) ↔
      (Rfc4648.encode x).length < 2147483648 ∧ TailOk x.length rest := by
  have hlen : (if x.length % 3 = 0 then x.length / 3 * 4 else (x.length / 3 + 1) * 4) =
      (Rfc4648.encode x).length := by
    rw [Rfc4648.length_encode]
    split_ifs <;> omega
  rw [base64_encode, hlen]
  by_cases hbig : 2147483648 ≤ (Rfc4648.encode x).length
  · simp [hbig]
  rw [if_neg hbig, if_neg (Nat.not_lt.2 hcap)]
  -- the whole groups and what is left behind them
  have hsplit := List.take_append_drop (x.length / 3 * 3) x
  have hy : (x.take (x.length / 3 * 3)).length = x.length / 3 * 3 := by
    rw [List.length_take]
    omega
  have hz : (x.drop (x.length / 3 * 3)).length = x.length % 3 := by
    rw [List.length_drop]
    omega
  generalize x.take (x.length / 3 * 3) = y at hsplit hy
  generalize x.drop (x.length / 3 * 3) = z at hsplit hz
  have hz3 : z.length < 3 := by omega
  have hwhole : y.length % 3 = 0 := by omega
  have henc : Rfc4648.encode x = Rfc4648.encode y ++ Rfc4648.encode z := by
    rw [← hsplit, Rfc4648.encode_append y z hwhole]
  have htail : TailOk x.length rest ↔ TailOk z.length rest := by
    rw [TailOk, TailOk, hz, Nat.mod_mod]
  have hloop := encodeFrom_append y (z ++ rest) hwhole
    (Nat.cast_nonneg (Rfc4648.encode z).length) (Nat.cast_nonneg z.length)
  rw [← Nat.cast_add, ← Nat.cast_add, ← List.length_append, ← List.length_append, ← henc,
    ← List.append_assoc, hsplit] at hloop
  have hsmall := Nat.lt_of_not_le hbig
  rw [hloop, htail, ← encodeFrom_last hz3 rest, ← hz]
  cases hdst : encodeFrom (z ++ rest) (Rfc4648.encode z).length z.length with
  | none => simp
  | some dst =>
    have hover := overwrite_last hz3 (Rfc4648.encode y) hdst
    rw [henc, List.length_append] at hsmall
    simp only [Option.map_some, Option.bind_eq_bind, Option.bind_some, hover, henc]
    simp [hsmall]

theorem encodesWell_iff {x : List UInt8} :
    EncodesWell x ↔ x.length % 3 = 0 ∧ (Rfc4648.encode x).length < 2147483648 := by
  constructor
  · intro h
    obtain ⟨hsmall, hrest⟩ := (base64_encode_iff le_rfl).1 (h [] _ le_rfl)
    refine ⟨?_, hsmall⟩
    rcases hrest with hzero | ⟨-, hrest⟩ | ⟨-, c, hc, -⟩
    · exact hzero
    · cases hrest
    · cases hc
  · rintro ⟨hzero, hsmall⟩ rest dst_len hcap
    exact (base64_encode_iff hcap).2 ⟨hsmall, .inl hzero⟩

end Encode

section Decode

/-- The values of the characters up to `z`; those that are no digits count as 0. -/
def table : List UInt8 :=
  [0, 0, 0, 0, 0, 0, 0, 0, 0, 0, 0, 0,
    0, 0, 0, 0, 0, 0, 0, 0, 0, 0, 0, 0,
    0, 0, 0, 0, 0, 0, 0, 0, 0, 0, 0, 0,
    0, 0, 0, 0, 0, 0, 0, 62, 0, 0, 0,
    63, 52, 53, 54, 55, 56, 57, 58,
    59, 60, 61, 0, 0, 0, 0, 0, 0, 0, 0,
    1, 2, 3, 4, 5, 6, 7, 8, 9, 10, 11, 12,
    13, 14, 15, 16, 17, 18, 19, 20, 21,
    22, 23, 24, 25, 0, 0, 0, 0, 0, 0, 26,
    27, 28, 29, 30, 31, 32, 33, 34, 35,
    36, 37, 38, 39, 40, 41, 42, 43, 44,
    45, 46, 47, 48, 49, 50, 51]

/-- What is written, and the bytes that were taken as digits. -/
structure Decoded where
  ret : ℤ
  dst_len : ℤ
  written : List UInt8
  taken : List UInt8

/-- `strstr` in a text that ends in the memory. -/
def strstr (src : List UInt8) (s : Text) : Option Bool :=
  if 0 ∈ src then some (decide (s <:+: Scan.cString src)) else none

/-- The loop over the groups, with `src_len - i`. -/
def decodeFrom : List UInt8 → ℤ → Option (List UInt8 × List UInt8)
  | a :: b :: c :: d :: src, left =>
    if left ≤ 2 then some ([], [])
    else do
      let p ← table[a.toNat]?
      let q ← table[b.toNat]?
      let r ← table[c.toNat]?
      let s ← table[d.toNat]?
      let (written, taken) ← decodeFrom src (left - 4)
      return ((p <<< 2 ||| q >>> 4) :: (q <<< 4 ||| r >>> 2) :: (r <<< 6 ||| s) :: written,
        a :: b :: c :: d :: taken)
  | _, left => if left ≤ 2 then some ([], []) else none

def base64_decode (src : List UInt8) (src_len dst_len : ℕ) : Option Decoded := do
  let two ← strstr src [61, 61]
  let one ← strstr src [61]
  let len : ℤ :=
    if two then (src_len / 4 * 3 : ℕ) - 2
    else if one then (src_len / 4 * 3 : ℕ) - 1
    else (src_len / 4 * 3 : ℕ)
  if 2147483648 ≤ src_len then none
  else if dst_len < len then some ⟨-1, dst_len, [], []⟩
  else do
    let (written, taken) ← decodeFrom src src_len
    return ⟨0, len, written, taken⟩

/-- Characters that mean something: digits and padding. -/
def IsSymbol (c : UInt8) : Prop := c ∈ Rfc4648.alphabet ∨ c = Rfc4648.padding

/-- The text of an encoding gives back the bytes, if there is room for them. -/
def RoundTrips (x rest : List UInt8) (dst_len : ℕ) : Prop :=
  x.length ≤ dst_len →
    ∃ d, base64_decode (Rfc4648.encode x ++ rest) (Rfc4648.encode x).length dst_len = some d ∧
      d.ret = 0 ∧ d.dst_len = x.length ∧ d.written.take x.length = x ∧ d.written.length ≤ dst_len

/-- No more is written than there is room for, and only symbols are taken as digits. -/
def DecodesWell (y rest : List UInt8) (dst_len : ℕ) : Prop :=
  ∃ d, base64_decode (y ++ rest) y.length dst_len = some d ∧ d.written.length ≤ dst_len ∧
    ∀ c ∈ d.taken, IsSymbol c

/-- The number of bytes that the padding in a text takes away. -/
def missing (text : Text) : ℕ := if [61, 61] <:+: text then 2 else if [61] <:+: text then 1 else 0

/-- The groups that the loop of the decoding takes. -/
def groups (src_len : ℕ) : ℕ := (src_len + 1) / 4

variable {src : List UInt8}

theorem decodeFrom_done (src : List UInt8) {left : ℤ} (h : left ≤ 2) :
    decodeFrom src left = some ([], []) := by
  unfold decodeFrom
  split
  · exact if_pos h
  · exact if_pos h

theorem decodeFrom_short (hsrc : src.length < 4) {left : ℤ} (h : 2 < left) :
    decodeFrom src left = none := by
  match src with
  | [] | [_] | [_, _] | [_, _, _] => exact if_neg (Int.not_le.2 h)
  | _ :: _ :: _ :: _ :: _ =>
    simp only [List.length_cons] at hsrc
    omega

theorem decodeFrom_cons {a b c d : UInt8} {left : ℤ} (h : 2 < left) {w t : List UInt8} :
    decodeFrom (a :: b :: c :: d :: src) left = some (w, t) ↔
      ∃ p q r s w' t', table[a.toNat]? = some p ∧ table[b.toNat]? = some q ∧
        table[c.toNat]? = some r ∧ table[d.toNat]? = some s ∧
          decodeFrom src (left - 4) = some (w', t') ∧
            w = (p <<< 2 ||| q >>> 4) :: (q <<< 4 ||| r >>> 2) :: (r <<< 6 ||| s) :: w' ∧
              t = a :: b :: c :: d :: t' := by
  rw [decodeFrom, if_neg (Int.not_le.2 h)]
  simp only [Option.bind_eq_bind, Option.bind_eq_some_iff, Prod.exists, Option.pure_def,
    Option.some.injEq, Prod.mk.injEq]
  constructor
  · rintro ⟨p, hp, q, hq, r, hr, s, hs, w', t', hrest, hw, ht⟩
    exact ⟨p, q, r, s, w', t', hp, hq, hr, hs, hrest, hw.symm, ht.symm⟩
  · rintro ⟨p, q, r, s, w', t', hp, hq, hr, hs, hrest, hw, ht⟩
    exact ⟨p, hp, q, hq, r, hr, s, hs, w', t', hrest, hw.symm, ht.symm⟩

theorem lt_of_table {c v : UInt8} (h : table[c.toNat]? = some v) : c.toNat < 123 :=
  (List.getElem?_eq_some_iff.1 h).1

theorem decodeFrom_some {n : ℕ} {left : ℤ} (hleft : n = ((left + 1) / 4).toNat)
    {w t : List UInt8} (h : decodeFrom src left = some (w, t)) :
    4 * n ≤ src.length ∧ (∀ c ∈ src.take (4 * n), c.toNat < 123) ∧ w.length = 3 * n ∧
      t = src.take (4 * n) := by
  induction n generalizing src left w t with
  | zero =>
    rw [decodeFrom_done src (by omega)] at h
    cases h
    simp
  | succ n ih =>
    have hmore : 2 < left := by omega
    match src with
    | [] | [_] | [_, _] | [_, _, _] =>
      rw [decodeFrom_short (by simp) hmore] at h
      cases h
    | a :: b :: c :: d :: src =>
      obtain ⟨p, q, r, s, w', t', hp, hq, hr, hs, hrest, rfl, rfl⟩ :=
        (decodeFrom_cons hmore).1 h
      obtain ⟨hlen, hall, hw, ht⟩ := ih (by omega) hrest
      have htake : (a :: b :: c :: d :: src).take (4 * (n + 1)) =
          a :: b :: c :: d :: src.take (4 * n) := rfl
      refine ⟨?_, ?_, ?_, ?_⟩
      · simp only [List.length_cons]
        omega
      · rw [htake]
        simp only [List.forall_mem_cons]
        exact ⟨lt_of_table hp, lt_of_table hq, lt_of_table hr, lt_of_table hs, hall⟩
      · simp only [List.length_cons, hw]
        omega
      · rw [htake, ht]

theorem exists_decodeFrom {n : ℕ} {left : ℤ} (hleft : n = ((left + 1) / 4).toNat)
    (hlen : 4 * n ≤ src.length) (hall : ∀ c ∈ src.take (4 * n), c.toNat < 123) :
    ∃ w t, decodeFrom src left = some (w, t) := by
  induction n generalizing src left with
  | zero => exact ⟨[], [], decodeFrom_done src (by omega)⟩
  | succ n ih =>
    match src with
    | [] | [_] | [_, _] | [_, _, _] =>
      simp only [List.length_cons, List.length_nil] at hlen
      omega
    | a :: b :: c :: d :: src =>
      have htake : (a :: b :: c :: d :: src).take (4 * (n + 1)) =
          a :: b :: c :: d :: src.take (4 * n) := rfl
      rw [htake] at hall
      simp only [List.forall_mem_cons] at hall
      simp only [List.length_cons] at hlen
      obtain ⟨ha, hb, hc, hd, hrest⟩ := hall
      obtain ⟨w, t, h⟩ := @ih src (left - 4) (by omega) (by omega) hrest
      have hget {c : UInt8} (h : c.toNat < 123) : table[c.toNat]? = some table[c.toNat] :=
        List.getElem?_eq_getElem h
      exact ⟨_, _, (decodeFrom_cons (by omega)).2 ⟨_, _, _, _, w, t, hget ha, hget hb, hget hc,
        hget hd, h, rfl, rfl⟩⟩

theorem base64_decode_eq {src_len dst_len : ℕ} (hzero : 0 ∈ src) (hsmall : src_len < 2147483648) :
    base64_decode src src_len dst_len =
      if (dst_len : ℤ) < (src_len / 4 * 3 : ℕ) - missing (Scan.cString src) then
        some ⟨-1, dst_len, [], []⟩
      else
        (decodeFrom src src_len).map fun (w, t) ↦
          ⟨0, (src_len / 4 * 3 : ℕ) - missing (Scan.cString src), w, t⟩ := by
  have hstr (s : Text) : strstr src s = some (decide (s <:+: Scan.cString src)) := if_pos hzero
  have hlen : (if [61, 61] <:+: Scan.cString src then ((src_len / 4 * 3 : ℕ) : ℤ) - 2
      else if [61] <:+: Scan.cString src then ((src_len / 4 * 3 : ℕ) : ℤ) - 1
      else (src_len / 4 * 3 : ℕ)) = (src_len / 4 * 3 : ℕ) - missing (Scan.cString src) := by
    rw [missing]
    split_ifs
    · rfl
    · rfl
    · exact (Int.sub_zero _).symm
  rw [base64_decode, hstr, hstr]
  simp only [Option.bind_eq_bind, Option.bind_some, decide_eq_true_eq, hlen]
  rw [if_neg (Nat.not_le.2 hsmall)]
  split_ifs
  · rfl
  · rw [Option.map_eq_bind]
    rfl

set_option maxRecDepth 2000 in
theorem IsSymbol.lt {c : UInt8} (h : IsSymbol c) : c.toNat < 123 := by
  have hall : ∀ c ∈ Rfc4648.alphabet, c.toNat < 123 := by
    rw [Rfc4648.alphabet_eq]
    decide
  rcases h with h | rfl
  · exact hall c h
  · decide

/-- The text is in front of the end of a C string, and either what is decoded has no room, or there
is room for all groups and they consist of symbols. -/
theorem decodesWell_iff {y rest : List UInt8} {dst_len : ℕ} :
    DecodesWell y rest dst_len ↔
      0 ∈ y ++ rest ∧ y.length < 2147483648 ∧
        ((dst_len : ℤ) < (y.length / 4 * 3 : ℕ) - missing (Scan.cString (y ++ rest)) ∨
          3 * groups y.length ≤ dst_len ∧ 4 * groups y.length ≤ (y ++ rest).length ∧
            ∀ c ∈ (y ++ rest).take (4 * groups y.length), IsSymbol c) := by
  by_cases hzero : 0 ∈ y ++ rest
  · by_cases hsmall : y.length < 2147483648
    · have hgroups : groups y.length = (((y.length : ℤ) + 1) / 4).toNat := by
        rw [groups]
        omega
      simp only [hzero, hsmall, true_and]
      rw [DecodesWell, base64_decode_eq hzero hsmall]
      split_ifs with hroom
      · refine iff_of_true ⟨_, rfl, ?_, ?_⟩ (.inl hroom)
        · exact Nat.zero_le _
        · exact nofun
      · simp only [hroom, false_or, Option.map_eq_some_iff, Prod.exists]
        constructor
        · rintro ⟨d, ⟨w, t, hloop, rfl⟩, hw, ht⟩
          obtain ⟨hlen, -, hw', ht'⟩ := decodeFrom_some hgroups hloop
          exact ⟨hw' ▸ hw, hlen, ht' ▸ ht⟩
        · rintro ⟨hcap, hlen, hall⟩
          obtain ⟨w, t, hloop⟩ := exists_decodeFrom hgroups hlen fun c hc ↦ (hall c hc).lt
          obtain ⟨-, -, hw, ht⟩ := decodeFrom_some hgroups hloop
          exact ⟨_, ⟨w, t, hloop, rfl⟩, hw ▸ hcap, ht ▸ hall⟩
    · have hbig := Nat.le_of_not_lt hsmall
      simp [DecodesWell, base64_decode, strstr, hzero, hbig, hsmall]
  · simp [DecodesWell, base64_decode, strstr, hzero]

theorem table_symbol {d : ℕ} (h : d < 64) :
    table[(Rfc4648.symbol d).toNat]? = some (UInt8.ofNat d) := by
  have hall : ∀ d < 64, table[(Rfc4648.symbol d).toNat]? = some (UInt8.ofNat d) := by
    simp only [Rfc4648.symbol, Rfc4648.alphabet_eq]
    decide
  exact hall d h

theorem join_digits (a b c : UInt8) :
    ∃ p q r s : UInt8, Rfc4648.digits a b c = [p.toNat, q.toNat, r.toNat, s.toNat] ∧
      p <<< 2 ||| q >>> 4 = a ∧ q <<< 4 ||| r >>> 2 = b ∧ r <<< 6 ||| s = c := by
  have ha := a.toNat_lt
  have hb := b.toNat_lt
  have hc := c.toNat_lt
  have hof {d : ℕ} (h : d < 64) : (UInt8.ofNat d).toNat = d :=
    UInt8.toNat_ofNat_of_lt' (Nat.lt_trans h (by decide))
  have hp := hof (d := a.toNat / 4) (by omega)
  have hq := hof (d := a.toNat % 4 * 16 + b.toNat / 16) (by omega)
  have hr := hof (d := b.toNat % 16 * 4 + c.toNat / 64) (by omega)
  have hs := hof (d := c.toNat % 64) (by omega)
  refine ⟨_, _, _, _, (congrArg₂ _ hp (congrArg₂ _ hq (congrArg₂ _ hr (congrArg₂ _ hs rfl)))).symm,
    ?_, ?_, ?_⟩
  · generalize UInt8.ofNat (a.toNat / 4) = p at hp
    generalize UInt8.ofNat (a.toNat % 4 * 16 + b.toNat / 16) = q at hq
    have hhigh : (q >>> 4).toNat = q.toNat / 16 := toNat_shiftRight (by decide)
    have hor : (p <<< 2 ||| q >>> 4).toNat = p.toNat * 4 % 256 + (q >>> 4).toNat :=
      toNat_or (by decide) (show (q >>> 4).toNat < 4 by omega)
    apply UInt8.toNat_inj.1
    omega
  · generalize UInt8.ofNat (a.toNat % 4 * 16 + b.toNat / 16) = q at hq
    generalize UInt8.ofNat (b.toNat % 16 * 4 + c.toNat / 64) = r at hr
    have hhigh : (r >>> 2).toNat = r.toNat / 4 := toNat_shiftRight (by decide)
    have hor : (q <<< 4 ||| r >>> 2).toNat = q.toNat * 16 % 256 + (r >>> 2).toNat :=
      toNat_or (by decide) (show (r >>> 2).toNat < 16 by omega)
    apply UInt8.toNat_inj.1
    omega
  · generalize UInt8.ofNat (b.toNat % 16 * 4 + c.toNat / 64) = r at hr
    generalize UInt8.ofNat (c.toNat % 64) = s at hs
    have hor : (r <<< 6 ||| s).toNat = r.toNat * 64 % 256 + s.toNat :=
      toNat_or (by decide) (show s.toNat < 64 by omega)
    apply UInt8.toNat_inj.1
    omega

theorem table_digits {a b c p q r s : UInt8}
    (h : Rfc4648.digits a b c = [p.toNat, q.toNat, r.toNat, s.toNat]) :
    (table[(Rfc4648.symbol p.toNat).toNat]? = some p ∧
      table[(Rfc4648.symbol q.toNat).toNat]? = some q) ∧
        table[(Rfc4648.symbol r.toNat).toNat]? = some r ∧
          table[(Rfc4648.symbol s.toNat).toNat]? = some s := by
  have hlt := Rfc4648.digits_lt a b c
  rw [h] at hlt
  simp only [List.forall_mem_cons] at hlt
  obtain ⟨hp, hq, hr, hs, -⟩ := hlt
  have hget {d : UInt8} (hd : d.toNat < 64) :
      table[(Rfc4648.symbol d.toNat).toNat]? = some d := by
    rw [table_symbol hd, UInt8.ofNat_toNat]
  exact ⟨⟨hget hp, hget hq⟩, hget hr, hget hs⟩

theorem decodeFrom_encode (x rest : List UInt8) :
    ∃ w t, decodeFrom (Rfc4648.encode x ++ rest) (Rfc4648.encode x).length = some (w, t) ∧
      w.take x.length = x := by
  fun_induction Rfc4648.encode x with
  | case1 => exact ⟨[], [], decodeFrom_done rest (by decide), rfl⟩
  | case2 a =>
    obtain ⟨p, q, r, s, hdigits, ha, -, -⟩ := join_digits a 0 0
    obtain ⟨⟨hp, hq⟩, -⟩ := table_digits hdigits
    rw [hdigits]
    have hloop := (@decodeFrom_cons rest (Rfc4648.symbol p.toNat) (Rfc4648.symbol q.toNat)
      Rfc4648.padding Rfc4648.padding 4 (by decide) _ _).2
      ⟨p, q, 0, 0, [], [], hp, hq, rfl, rfl, decodeFrom_done rest (by decide), rfl, rfl⟩
    exact ⟨_, _, hloop, by rw [ha]; rfl⟩
  | case3 a b =>
    obtain ⟨p, q, r, s, hdigits, ha, hb, -⟩ := join_digits a b 0
    obtain ⟨⟨hp, hq⟩, hr, -⟩ := table_digits hdigits
    rw [hdigits]
    have hloop := (@decodeFrom_cons rest (Rfc4648.symbol p.toNat) (Rfc4648.symbol q.toNat)
      (Rfc4648.symbol r.toNat) Rfc4648.padding 4 (by decide) _ _).2
      ⟨p, q, r, 0, [], [], hp, hq, hr, rfl, decodeFrom_done rest (by decide), rfl, rfl⟩
    exact ⟨_, _, hloop, by rw [ha, hb]; rfl⟩
  | case4 a b c xs ih =>
    obtain ⟨w, t, ih, htake⟩ := ih
    obtain ⟨p, q, r, s, hdigits, ha, hb, hc⟩ := join_digits a b c
    obtain ⟨⟨hp, hq⟩, hr, hs⟩ := table_digits hdigits
    have hleft : (((Rfc4648.digits a b c).map Rfc4648.symbol ++
        Rfc4648.encode xs).length : ℤ) = (Rfc4648.encode xs).length + 4 := by
      rw [List.length_append, List.length_map, Rfc4648.digits]
      push_cast [List.length_cons, List.length_nil]
      omega
    rw [hleft, hdigits]
    have hloop := (@decodeFrom_cons (Rfc4648.encode xs ++ rest) (Rfc4648.symbol p.toNat)
      (Rfc4648.symbol q.toNat) (Rfc4648.symbol r.toNat) (Rfc4648.symbol s.toNat)
      ((Rfc4648.encode xs).length + 4) (by omega) _ _).2
      ⟨p, q, r, s, w, t, hp, hq, hr, hs, by rwa [Int.add_sub_cancel], rfl, rfl⟩
    exact ⟨_, _, hloop, by rw [ha, hb, hc]; simp [htake]⟩

/-- Behind the text, before the zero, there is nothing that looks like more padding. -/
def NoPadding (n : ℕ) (rest : List UInt8) : Prop :=
  match Rfc4648.pads n with
  | 0 => Rfc4648.padding ∉ Scan.cString rest
  | 1 => ¬[61, 61] <:+: Rfc4648.padding :: Scan.cString rest
  | _ => True

theorem infix_append {body u s : Text} {c : UInt8} (h : c ∉ body) (hs : s.head? = some c) :
    s <:+: body ++ u ↔ s <:+: u := by
  induction body with
  | nil => rfl
  | cons d body ih =>
    rw [List.mem_cons, not_or] at h
    rw [List.cons_append, List.infix_cons_iff, ih h.2]
    apply or_iff_right
    rintro ⟨rest, hrest⟩
    have hhead := congrArg List.head? hrest
    rw [List.head?_append, hs] at hhead
    exact h.1 (Option.some.inj hhead)

theorem missing_iff (x rest : List UInt8) :
    missing (Rfc4648.encode x ++ Scan.cString rest) = Rfc4648.pads x.length ↔
      NoPadding x.length rest := by
  obtain ⟨body, heq, hbody⟩ := Rfc4648.encode_eq_append x
  have hnot : Rfc4648.padding ∉ body := fun h ↦ Rfc4648.padding_notMem_alphabet (hbody _ h)
  have hlt : Rfc4648.pads x.length < 3 := Nat.mod_lt _ (by decide)
  have hskip (u : Text) : missing (body ++ u) = missing u := by
    simp only [missing, @infix_append body u [61, 61] _ hnot rfl,
      @infix_append body u [61] _ hnot rfl]
  rw [heq, NoPadding, List.append_assoc, hskip]
  generalize Scan.cString rest = t
  generalize Rfc4648.pads x.length = k at hlt
  match k with
  | 0 =>
    have hone : [61] <:+: t ↔ Rfc4648.padding ∈ t := List.singleton_infix_iff _ t
    have htwo (h : [61, 61] <:+: t) : [61] <:+: t := List.IsInfix.trans ⟨[], [61], rfl⟩ h
    rw [← hone, List.replicate_zero, List.nil_append, missing]
    split_ifs with h2 h1
    · simp [htwo h2]
    · simp [h1]
    · simp [h1]
  | 1 =>
    have hone : [61] <:+: Rfc4648.padding :: t := ⟨[], t, rfl⟩
    rw [List.replicate_one, List.singleton_append, missing, if_pos hone]
    split_ifs with h2
    · simp [h2]
    · simp [h2]
  | 2 =>
    have htwo : [61, 61] <:+: List.replicate 2 Rfc4648.padding ++ t := ⟨[], t, rfl⟩
    rw [missing, if_pos htwo]
    simp

/-- The text gives back the bytes exactly if it is in front of the end of a C string, nothing behind
it looks like padding, and there is room for whole groups. -/
theorem roundTrips_iff {x rest : List UInt8} {dst_len : ℕ} :
    RoundTrips x rest dst_len ↔
      dst_len < x.length ∨ 0 ∈ rest ∧ (Rfc4648.encode x).length < 2147483648 ∧
        NoPadding x.length rest ∧ (x.length + 2) / 3 * 3 ≤ dst_len := by
  by_cases hcap : dst_len < x.length
  · exact iff_of_true (fun h ↦ absurd h (Nat.not_le.2 hcap)) (.inl hcap)
  have hroom := Nat.le_of_not_lt hcap
  have hmem : 0 ∈ Rfc4648.encode x ++ rest ↔ 0 ∈ rest := by
    rw [List.mem_append, or_iff_right (Rfc4648.zero_notMem_encode x)]
  by_cases hzero : 0 ∈ rest
  · by_cases hsmall : (Rfc4648.encode x).length < 2147483648
    · have hstr : Scan.cString (Rfc4648.encode x ++ rest) =
          Rfc4648.encode x ++ Scan.cString rest := by
        exact List.takeWhile_append_of_pos fun c hc ↦ decide_eq_true fun h ↦
          Rfc4648.zero_notMem_encode x (h ▸ hc)
      have hgroups : (x.length + 2) / 3 = ((((Rfc4648.encode x).length : ℤ) + 1) / 4).toNat := by
        rw [Rfc4648.length_encode]
        omega
      have hlen : (Rfc4648.encode x).length / 4 * 3 = x.length + Rfc4648.pads x.length := by
        rw [Rfc4648.length_encode, Rfc4648.pads]
        omega
      obtain ⟨w, t, hloop, htake⟩ := decodeFrom_encode x rest
      obtain ⟨-, -, hw, -⟩ := decodeFrom_some hgroups hloop
      rw [RoundTrips, base64_decode_eq (hmem.2 hzero) hsmall, hstr, hloop, hlen, ← missing_iff]
      simp only [hroom, forall_const, hcap, hzero, hsmall, true_and, false_or]
      generalize missing (Rfc4648.encode x ++ Scan.cString rest) = m
      split_ifs with hreject
      · constructor
        · rintro ⟨d, hd, hret, -⟩
          cases hd
          cases hret
        · omega
      · rw [Option.map_some]
        constructor
        · rintro ⟨d, hd, -, hdlen, -, hwritten⟩
          cases hd
          dsimp only at hdlen hwritten
          omega
        · rintro ⟨rfl, hfull⟩
          refine ⟨_, rfl, rfl, ?_, htake, ?_⟩
          · dsimp only
            omega
          · dsimp only
            omega
    · simp [RoundTrips, base64_decode, strstr, hmem, hzero, hcap, hsmall, Nat.le_of_not_lt hsmall]
  · simp [RoundTrips, base64_decode, strstr, hmem, hzero, hcap]

end Decode

/-- Encoding, the way back, and decoding of any bytes, with the bytes behind them in memory. -/
theorem base64_iff (x y rest : List UInt8) (dst_len : ℕ) :
    (EncodesWell x ↔ x.length % 3 = 0 ∧ (Rfc4648.encode x).length < 2147483648) ∧
      (RoundTrips x rest dst_len ↔
        dst_len < x.length ∨ 0 ∈ rest ∧ (Rfc4648.encode x).length < 2147483648 ∧
          NoPadding x.length rest ∧ (x.length + 2) / 3 * 3 ≤ dst_len) ∧
      (DecodesWell y rest dst_len ↔
        0 ∈ y ++ rest ∧ y.length < 2147483648 ∧
          ((dst_len : ℤ) < (y.length / 4 * 3 : ℕ) - missing (Scan.cString (y ++ rest)) ∨
            3 * groups y.length ≤ dst_len ∧ 4 * groups y.length ≤ (y ++ rest).length ∧
              ∀ c ∈ (y ++ rest).take (4 * groups y.length), IsSymbol c)) :=
  ⟨encodesWell_iff, roundTrips_iff, decodesWell_iff⟩

/-- The first bits of the byte behind two others get into their encoding. -/
theorem not_base64 : ¬EncodesWell [97, 98] := by
  intro h
  have hrest := h [255] 4 (by decide)
  exact absurd hrest (by decide)


end Libobject.Base64
