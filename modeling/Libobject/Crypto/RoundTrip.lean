import Libobject.Crypto.Skcipher

/-!
# When decrypting gives back what was encrypted

The paddings are taken off by functions that look at the byte behind the text: where they go beyond
a buffer depends on how much room there is behind the ciphertext, and on what stands there.
-/

namespace Libobject.Crypto.SkcipherAlgo

open Buffer (put get)
open BlockCipher

section Scan

variable {out : List UInt8} {low : ℕ}

theorem unpad_zero_scan_step {i : ℕ} (hlow : low ≤ i + 1) (h : out[i + 1]? = some 0) :
    unpad_zero_scan out low (i + 1) = unpad_zero_scan out low i := by
  rw [unpad_zero_scan, if_pos hlow, h]
  rfl

theorem unpad_zero_scan_stop {i : ℕ} {c : UInt8} (h : out[i]? = some c) (hc : c ≠ 0) :
    unpad_zero_scan out low i = some (i + 1) := by
  cases i with
  | zero =>
    rw [unpad_zero_scan, h]
    simp [hc]
  | succ i =>
    rw [unpad_zero_scan, h]
    simp [hc]

theorem unpad_zero_scan_zeros {a i : ℕ} (hai : a ≤ i)
    (h : ∀ j, a < j → j ≤ i → low ≤ j ∧ out[j]? = some 0) :
    unpad_zero_scan out low i = unpad_zero_scan out low a := by
  induction i, hai using Nat.le_induction with
  | base => rfl
  | succ i hai ih =>
    obtain ⟨hlow, hzero⟩ := h (i + 1) (Nat.lt_succ_of_le hai) le_rfl
    rw [unpad_zero_scan_step hlow hzero]
    exact ih fun j haj hji ↦ h j haj (Nat.le_succ_of_le hji)

theorem unpad_zero_scan_le (hlow : 0 < low) {i : ℕ} (hi : i < out.length) :
    ∃ n, unpad_zero_scan out low i = some n ∧ n ≤ i + 1 := by
  induction i with
  | zero =>
    rw [unpad_zero_scan, if_neg (Nat.not_le.mpr hlow)]
    exact ⟨1, rfl, le_rfl⟩
  | succ i ih =>
    rw [unpad_zero_scan, List.getElem?_eq_getElem hi]
    split
    · simp only [Option.bind_eq_bind, Option.bind_some]
      split
      · obtain ⟨n, hn, hle⟩ := ih (Nat.lt_of_succ_lt hi)
        exact ⟨n, hn, Nat.le_succ_of_le hle⟩
      · exact ⟨i + 2, rfl, le_rfl⟩
    · exact ⟨i + 2, rfl, le_rfl⟩

theorem sub32_of_le {a b : ℕ} (hb : b ≤ a) (ha : a < 2 ^ 32) : sub32 a b = a - b := by
  unfold sub32
  omega

end Scan

variable {κ : Type*} {algo : SkcipherAlgo κ}

/-- The plaintexts that a padding is made for. -/
def Admissible (algo : SkcipherAlgo κ) (plain : List UInt8) : Prop :=
  match algo.padding with
  | .no => algo.block_size ∣ plain.length
  | .zero => plain.getLast? ≠ some 0
  | .pkcs7 => True

/-- How long a padded text of `len` bytes is. -/
def total (algo : SkcipherAlgo κ) (len : ℕ) : ℕ := (len / algo.block_size + 1) * algo.block_size

/-- What is encrypted into `out` is reported as long as it is, and decrypting it into `out'` gives
the text and its length. -/
def RoundTrips (algo : SkcipherAlgo κ) (plain out out' : List UInt8) : Prop :=
  ∃ r, algo.encrypt plain out out.length = some r ∧ 0 ≤ r.ret ∧ r.out_len = r.written ∧
    ∃ r', algo.decrypt (r.out.take r.out_len) out' out'.length = some r' ∧ 0 ≤ r'.ret ∧
      r'.out_len = plain.length ∧ r'.out.take r'.out_len = plain

/-- Every ciphertext of `L` bytes is decrypted into a buffer of `c` bytes without going outside of
either, to an error or to a text that is not longer. -/
def Tame (algo : SkcipherAlgo κ) (L c : ℕ) : Prop :=
  ∀ inp out : List UInt8, inp.length = L → out.length = c →
    ∃ r, algo.decrypt inp out out.length = some r ∧ (r.ret < 0 ∨ r.out_len ≤ L)

section Padded

theorem fill_length (hpad : algo.padding ≠ .no) (n : ℕ) :
    (algo.fill n).length = algo.block_size - n := by
  unfold fill
  cases hp : algo.padding with
  | no => exact absurd hp hpad
  | zero => exact List.length_replicate
  | pkcs7 => exact List.length_replicate

theorem mod_lt_size (len : ℕ) : len % algo.block_size < algo.block_size :=
  Nat.mod_lt _ algo.sub_algo.size_pos

theorem length_padded (hpad : algo.padding ≠ .no) (plain : List UInt8) :
    (plain ++ algo.fill (plain.length % algo.block_size)).length = algo.total plain.length := by
  have hmod : plain.length % algo.block_size < algo.block_size := mod_lt_size plain.length
  have hdiv := Nat.div_add_mod plain.length algo.block_size
  rw [List.length_append, fill_length hpad, total, Nat.succ_mul,
    Nat.mul_comm (plain.length / algo.block_size)]
  omega

theorem put_whole {out bs : List UInt8} (h : bs.length ≤ out.length) :
    put out 0 bs = some (bs ++ out.drop bs.length) := by
  have hput := Buffer.put_append [] out bs h
  rwa [List.nil_append, List.nil_append] at hput

theorem exists_ciphertext (hpad : algo.padding ≠ .no) (hsize : algo.block_size ≤ MAX_BLOCK_SIZE)
    (plain : List UInt8) : ∃ ct : List UInt8, ct.length = algo.total plain.length ∧
      (∀ out n, algo.encrypt plain out n = if algo.total plain.length < INT_BOUND then
          (put out 0 ct).map fun out ↦
            ⟨⟨1, out, algo.total plain.length⟩, algo.total plain.length⟩
        else none) ∧
      ∀ out : List UInt8, algo.decrypt ct out out.length =
        if algo.total plain.length < INT_BOUND then
          (put out 0 (plain ++ algo.fill (plain.length % algo.block_size))).bind fun out ↦
            algo.unpad out (algo.total plain.length)
        else none := by
  have hpos : 0 < algo.block_size := algo.sub_algo.size_pos
  obtain ⟨bs, tail, hplain, hbs, htail⟩ := exists_blocks hpos plain
  have hlen : plain.length = algo.block_size * bs.length + tail.length := by
    rw [hplain, List.length_append, hbs.length_flatten, Nat.mul_comm]
  have hmod : plain.length % algo.block_size = tail.length := by
    rw [hlen, Nat.mul_add_mod, Nat.mod_eq_of_lt htail]
  have htotal : (bs.length + 1) * algo.block_size = algo.total plain.length := by
    rw [total, hlen, Nat.mul_add_div hpos, Nat.div_eq_of_lt htail, Nat.add_zero]
  have hblock : (tail ++ algo.fill tail.length).length = algo.block_size := by
    rw [List.length_append, fill_length hpad]
    exact Nat.add_sub_cancel' htail.le
  have hall := hbs.snoc hblock
  have hflat : (bs ++ [tail ++ algo.fill tail.length]).flatten =
      plain ++ algo.fill (plain.length % algo.block_size) := by
    rw [hmod, hplain, List.flatten_append, List.flatten_singleton, List.append_assoc]
  have hiv : algo.mode.Reads algo.iv algo.block_size := fun _ ↦ algo.length_iv ▸ hsize
  have hcs := blocks_encBlocks (C := algo.sub_algo) (k := algo.key) hiv hall
  have hct := hcs.length_flatten
  rw [length_encBlocks] at hct
  replace hct := hct.trans (hall.length_flatten.symm.trans (by rw [hflat, length_padded hpad]))
  refine ⟨_, hct, fun out n ↦ ?_, fun out ↦ ?_⟩
  · have henc := encrypt_eq out n hbs htail hpad hsize
    rwa [← hplain, htotal] at henc
  · have hdec := decrypt_eq out hcs (.inr hiv)
    rwa [decBlocks_encBlocks hiv hall, hflat, hct] at hdec

theorem roundTrips_iff_unpad (hpad : algo.padding ≠ .no) {plain out out' : List UInt8} :
    RoundTrips algo plain out out' ↔
      (algo.block_size ≤ MAX_BLOCK_SIZE ∧ algo.total plain.length < INT_BOUND ∧
        algo.total plain.length ≤ out.length ∧ algo.total plain.length ≤ out'.length) ∧
      ∃ r, algo.unpad (plain ++ algo.fill (plain.length % algo.block_size) ++
          out'.drop (algo.total plain.length)) (algo.total plain.length) = some r ∧
        0 ≤ r.ret ∧ r.out_len = plain.length ∧ r.out.take plain.length = plain := by
  have hpadded := length_padded hpad plain
  constructor
  · rintro ⟨r, henc, hret, -, r', hdec, hret', hlen, htext⟩
    obtain ⟨-, hsize⟩ | ⟨hno, -⟩ := encrypt_cases henc hret
    · obtain ⟨ct, hct, henc', hdec'⟩ := exists_ciphertext hpad hsize plain
      rw [henc'] at henc
      split at henc
      · next hint =>
          obtain ⟨o, hput, rfl⟩ := Option.map_eq_some_iff.mp henc
          have hfit := Buffer.put_isSome.mp (hput ▸ Option.isSome_some)
          rw [Nat.zero_add, hct] at hfit
          rw [put_whole (hct.trans_le hfit), Option.some.injEq] at hput
          have htake : o.take (algo.total plain.length) = ct := by
            rw [← hput, List.take_left' hct]
          rw [htake, hdec', if_pos hint] at hdec
          obtain ⟨o', hput', hunpad⟩ := Option.bind_eq_some_iff.mp hdec
          have hfit' := Buffer.put_isSome.mp (hput' ▸ Option.isSome_some)
          rw [Nat.zero_add, hpadded] at hfit'
          rw [put_whole (hpadded.trans_le hfit'), Option.some.injEq, hpadded] at hput'
          refine ⟨⟨hsize, hint, hfit, hfit'⟩, r', ?_, hret', hlen, hlen ▸ htext⟩
          rw [hput']
          exact hunpad
      · cases henc
    · exact absurd hno hpad
  · rintro ⟨⟨hsize, hint, hfit, hfit'⟩, r', hunpad, hret', hlen, htext⟩
    obtain ⟨ct, hct, henc, hdec⟩ := exists_ciphertext hpad hsize plain
    refine ⟨⟨⟨1, ct ++ out.drop ct.length, algo.total plain.length⟩, algo.total plain.length⟩, ?_,
      Int.one_nonneg, rfl, r', ?_, hret', hlen, hlen.symm ▸ htext⟩
    · rw [henc, if_pos hint, put_whole (hct.trans_le hfit)]
      rfl
    · rw [List.take_left' hct, hdec, if_pos hint, put_whole (hpadded.trans_le hfit'),
        Option.bind_some, hpadded]
      exact hunpad

end Padded

section Unpad

variable {plain out : List UInt8} {L c : ℕ}

theorem unpad_zero_iff (hzero : plain.getLast? ≠ some 0) (z : ℕ) (post : List UInt8)
    (hz : z ≤ algo.block_size) (hle : algo.block_size ≤ plain.length + z)
    (hint : plain.length + z < 2 ^ 32) :
    (∃ r, algo.unpad_zero (plain ++ List.replicate z 0 ++ post) (plain.length + z) = some r ∧
        0 ≤ r.ret ∧ r.out_len = plain.length ∧ r.out.take plain.length = plain) ↔
      plain ≠ [] ∧ post[0]? = some 0 := by
  have hbehind : (plain ++ List.replicate z 0 ++ post)[plain.length + z]? = post[0]? := by
    rw [List.getElem?_append_right (by simp)]
    simp
  have hzeros (h0 : post[0]? = some 0) (j : ℕ) (hj : plain.length ≤ j)
      (hj' : j ≤ plain.length + z) :
      sub32 (plain.length + z) algo.block_size ≤ j ∧
        (plain ++ List.replicate z 0 ++ post)[j]? = some 0 := by
    rw [sub32_of_le hle hint]
    refine ⟨by omega, ?_⟩
    rcases Nat.lt_or_eq_of_le hj' with hlt | rfl
    · rw [List.append_assoc, List.getElem?_append_right hj,
        List.getElem?_append_left (by rw [List.length_replicate]; omega),
        List.getElem?_replicate_of_lt (by omega)]
    · rw [hbehind, h0]
  rw [unpad_zero, hbehind]
  cases hpost : post[0]? with
  | none => simp
  | some b =>
    by_cases hb : b = 0
    · subst hb
      simp only [Option.bind_eq_bind, Option.bind_some, ne_eq, not_true_eq_false, if_false,
        and_true]
      by_cases hplain : plain = []
      · subst hplain
        have hscan := unpad_zero_scan_zeros (a := 0) (Nat.zero_le (([] : List UInt8).length + z))
          fun j _ hj ↦ hzeros hpost j (Nat.zero_le _) hj
        have hfirst := hzeros hpost 0 le_rfl (Nat.zero_le _)
        rw [hscan, unpad_zero_scan, if_pos hfirst.1, hfirst.2]
        simp
      · obtain ⟨a, ha⟩ := Nat.exists_eq_succ_of_ne_zero
          (Nat.pos_iff_ne_zero.mp (List.length_pos_iff.mpr hplain))
        have hscan := unpad_zero_scan_zeros (a := a) (by omega)
          fun j haj hj ↦ hzeros hpost j (by omega) hj
        have hlast : (plain ++ List.replicate z 0 ++ post)[a]? = plain.getLast? := by
          rw [List.append_assoc, List.getElem?_append_left (by omega),
            List.getLast?_eq_getElem?, ha]
          rfl
        have hlast' : plain.getLast? = some (plain.getLast hplain) :=
          List.getLast?_eq_some_getLast hplain
        rw [hlast'] at hzero hlast
        rw [hscan, unpad_zero_scan_stop hlast (fun h ↦ hzero (congrArg some h)),
          ← Nat.succ_eq_add_one, ← ha]
        simp [hplain]
    · simp [hb]

theorem unpad_pkcs7_iff (plain : List UInt8) (z : ℕ) (post : List UInt8) (hz : 0 < z)
    (hz' : z ≤ MAX_BLOCK_SIZE) (hint : plain.length + z < 2 ^ 32) :
    (∃ r, unpad_pkcs7 (plain ++ List.replicate z (UInt8.ofNat z) ++ post) (plain.length + z) =
          some r ∧ 0 ≤ r.ret ∧ r.out_len = plain.length ∧ r.out.take plain.length = plain) ↔
      z ≤ 16 ∧ post ≠ [] := by
  have hlast : (plain ++ List.replicate z (UInt8.ofNat z) ++ post)[
      sub32 (plain.length + z) 1]? = some (UInt8.ofNat z) := by
    rw [sub32_of_le (by omega) hint, List.append_assoc, List.getElem?_append_right (by omega),
      List.getElem?_append_left (by rw [List.length_replicate]; omega),
      List.getElem?_replicate_of_lt (by omega)]
  have hnat : (UInt8.ofNat z).toNat = z := by
    rw [UInt8.toNat_ofNat']
    exact Nat.mod_eq_of_lt (Nat.lt_of_le_of_lt hz' (by decide))
  have hle : z ≤ plain.length + z := Nat.le_add_left _ _
  rw [unpad_pkcs7, hlast, Option.bind_eq_bind, Option.bind_some, hnat]
  by_cases h16 : z ≤ 16
  · rw [if_neg (by omega), unpad_pkcs7_clear, if_pos hle, sub32_of_le hle hint,
      Nat.add_sub_cancel]
    have hoff : plain.length + z + 1 - z = plain.length + 1 := by omega
    rw [hoff]
    constructor
    · rintro ⟨r, hr, -⟩
      obtain ⟨o, hput, -⟩ := Option.bind_eq_some_iff.mp hr
      have hfit := Buffer.put_isSome.mp (hput ▸ Option.isSome_some)
      simp only [List.length_append, List.length_replicate] at hfit
      exact ⟨h16, List.length_pos_iff.mp (by omega)⟩
    · rintro ⟨-, hpost⟩
      have hroom := List.length_pos_iff.mpr hpost
      obtain ⟨o, hput⟩ := Option.isSome_iff_exists.mp (Buffer.put_isSome.mpr
        (show plain.length + 1 + (List.replicate z (0 : UInt8)).length ≤
            (plain ++ List.replicate z (UInt8.ofNat z) ++ post).length by
          simp only [List.length_append, List.length_replicate]
          omega))
      refine ⟨⟨1, o, plain.length⟩, ?_, Int.one_nonneg, rfl, ?_⟩
      · rw [hput]
        rfl
      · have hsame : o.take plain.length =
            (plain ++ List.replicate z (UInt8.ofNat z) ++ post).take plain.length := by
          refine List.ext_getElem? fun q ↦ ?_
          rw [List.getElem?_take, List.getElem?_take]
          split
          · next hq => exact Buffer.getElem?_put hput (.inl (by omega))
          · rfl
        rw [hsame, List.append_assoc, List.take_left]
  · rw [if_pos (by omega)]
    refine iff_of_false ?_ fun h ↦ h16 h.1
    rintro ⟨r, hr, hret, -⟩
    cases hr
    cases hret

theorem Decryptable.reads (h : Decryptable algo L c) {bs : List (List UInt8)}
    (hbs : Blocks algo.block_size bs) (hL : bs.flatten.length = L) :
    bs = [] ∨ algo.mode.Reads algo.iv algo.block_size := by
  have hpos : 0 < algo.block_size := algo.sub_algo.size_pos
  refine h.iv.imp_left fun h0 ↦ List.length_eq_zero_iff.mp ?_
  rw [hbs.length_flatten, h0] at hL
  exact (Nat.mul_eq_zero.mp hL).resolve_right hpos.ne'

theorem tame_iff_unpad : Tame algo L c ↔ Decryptable algo L c ∧
    ∀ out : List UInt8, out.length = c →
      ∃ r, algo.unpad out L = some r ∧ (r.ret < 0 ∨ r.out_len ≤ L) := by
  have hpos : 0 < algo.block_size := algo.sub_algo.size_pos
  constructor
  · intro h
    obtain ⟨r, hr, -⟩ := h (List.replicate L 0) (List.replicate c 0) List.length_replicate
      List.length_replicate
    have hdec := decryptable_of_decrypt hr
    rw [List.length_replicate, List.length_replicate] at hdec
    refine ⟨hdec, fun out hout ↦ ?_⟩
    have htake : (out.take L).length = L := by
      rw [List.length_take, hout, Nat.min_eq_left hdec.fits]
    obtain ⟨bs, hbs, hblocks⟩ := exists_blocks_of_dvd hpos (htake.symm ▸ hdec.whole)
    have hLbs : bs.flatten.length = L := hbs ▸ htake
    have hiv := hdec.reads hblocks hLbs
    -- the ciphertext of the front of `out`
    obtain ⟨cs, hcs, hcslen, hcsiv, hdecs⟩ : ∃ cs : List (List UInt8),
        Blocks algo.block_size cs ∧ cs.flatten.length = L ∧
          (cs = [] ∨ algo.mode.Reads algo.iv algo.block_size) ∧
          algo.sub_algo.decBlocks algo.mode algo.key algo.iv cs = bs := by
      rcases hiv with rfl | hiv
      · exact ⟨[], hblocks, hLbs, .inl rfl, rfl⟩
      · have hcs := blocks_encBlocks (C := algo.sub_algo) (k := algo.key) hiv hblocks
        refine ⟨_, hcs, ?_, .inr hiv, decBlocks_encBlocks hiv hblocks⟩
        rw [← hLbs, hblocks.length_flatten]
        exact hcs.length_flatten.trans (by rw [length_encBlocks]; rfl)
    obtain ⟨r, hr, hgood⟩ := h cs.flatten out hcslen hout
    have hwhole : put out 0 (out.take L) = _ :=
      put_whole (by rw [List.length_take]; exact Nat.min_le_right _ _)
    rw [decrypt_eq out hcs hcsiv, hcslen, if_pos hdec.int, hdecs, ← hbs, hwhole, htake,
      List.take_append_drop] at hr
    exact ⟨r, hr, hgood⟩
  · rintro ⟨hdec, h⟩ inp out hinp hout
    obtain ⟨bs, rfl, hbs⟩ := exists_blocks_of_dvd hpos (hinp.symm ▸ hdec.whole)
    have hiv := hdec.reads hbs hinp
    have hlen : (algo.sub_algo.decBlocks algo.mode algo.key algo.iv bs).flatten.length = L := by
      rcases hiv with rfl | hiv
      · exact hinp
      · rw [← hinp, hbs.length_flatten]
        exact (blocks_decBlocks hiv hbs).length_flatten.trans (by rw [length_decBlocks]; rfl)
    obtain ⟨o, hput⟩ := Option.isSome_iff_exists.mp (Buffer.put_isSome.mpr
      (show 0 + (algo.sub_algo.decBlocks algo.mode algo.key algo.iv bs).flatten.length ≤
        out.length by
        rw [Nat.zero_add, hlen, hout]
        exact hdec.fits))
    obtain ⟨r, hr, hgood⟩ := h o ((Buffer.length_put hput).trans hout)
    refine ⟨r, ?_, hgood⟩
    rw [decrypt_eq out hbs hiv, hinp, if_pos hdec.int, hput]
    exact hr

theorem unpad_zero_tame_iff (hdvd : algo.block_size ∣ L) (hLc : L ≤ c) (hint : L < 2 ^ 32) :
    (∀ out : List UInt8, out.length = c →
        ∃ r, algo.unpad_zero out L = some r ∧ (r.ret < 0 ∨ r.out_len ≤ L)) ↔
      algo.block_size < L ∧ L < c := by
  have hpos : 0 < algo.block_size := algo.sub_algo.size_pos
  constructor
  · intro h
    obtain ⟨r, hr, hgood⟩ := h (List.replicate c 0) List.length_replicate
    obtain ⟨b, hb, hr⟩ := Option.bind_eq_some_iff.mp hr
    have hLc' : L < c := by
      by_contra hge
      rw [List.getElem?_eq_none (by rw [List.length_replicate]; omega)] at hb
      cases hb
    have hzero : ∀ j ≤ L, (List.replicate c (0 : UInt8))[j]? = some 0 := fun j hj ↦
      List.getElem?_replicate_of_lt (Nat.lt_of_le_of_lt hj hLc')
    obtain rfl : b = 0 := Option.some.inj (hb.symm.trans (hzero L le_rfl))
    rw [if_neg (not_not.mpr rfl)] at hr
    obtain ⟨len, hscan, hr⟩ := Option.bind_eq_some_iff.mp hr
    obtain rfl := Option.some.inj hr
    have hlen : len ≤ L := hgood.resolve_left (by decide : ¬((1 : ℤ) < 0))
    refine ⟨?_, hLc'⟩
    by_contra hge
    -- there is no block, or all of one is zero
    rcases Nat.eq_zero_or_pos L with rfl | hLpos
    · rw [unpad_zero_scan] at hscan
      split at hscan
      · rw [hzero 0 le_rfl] at hscan
        cases hscan
      · cases hscan
        omega
    · obtain rfl : L = algo.block_size := le_antisymm (Nat.not_lt.mp hge) (Nat.le_of_dvd hLpos hdvd)
      rw [sub32_of_le le_rfl hint, Nat.sub_self,
        unpad_zero_scan_zeros (Nat.zero_le _) fun j _ hj ↦ ⟨Nat.zero_le _, hzero j hj⟩,
        unpad_zero_scan, if_pos le_rfl, hzero 0 (Nat.zero_le _)] at hscan
      cases hscan
  · rintro ⟨hlow, hLc'⟩ out hout
    have hbyte := List.getElem?_eq_getElem (hout.symm ▸ hLc' : L < out.length)
    rw [unpad_zero, hbyte, Option.bind_eq_bind, Option.bind_some]
    by_cases hb : out[L] = 0
    · obtain ⟨i, rfl⟩ := Nat.exists_eq_succ_of_ne_zero (Nat.pos_iff_ne_zero.mp (hpos.trans hlow))
      obtain ⟨n, hn, hle⟩ := unpad_zero_scan_le (Nat.sub_pos_of_lt hlow)
        (show i < out.length by omega)
      rw [if_neg (not_not.mpr hb), sub32_of_le hlow.le hint,
        unpad_zero_scan_step (by omega) (hb ▸ hbyte), hn]
      exact ⟨_, rfl, .inr hle⟩
    · rw [if_pos hb]
      exact ⟨_, rfl, .inl (show (-1 : ℤ) < 0 by decide)⟩

theorem unpad_pkcs7_tame_iff (hLc : L ≤ c) (hint : L < 2 ^ 31) :
    (∀ out : List UInt8, out.length = c →
        ∃ r, unpad_pkcs7 out L = some r ∧ (r.ret < 0 ∨ r.out_len ≤ L)) ↔ 16 ≤ L ∧ L < c := by
  constructor
  · intro h
    obtain ⟨r, hr, hgood⟩ := h (List.replicate c 16) List.length_replicate
    obtain ⟨b, hb, hr⟩ := Option.bind_eq_some_iff.mp hr
    obtain ⟨-, rfl⟩ := List.mem_replicate.mp (List.mem_of_getElem? hb)
    have h16 : ¬((16 : UInt8).toNat > 16 ∨ (16 : UInt8).toNat ≤ 0) := by decide
    rw [if_neg h16] at hr
    obtain ⟨o, hclear, hr⟩ := Option.bind_eq_some_iff.mp hr
    obtain rfl := Option.some.inj hr
    have hlen : sub32 L 16 ≤ L := hgood.resolve_left (by decide : ¬((1 : ℤ) < 0))
    have hL : 16 ≤ L := by
      unfold sub32 at hlen
      omega
    refine ⟨hL, ?_⟩
    rw [unpad_pkcs7_clear, if_pos (show (16 : UInt8).toNat ≤ L from hL)] at hclear
    have hfit := Buffer.put_isSome.mp (hclear ▸ Option.isSome_some)
    have hnat : (16 : UInt8).toNat = 16 := rfl
    rw [List.length_replicate, List.length_replicate, hnat] at hfit
    omega
  · rintro ⟨hL, hLc'⟩ out hout
    have hbyte := List.getElem?_eq_getElem (show L - 1 < out.length by omega)
    rw [unpad_pkcs7, sub32_of_le (by omega) (by omega), hbyte, Option.bind_eq_bind,
      Option.bind_some]
    split
    · exact ⟨_, rfl, .inl (show (-1 : ℤ) < 0 by decide)⟩
    · next hcount =>
        have hle : (out[L - 1]).toNat ≤ L := by omega
        obtain ⟨o, hput⟩ := Option.isSome_iff_exists.mp (Buffer.put_isSome.mpr
          (show L + 1 - (out[L - 1]).toNat +
              (List.replicate (out[L - 1]).toNat (0 : UInt8)).length ≤ out.length by
            rw [List.length_replicate]
            omega))
        rw [unpad_pkcs7_clear, if_pos hle, hput]
        refine ⟨_, rfl, .inr ?_⟩
        rw [sub32_of_le hle (by omega)]
        exact Nat.sub_le _ _

end Unpad

/-- The texts and the rooms of the two buffers with which a text goes round. -/
def RoundTripWhen (algo : SkcipherAlgo κ) (plain out out' : List UInt8) : Prop :=
  algo.block_size ≤ MAX_BLOCK_SIZE ∧ algo.total plain.length < INT_BOUND ∧
    algo.total plain.length ≤ out.length ∧ algo.total plain.length < out'.length ∧
      match algo.padding with
      | .no => False
      | .zero => plain ≠ [] ∧ out'[algo.total plain.length]? = some 0
      | .pkcs7 => algo.block_size - plain.length % algo.block_size ≤ 16

/-- The lengths of a ciphertext and of a buffer with which it can be decrypted safely. -/
def TameWhen (algo : SkcipherAlgo κ) (L c : ℕ) : Prop :=
  Decryptable algo L c ∧
    match algo.padding with
    | .no => True
    | .zero => algo.block_size < L ∧ L < c
    | .pkcs7 => 16 ≤ L ∧ L < c

theorem roundTrips_iff {plain out out' : List UInt8} (hplain : Admissible algo plain) :
    RoundTrips algo plain out out' ↔ RoundTripWhen algo plain out out' := by
  have hpos : 0 < algo.block_size := algo.sub_algo.size_pos
  by_cases hpad : algo.padding = .no
  · refine iff_of_false ?_ ?_
    · rintro ⟨r, henc, hret, hwritten, -⟩
      obtain ⟨hne, -⟩ | ⟨-, hlen⟩ := encrypt_cases henc hret
      · exact hne hpad
      · omega
    · rintro ⟨-, -, -, -, h⟩
      rw [hpad] at h
      exact h
  · have hmod : plain.length % algo.block_size < algo.block_size := mod_lt_size plain.length
    have htotal := length_padded hpad plain
    rw [List.length_append, fill_length hpad] at htotal
    have hle : algo.block_size ≤ algo.total plain.length := by
      rw [total, Nat.succ_mul]
      exact Nat.le_add_left _ _
    have hbound : INT_BOUND < 2 ^ 32 := by decide
    have hbehind : (out'.drop (algo.total plain.length))[0]? =
        out'[algo.total plain.length]? := by
      rw [List.getElem?_drop, Nat.add_zero]
    have hroom : out'.drop (algo.total plain.length) ≠ [] ↔
        algo.total plain.length < out'.length := by
      rw [ne_eq, List.drop_eq_nil_iff, Nat.not_le]
    rw [roundTrips_iff_unpad hpad, RoundTripWhen]
    generalize hz : algo.block_size - plain.length % algo.block_size = z at htotal ⊢
    cases hp : algo.padding with
    | no => exact absurd hp hpad
    | zero =>
      have hzero : plain.getLast? ≠ some 0 := by
        rw [Admissible, hp] at hplain
        exact hplain
      have hfill : algo.fill (plain.length % algo.block_size) = List.replicate z 0 := by
        rw [fill, hp, hz]
      have hunpad := unpad_zero_iff hzero z (out'.drop (algo.total plain.length))
        (show z ≤ algo.block_size by omega) (by omega)
      rw [htotal, hbehind] at hunpad
      rw [hfill, unpad, hp]
      constructor
      · rintro ⟨⟨hsize, hint, hfit, -⟩, h⟩
        obtain ⟨hne, hbyte⟩ := (hunpad (by omega)).mp h
        exact ⟨hsize, hint, hfit, (List.getElem?_eq_some_iff.mp hbyte).1, hne, hbyte⟩
      · rintro ⟨hsize, hint, hfit, hfit', h⟩
        exact ⟨⟨hsize, hint, hfit, hfit'.le⟩, (hunpad (by omega)).mpr h⟩
    | pkcs7 =>
      have hfill : algo.fill (plain.length % algo.block_size) =
          List.replicate z (UInt8.ofNat z) := by
        rw [fill, hp, hz]
      have hunpad := unpad_pkcs7_iff plain z (out'.drop (algo.total plain.length)) (by omega)
      rw [htotal, hroom] at hunpad
      rw [hfill, unpad, hp]
      constructor
      · rintro ⟨⟨hsize, hint, hfit, -⟩, h⟩
        obtain ⟨h16, hfit'⟩ := (hunpad (by omega) (by omega)).mp h
        exact ⟨hsize, hint, hfit, hfit', h16⟩
      · rintro ⟨hsize, hint, hfit, hfit', h16⟩
        exact ⟨⟨hsize, hint, hfit, hfit'.le⟩,
          (hunpad (by omega) (by omega)).mpr ⟨h16, hfit'⟩⟩

theorem tame_iff {L c : ℕ} : Tame algo L c ↔ TameWhen algo L c := by
  rw [tame_iff_unpad, TameWhen]
  refine and_congr_right fun hdec ↦ ?_
  have hint : L < 2 ^ 31 := hdec.int
  unfold unpad
  cases hp : algo.padding with
  | no => exact iff_of_true (fun out _ ↦ ⟨_, rfl, .inr le_rfl⟩) trivial
  | zero => exact unpad_zero_tame_iff hdec.whole hdec.fits (by omega)
  | pkcs7 => exact unpad_pkcs7_tame_iff hdec.fits hint

/-- A cipher that adds the key to each byte of a block. -/
def byteCipher : BlockCipher UInt8 where
  size := 16
  size_pos := by decide
  encrypt k b := b.map (· ^^^ k)
  decrypt k b := b.map (· ^^^ k)
  length_encrypt _ _ h := (List.length_map _).trans h
  length_decrypt _ _ h := (List.length_map _).trans h
  decrypt_encrypt k b _ := by
    have hxor : ((· ^^^ k) ∘ (· ^^^ k) : UInt8 → UInt8) = id := by
      funext x
      rw [Function.comp_apply, UInt8.xor_assoc, UInt8.xor_self, UInt8.xor_zero, id]
    rw [List.map_map, hxor, List.map_id]

def byteAlgo (mode : Mode) (padding : SkcipherPadding) : SkcipherAlgo UInt8 where
  sub_algo := byteCipher
  key := 90
  mode := mode
  padding := padding
  iv := List.replicate 128 7
  last_block := List.replicate 128 0
  length_iv := by decide +kernel
  length_last_block := by decide +kernel

end Libobject.Crypto.SkcipherAlgo
