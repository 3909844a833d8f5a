import Libobject.Lib.Buffer

/-!
# Block ciphers and their modes

A block cipher turns a block under a key into a block of the same size. In the electronic codebook
mode each block is encrypted by itself; in the chaining mode it is masked first with the
block that was encrypted before it.
-/

namespace Libobject

structure BlockCipher (κ : Type*) where
  size : ℕ
  size_pos : 0 < size
  encrypt : κ → List UInt8 → List UInt8
  decrypt : κ → List UInt8 → List UInt8
  length_encrypt : ∀ k b, b.length = size → (encrypt k b).length = size
  length_decrypt : ∀ k b, b.length = size → (decrypt k b).length = size
  decrypt_encrypt : ∀ k b, b.length = size → decrypt k (encrypt k b) = b

namespace BlockCipher

def xorBytes (a b : List UInt8) : List UInt8 := List.zipWith (· ^^^ ·) a b

theorem length_xorBytes {a b : List UInt8} (h : a.length ≤ b.length) :
    (xorBytes a b).length = a.length := by
  rw [xorBytes, List.length_zipWith, Nat.min_eq_left h]

theorem xorBytes_cancel {a b : List UInt8} (h : a.length ≤ b.length) :
    xorBytes (xorBytes a b) b = a := by
  induction a generalizing b with
  | nil => rfl
  | cons x a ih =>
    cases b with
    | nil => cases h
    | cons y b =>
      have hxy : x ^^^ y ^^^ y = x := by
        rw [UInt8.xor_assoc, UInt8.xor_self, UInt8.xor_zero]
      have hab := ih (Nat.le_of_succ_le_succ h)
      simp only [xorBytes, List.zipWith_cons_cons] at hab ⊢
      rw [hxy, hab]

inductive Mode
  | ecb
  | cbc
  deriving DecidableEq

namespace Mode

/-- What a block is combined with before it is encrypted, and after it is decrypted. -/
def mask : Mode → List UInt8 → List UInt8 → List UInt8
  | .ecb, _, b => b
  | .cbc, iv, b => xorBytes b iv

/-- The mask of a block of `n` bytes is there, if the mode has one. -/
def Reads (m : Mode) (iv : List UInt8) (n : ℕ) : Prop := m = .cbc → n ≤ iv.length

instance decidableReads (m : Mode) (iv : List UInt8) (n : ℕ) : Decidable (m.Reads iv n) :=
  inferInstanceAs (Decidable (m = .cbc → n ≤ iv.length))

theorem reads_length (m : Mode) {iv : List UInt8} {n : ℕ} (h : iv.length = n) : m.Reads iv n :=
  fun _ ↦ h.ge

theorem length_mask {m : Mode} {iv b : List UInt8} (h : m.Reads iv b.length) :
    (m.mask iv b).length = b.length := by
  cases m with
  | ecb => rfl
  | cbc => exact length_xorBytes (h rfl)

theorem mask_mask {m : Mode} {iv b : List UInt8} (h : m.Reads iv b.length) :
    m.mask iv (m.mask iv b) = b := by
  cases m with
  | ecb => rfl
  | cbc => exact xorBytes_cancel (h rfl)

end Mode

section Blocks

/-- A list of blocks of one size. -/
def Blocks (n : ℕ) (bs : List (List UInt8)) : Prop := ∀ b ∈ bs, b.length = n

variable {n : ℕ} {b : List UInt8} {bs : List (List UInt8)}

theorem blocks_cons : Blocks n (b :: bs) ↔ b.length = n ∧ Blocks n bs :=
  List.forall_mem_cons

theorem Blocks.snoc (hbs : Blocks n bs) (hb : b.length = n) : Blocks n (bs ++ [b]) := by
  intro c hc
  rcases List.mem_append.mp hc with hc | hc
  · exact hbs c hc
  · rwa [List.mem_singleton.mp hc]

theorem Blocks.length_flatten (h : Blocks n bs) : bs.flatten.length = bs.length * n := by
  induction bs with
  | nil => simp
  | cons b bs ih =>
    obtain ⟨hb, hbs⟩ := blocks_cons.mp h
    rw [List.flatten_cons, List.length_append, ih hbs, hb, List.length_cons, Nat.succ_mul,
      Nat.add_comm]

theorem exists_blocks (hn : 0 < n) (l : List UInt8) :
    ∃ bs tail, l = bs.flatten ++ tail ∧ Blocks n bs ∧ tail.length < n := by
  induction hlen : l.length using Nat.strong_induction_on generalizing l with
  | h m ih =>
    by_cases hm : m < n
    · exact ⟨[], l, rfl, List.forall_mem_nil _, hlen ▸ hm⟩
    · have htake : (l.take n).length = n := by
        rw [List.length_take]
        omega
      obtain ⟨bs, tail, hl, hbs, htail⟩ :=
        ih (l.drop n).length (by rw [List.length_drop]; omega) (l.drop n) rfl
      refine ⟨l.take n :: bs, tail, ?_, blocks_cons.mpr ⟨htake, hbs⟩, htail⟩
      rw [List.flatten_cons, List.append_assoc, ← hl, List.take_append_drop]

theorem exists_blocks_of_dvd (hn : 0 < n) {l : List UInt8} (h : n ∣ l.length) :
    ∃ bs, l = bs.flatten ∧ Blocks n bs := by
  obtain ⟨bs, tail, rfl, hbs, htail⟩ := exists_blocks hn l
  have hdvd : n ∣ tail.length := by
    rw [List.length_append, hbs.length_flatten] at h
    exact (Nat.dvd_add_right (Nat.dvd_mul_left n bs.length)).mp h
  have hnil : tail = [] := List.length_eq_zero_iff.mp (Nat.eq_zero_of_dvd_of_lt hdvd htail)
  exact ⟨bs, by rw [hnil, List.append_nil], hbs⟩

end Blocks

variable {κ : Type*} (C : BlockCipher κ) (m : Mode) (k : κ)

def encBlocks : List UInt8 → List (List UInt8) → List (List UInt8)
  | _, [] => []
  | iv, b :: bs => C.encrypt k (m.mask iv b) :: encBlocks (C.encrypt k (m.mask iv b)) bs

def decBlocks : List UInt8 → List (List UInt8) → List (List UInt8)
  | _, [] => []
  | iv, c :: cs => m.mask iv (C.decrypt k c) :: decBlocks c cs

/-- What the block behind `cs` is masked with. -/
def nextIv (iv : List UInt8) (cs : List (List UInt8)) : List UInt8 := (cs.getLast?).getD iv

variable {C m k}

theorem length_encrypt_mask {iv b : List UInt8} (hiv : m.Reads iv C.size)
    (hb : b.length = C.size) : (C.encrypt k (m.mask iv b)).length = C.size := by
  apply C.length_encrypt
  rw [Mode.length_mask (hb.symm ▸ hiv), hb]

theorem length_mask_decrypt {iv c : List UInt8} (hiv : m.Reads iv C.size)
    (hc : c.length = C.size) : (m.mask iv (C.decrypt k c)).length = C.size := by
  have hdec := C.length_decrypt k c hc
  rw [Mode.length_mask (hdec.symm ▸ hiv), hdec]

theorem blocks_encBlocks {iv : List UInt8} {bs : List (List UInt8)} (hiv : m.Reads iv C.size)
    (hbs : Blocks C.size bs) : Blocks C.size (C.encBlocks m k iv bs) := by
  induction bs generalizing iv with
  | nil => exact List.forall_mem_nil _
  | cons b bs ih =>
    obtain ⟨hb, hbs⟩ := blocks_cons.mp hbs
    have hc := length_encrypt_mask (k := k) hiv hb
    exact blocks_cons.mpr ⟨hc, ih (m.reads_length hc) hbs⟩

theorem length_encBlocks (iv : List UInt8) (bs : List (List UInt8)) :
    (C.encBlocks m k iv bs).length = bs.length := by
  induction bs generalizing iv with
  | nil => rfl
  | cons b bs ih => exact congrArg (· + 1) (ih _)

theorem blocks_decBlocks {iv : List UInt8} {cs : List (List UInt8)} (hiv : m.Reads iv C.size)
    (hcs : Blocks C.size cs) : Blocks C.size (C.decBlocks m k iv cs) := by
  induction cs generalizing iv with
  | nil => exact List.forall_mem_nil _
  | cons c cs ih =>
    obtain ⟨hc, hcs⟩ := blocks_cons.mp hcs
    exact blocks_cons.mpr ⟨length_mask_decrypt hiv hc, ih (m.reads_length hc) hcs⟩

theorem length_decBlocks (iv : List UInt8) (cs : List (List UInt8)) :
    (C.decBlocks m k iv cs).length = cs.length := by
  induction cs generalizing iv with
  | nil => rfl
  | cons c cs ih => exact congrArg (· + 1) (ih _)

theorem decBlocks_encBlocks {iv : List UInt8} {bs : List (List UInt8)}
    (hiv : m.Reads iv C.size) (hbs : Blocks C.size bs) :
    C.decBlocks m k iv (C.encBlocks m k iv bs) = bs := by
  induction bs generalizing iv with
  | nil => rfl
  | cons b bs ih =>
    obtain ⟨hb, hbs⟩ := blocks_cons.mp hbs
    have hread : m.Reads iv b.length := hb.symm ▸ hiv
    have hmask : (m.mask iv b).length = C.size := (Mode.length_mask hread).trans hb
    have hnext := m.reads_length (length_encrypt_mask (k := k) hiv hb)
    rw [encBlocks, decBlocks, ih hnext hbs, C.decrypt_encrypt k _ hmask, Mode.mask_mask hread]

theorem nextIv_cons (iv c : List UInt8) (cs : List (List UInt8)) :
    nextIv iv (c :: cs) = nextIv c cs := by
  cases cs with
  | nil => rfl
  | cons d cs => rfl

theorem encBlocks_snoc (iv b : List UInt8) (bs : List (List UInt8)) :
    C.encBlocks m k iv (bs ++ [b]) = C.encBlocks m k iv bs ++
      [C.encrypt k (m.mask (nextIv iv (C.encBlocks m k iv bs)) b)] := by
  induction bs generalizing iv with
  | nil => rfl
  | cons a bs ih => rw [List.cons_append, encBlocks, ih, encBlocks, nextIv_cons, List.cons_append]

theorem reads_nextIv {iv : List UInt8} {cs : List (List UInt8)} (hiv : m.Reads iv C.size)
    (hcs : Blocks C.size cs) : m.Reads (nextIv iv cs) C.size := by
  induction cs generalizing iv with
  | nil => exact hiv
  | cons c cs ih =>
    obtain ⟨hc, hcs⟩ := blocks_cons.mp hcs
    rw [nextIv_cons]
    exact ih (m.reads_length hc) hcs

end BlockCipher

end Libobject
