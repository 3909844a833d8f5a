import Libobject.Lib.Ruler
import Libobject.Lib.Scan

/-!
# Decimal numbers that are written and read back

`%d` writes the digits of a number, and `atoi` and `%d` read them again, up to what follows that is
not a digit.
-/

namespace Libobject.Scan

def digit (n : ℕ) : UInt8 := UInt8.ofNat (Nat.digitChar n).toNat

theorem toNat_digit {n : ℕ} (h : n < 10) : (digit n).toNat = 48 + n := by
  rw [digit, Nat.toNat_digitChar_of_lt_ten h]
  simp only [UInt8.toNat_ofNat']
  omega

theorem isDigit_digit {n : ℕ} (h : n < 10) : isDigit (digit n) = true := by
  have hn := toNat_digit h
  simp only [isDigit, Bool.and_eq_true, decide_eq_true_eq, UInt8.le_iff_toNat_le, hn]
  constructor
  · exact Nat.le_add_right 48 n
  · change 48 + n ≤ 57
    omega

theorem showNat_eq (n : ℕ) :
    showNat n = if n < 10 then [digit n] else showNat (n / 10) ++ [digit (n % 10)] := by
  rw [showNat, Nat.toDigits_eq_if (by decide)]
  split
  · rfl
  · rw [List.map_append]
    rfl

theorem showNat_ne_nil (n : ℕ) : showNat n ≠ [] := by
  rw [showNat_eq]
  split <;> simp

theorem isDigit_showNat (n : ℕ) : ∀ c ∈ showNat n, isDigit c = true := by
  induction n using Nat.strongRecOn with
  | ind n ih =>
    intro c hc
    rw [showNat_eq] at hc
    split at hc
    · next hlt =>
        obtain rfl := List.mem_singleton.mp hc
        exact isDigit_digit hlt
    · next hge =>
        rcases List.mem_append.mp hc with hc | hc
        · exact ih (n / 10) (by omega) c hc
        · obtain rfl := List.mem_singleton.mp hc
          exact isDigit_digit (Nat.mod_lt n (by decide))

theorem decimal_append (ds : Text) (c : UInt8) :
    decimal (ds ++ [c]) = 10 * decimal ds + (c.toNat - 48) := by
  simp [decimal]

theorem decimal_digit {n : ℕ} (h : n < 10) (ds : Text) :
    decimal (ds ++ [digit n]) = 10 * decimal ds + n := by
  rw [decimal_append, toNat_digit h]
  omega

theorem decimal_showNat (n : ℕ) : decimal (showNat n) = n := by
  induction n using Nat.strongRecOn with
  | ind n ih =>
    rw [showNat_eq]
    split
    · next hlt => simpa [decimal] using decimal_digit hlt []
    · next hge =>
        rw [decimal_digit (Nat.mod_lt n (by decide)), ih (n / 10) (by omega)]
        omega

theorem showNat_inj {m n : ℕ} (h : showNat m = showNat n) : m = n := by
  rw [← decimal_showNat m, h, decimal_showNat]

theorem length_showNat_le {n k : ℕ} (hk : 0 < k) (h : n < 10 ^ k) : (showNat n).length ≤ k := by
  rw [showNat, List.length_map]
  exact (Nat.length_toDigits_le_iff (by decide) hk).mpr h

/-- The text does not go on with a digit. -/
def Stops (rest : Text) : Prop := ∀ c ∈ rest.head?, isDigit c = false

theorem stops_nil : Stops [] := by simp [Stops]

theorem stops_cons {c : UInt8} (h : isDigit c = false) (rest : Text) : Stops (c :: rest) := by
  intro d hd
  obtain rfl : c = d := by simpa using hd
  exact h

theorem takeWhile_digits {ds rest : Text} (hds : ∀ c ∈ ds, isDigit c = true) (hrest : Stops rest) :
    (ds ++ rest).takeWhile isDigit = ds ∧ (ds ++ rest).dropWhile isDigit = rest := by
  induction ds with
  | nil =>
    cases rest with
    | nil => exact ⟨rfl, rfl⟩
    | cons c rest =>
      have hc := hrest c rfl
      exact ⟨by simp [hc], by simp [hc]⟩
  | cons c ds ih =>
    have hc := hds c List.mem_cons_self
    obtain ⟨htake, hdrop⟩ := ih fun d hd ↦ hds d (List.mem_cons_of_mem c hd)
    exact ⟨by simp [hc, htake], by simp [hc, hdrop]⟩

theorem isDigit_eq_true {c : UInt8} (h : isDigit c = true) :
    isSpace c = false ∧ c ≠ 45 ∧ c ≠ 43 := by
  simp only [isDigit, Bool.and_eq_true, decide_eq_true_eq, UInt8.le_iff_toNat_le] at h
  have hlo : 48 ≤ c.toNat := h.1
  have hne : ∀ d : UInt8, d.toNat < 48 → c ≠ d := by
    rintro d hd rfl
    omega
  refine ⟨?_, hne 45 (by decide), hne 43 (by decide)⟩
  simp only [isSpace, Bool.or_eq_false_iff, Bool.and_eq_false_iff, decide_eq_false_iff_not,
    UInt8.le_iff_toNat_le]
  refine ⟨hne 32 (by decide), Or.inr ?_⟩
  change ¬ c.toNat ≤ 13
  omega

theorem scanSign_digits {ds rest : Text} (hne : ds ≠ []) (hds : ∀ c ∈ ds, isDigit c = true) :
    scanSign (skipSpace (ds ++ rest)) = (false, ds ++ rest) := by
  cases ds with
  | nil => exact (hne rfl).elim
  | cons c ds =>
    obtain ⟨hspace, hminus, hplus⟩ := isDigit_eq_true (hds c List.mem_cons_self)
    have hskip : skipSpace (c :: ds ++ rest) = c :: ds ++ rest := by
      simp [skipSpace, hspace]
    rw [hskip, List.cons_append, scanSign]
    · intro s heq
      exact hminus (List.cons.inj heq).1
    · intro s heq
      exact hplus (List.cons.inj heq).1

theorem scanUnsigned_showNat {n : ℕ} (h : n < 2 ^ 32) {rest : Text} (hrest : Stops rest) :
    scanUnsigned (showNat n ++ rest) = some (BitVec.ofNat 32 n, rest) := by
  obtain ⟨htake, hdrop⟩ := takeWhile_digits (isDigit_showNat n) hrest
  have hsmall : ¬ 2 ^ 64 ≤ n := by omega
  rw [scanUnsigned, scanSign_digits (showNat_ne_nil n) (isDigit_showNat n)]
  dsimp only
  rw [htake, hdrop, if_neg (showNat_ne_nil n), decimal_showNat, if_neg hsmall,
    if_neg Bool.false_ne_true]

theorem atoi_showNat_append {n : ℕ} (h : n < 2 ^ 31) {rest : Text} (hrest : Stops rest) :
    atoi (showNat n ++ rest) = n := by
  obtain ⟨htake, -⟩ := takeWhile_digits (isDigit_showNat n) hrest
  have hmin : min (n : ℤ) (2 ^ 63 - 1) = n := min_eq_left (by omega)
  rw [atoi, scanSign_digits (showNat_ne_nil n) (isDigit_showNat n)]
  simp only [htake, decimal_showNat, hmin, Bool.false_eq_true, if_false]
  exact BitVec.toInt_ofInt_eq_self (by decide) (by omega) (by omega)

theorem atoi_showNat {n : ℕ} (h : n < 2 ^ 31) : atoi (showNat n) = n := by
  have happ := atoi_showNat_append h stops_nil
  rwa [List.append_nil] at happ

/-! ## Fields of a fixed width -/

/-- `%0wd`: the last `w` digits. -/
def padded : ℕ → ℕ → Text
  | 0, _ => []
  | w + 1, n => padded w (n / 10) ++ [digit (n % 10)]

@[simp] theorem length_padded (w n : ℕ) : (padded w n).length = w := by
  induction w generalizing n with
  | zero => rfl
  | succ w ih => simp [padded, ih]

theorem isDigit_padded (w n : ℕ) : ∀ c ∈ padded w n, isDigit c = true := by
  induction w generalizing n with
  | zero => simp [padded]
  | succ w ih =>
    intro c hc
    rcases List.mem_append.mp hc with hc | hc
    · exact ih (n / 10) c hc
    · obtain rfl := List.mem_singleton.mp hc
      exact isDigit_digit (Nat.mod_lt n (by decide))

theorem strcmp_append {s s' : Text} (h : s.length = s'.length) (t t' : Text) :
    strcmp (s ++ t) (s' ++ t') = (strcmp s s').then (strcmp t t') := by
  induction s generalizing s' with
  | nil =>
    obtain rfl := List.length_eq_zero_iff.mp h.symm
    rfl
  | cons c s ih =>
    cases s' with
    | nil => cases h
    | cons d s' =>
      have hrest := ih (Nat.succ.inj h)
      have hcons (x y : Text) : strcmp (c :: x) (d :: y) = (compare c d).then (strcmp x y) :=
        List.compareLex_cons_cons
      rw [List.cons_append, List.cons_append, hcons, hcons, hrest, Ordering.then_assoc]

theorem strcmp_digit {m n : ℕ} (hm : m < 10) (hn : n < 10) :
    strcmp [digit m] [digit n] = compare m n := by
  have key : ∀ m n : Fin 10, strcmp [digit m] [digit n] = compare (m : ℕ) n := by decide
  exact key ⟨m, hm⟩ ⟨n, hn⟩

theorem strcmp_padded {w m n : ℕ} (hm : m < 10 ^ w) (hn : n < 10 ^ w) :
    strcmp (padded w m) (padded w n) = compare m n := by
  induction w generalizing m n with
  | zero =>
    obtain rfl : m = 0 := Nat.lt_one_iff.mp hm
    obtain rfl : n = 0 := Nat.lt_one_iff.mp hn
    rfl
  | succ w ih =>
    rw [Nat.pow_succ] at hm hn
    have hlast := @compare_digit 10 (m / 10) (n / 10) _ _ (Nat.mod_lt m (by decide))
      (Nat.mod_lt n (by decide))
    rw [Nat.div_add_mod', Nat.div_add_mod'] at hlast
    rw [padded, padded, strcmp_append (by simp), ih (by omega) (by omega),
      strcmp_digit (Nat.mod_lt m (by decide)) (Nat.mod_lt n (by decide)), hlast]

theorem padded_add (k j n : ℕ) : padded (k + j) n = padded k (n / 10 ^ j) ++ padded j n := by
  induction j generalizing n with
  | zero => simp [padded]
  | succ j ih =>
    rw [← Nat.add_assoc, padded, ih, padded, List.append_assoc, Nat.div_div_eq_div_mul,
      ← Nat.pow_succ']

theorem showNat_eq_padded {w n : ℕ} (hlo : w = 0 ∨ 10 ^ w ≤ n) (hhi : n < 10 ^ (w + 1)) :
    showNat n = padded (w + 1) n := by
  induction w generalizing n with
  | zero =>
    have hlt : n < 10 := hhi
    rw [showNat_eq, if_pos hlt, padded, padded, Nat.mod_eq_of_lt hlt]
    rfl
  | succ w ih =>
    have hle := hlo.resolve_left (Nat.succ_ne_zero w)
    have hone := Nat.one_le_pow w 10 (by decide)
    rw [Nat.pow_succ] at hle hhi
    rw [showNat_eq, if_neg (by omega), padded, ih (by omega) (by omega)]

end Libobject.Scan
