import Libobject.BigNumber.Div

/-!
# What the division leaves

The value of the quotient, times the divisor, and what is left of the dividend do not add up to
more than the dividend, and to less once a digit has been set twice. So the result is right only if
every digit is found at once.
-/

namespace Libobject.BigNumber

section Runs

variable {behind : ℕ → UInt8} {tmp_len : ℕ} {divisor : List UInt8} {n v : ℕ}

/-- The place of the digit that comes next. -/
def place (n v : ℕ) (d : Number) : ℕ :=
  d.size - (n + 1) - if v ≤ d.value / 256 ^ (d.size - (n + 1)) then 0 else 1

/-- Nothing is set below the digit that comes next. -/
structure Below (n v : ℕ) (s : Division) : Prop where
  room : s.dividend.size ≤ s.dividend.buf.length
  zero : leNat (s.quotient.take (place n v s.dividend)) = 0

theorem subtractDigit_negative {s s' : Division} {g : ℕ} {i : ℤ} (hi : i < 0) :
    subtractDigit behind tmp_len divisor s g i ≠ some (.next s') := by
  intro h
  obtain ⟨trial, -, hrest⟩ := Option.bind_eq_some_iff.mp h
  rcases trial with _ | _ | m
  · simp at hrest
  · simp at hrest
  · simp [hi] at hrest

theorem subtractDigit_done {s s' : Division} {g : ℕ} {i ret : ℤ}
    (h : subtractDigit behind tmp_len divisor s g i = some (.done ret s')) :
    ret = -1 ∨ (ret = 1 ∧ s' = s ∧
      lowerMultiple behind tmp_len divisor s.dividend g = some .leave) := by
  obtain ⟨trial, htrial, hrest⟩ := Option.bind_eq_some_iff.mp h
  rcases trial with _ | _ | m
  · simp only [Option.pure_def, Option.some.injEq, Turn.done.injEq] at hrest
    exact Or.inr ⟨hrest.1.symm, hrest.2.symm, htrial⟩
  · simp only [Option.pure_def, Option.some.injEq, Turn.done.injEq] at hrest
    exact Or.inl hrest.1.symm
  · left
    by_cases hi : i < 0
    · simp [hi] at hrest
    · simp only [if_neg hi, Option.bind_eq_bind, Option.pure_def, Option.bind_eq_some_iff] at hrest
      obtain ⟨quotient, -, ⟨ret', tmp, size⟩, -, hrest⟩ := hrest
      split at hrest
      · simp only [Option.some.injEq, Turn.done.injEq] at hrest
        exact hrest.1.symm
      · simp only [Option.bind_eq_some_iff] at hrest
        obtain ⟨tmp_size, -, ⟨ret', rest, flag⟩, -, hrest⟩ := hrest
        split at hrest
        · simp only [Option.some.injEq, Turn.done.injEq] at hrest
          exact hrest.1.symm
        · simp at hrest

theorem turn_place {d : Number} {quotient : List UInt8} {i : ℕ} (hlen : divisor.length = n + 1)
    (hroom : d.size ≤ d.buf.length)
    (hwindow : (d.size = n + 1 + i ∧ leNat divisor ≤ d.value / 256 ^ i) ∨
      (d.size = n + 2 + i ∧ ¬ leNat divisor ≤ d.value / 256 ^ (i + 1))) :
    turn behind tmp_len divisor ⟨d, quotient⟩ = subtractDigit behind tmp_len divisor ⟨d, quotient⟩
      (guess n (d.value / 256 ^ i) (leNat divisor)) i := by
  rw [turn_eq behind tmp_len hlen hroom (by omega)]
  obtain ⟨hsize, hw⟩ | ⟨hsize, hw⟩ := hwindow
  · have hexp : d.size - (n + 1) = i := by omega
    rw [hexp, if_pos hw]
  · have hexp : d.size - (n + 1) = i + 1 := by omega
    have hexp' : d.size - 2 = i + n := by omega
    have hcast : ((i + 1 : ℕ) : ℤ) - 1 = i := by omega
    rw [hexp, if_neg hw, if_pos (by omega), hcast, hexp', guess, Nat.pow_add,
      ← Nat.div_div_eq_div_mul d.value]

theorem turn_next {s s' : Division} (hlen : divisor.length = n + 1) (hv : 256 ^ n ≤ leNat divisor)
    (htl : tmp_len < 256) (hs : Below n (leNat divisor) s)
    (h : turn behind tmp_len divisor s = some (.next s')) :
    ∃ l m, Stepped n (leNat divisor) tmp_len s s' l (place n (leNat divisor) s.dividend) m := by
  obtain ⟨d, quotient⟩ := s
  obtain ⟨hroom, hzero⟩ := hs
  simp only at hroom hzero ⊢
  by_cases hsize : n + 1 ≤ d.size
  · by_cases hw : leNat divisor ≤ d.value / 256 ^ (d.size - (n + 1))
    · have hplace : place n (leNat divisor) d = d.size - (n + 1) := by
        rw [place, if_pos hw, Nat.sub_zero]
      rw [hplace] at hzero ⊢
      rw [turn_place hlen hroom (Or.inl ⟨by omega, hw⟩)] at h
      obtain ⟨m, hm⟩ := stepped_of_window hlen hv hroom htl hzero (by omega) hw h
      exact ⟨n, m, hm⟩
    · by_cases hlong : n + 2 ≤ d.size
      · have hplace : place n (leNat divisor) d = d.size - (n + 2) := by
          rw [place, if_neg hw]
          omega
        have hexp : d.size - (n + 1) = d.size - (n + 2) + 1 := by omega
        rw [hexp] at hw
        rw [hplace] at hzero ⊢
        rw [turn_place hlen hroom (Or.inr ⟨by omega, hw⟩)] at h
        have hw' : d.value / 256 ^ (d.size - (n + 2)) < leNat divisor * 256 := by
          rw [Nat.pow_succ, ← Nat.div_div_eq_div_mul] at hw
          omega
        obtain ⟨m, hm⟩ := stepped_of_long_window hlen hv hroom htl hzero (by omega) hw' h
        exact ⟨n + 1, m, hm⟩
      · -- a remainder as long as the divisor has no further place
        rw [turn_eq behind tmp_len hlen hroom hsize, if_neg hw] at h
        split at h
        · exact absurd h (subtractDigit_negative (by omega))
        · simp at h
  · rw [turn, hlen, if_pos (Nat.lt_of_not_le hsize)] at h
    simp at h

section Potential

variable {s s' : Division} {l i m tl : ℕ}

theorem Stepped.rest_le (hv' : v < 256 ^ (n + 1)) (h : Stepped n v tl s s' l i m) :
    s'.dividend.value + v * (m % 256 * 256 ^ i) ≤ s.dividend.value ∧
      s'.dividend.size ≤ s.dividend.size := by
  have hpos : 0 < 256 ^ i := Nat.pow_pos (by decide)
  have hlt : s.dividend.value < 256 ^ s.dividend.size := leNat_take_lt _ _
  have hless (x : ℕ) : byteLength (s.dividend.value - x) ≤ s.dividend.size := by
    rw [byteLength_le_iff]
    exact (Nat.sub_le _ _).trans_lt hlt
  obtain ⟨hzero, hbuf, hsize⟩ | ⟨-, hm, -, -, hin, -, hvalue, hsize⟩ |
    ⟨rfl, -, -, -, htop, hvalue, hsize⟩ := h.rest
  · refine ⟨?_, hsize⟩
    rw [hzero, Nat.zero_mul, Nat.mul_zero, Nat.add_zero, Number.value, hbuf, Number.value]
    exact leNat_take_mono _ hsize
  · refine ⟨?_, hsize ▸ hless _⟩
    have hall : v * m * 256 ^ i ≤ s.dividend.value :=
      (Nat.mul_le_mul_right _ hin).trans (Nat.div_mul_le_self _ _)
    rw [Nat.mod_eq_of_lt hm, hvalue, ← Nat.mul_assoc]
    exact (Nat.sub_add_cancel hall).le
  · refine ⟨?_, hsize ▸ hless _⟩
    have hone : 257 % 256 * 256 ^ i = 256 ^ i := Nat.one_mul _
    have hwhole : 65535 * 256 ^ n ≤ s.dividend.value / 256 ^ i := htop ▸ top_mul_le n _
    have hle : v ≤ s.dividend.value / 256 ^ i := by
      rw [Nat.pow_succ] at hv'
      omega
    have hall : v * 256 ^ i ≤ s.dividend.value :=
      (Nat.mul_le_mul_right _ hle).trans (Nat.div_mul_le_self _ _)
    rw [hone, hvalue]
    exact (Nat.sub_add_cancel hall).le

theorem place_le {d d' : Number} (hsize : d'.size ≤ d.size) (hvalue : d'.value ≤ d.value) :
    place n v d' ≤ place n v d := by
  obtain heq | hlt := Nat.eq_or_lt_of_le hsize
  · rw [place, place, heq]
    by_cases hw : v ≤ d'.value / 256 ^ (d.size - (n + 1))
    · have hw' : v ≤ d.value / 256 ^ (d.size - (n + 1)) := hw.trans (Nat.div_le_div_right hvalue)
      rw [if_pos hw, if_pos hw']
    · rw [if_neg hw]
      split <;> omega
  · unfold place
    split <;> split <;> omega

theorem Stepped.below (hv' : v < 256 ^ (n + 1)) (hs : Below n v s)
    (h : Stepped n v tl s s' l (place n v s.dividend) m) : Below n v s' := by
  obtain ⟨hvalue, hsize⟩ := h.rest_le hv'
  have hplace : place n v s'.dividend ≤ place n v s.dividend :=
    place_le hsize ((Nat.le_add_right _ _).trans hvalue)
  refine ⟨h.room, Nat.le_zero.mp ?_⟩
  rw [h.quotient, List.take_set_of_le hplace, ← hs.zero]
  exact leNat_take_mono _ hplace

/-- What the quotient and the rest of the dividend stand for. -/
def worth (v : ℕ) (s : Division) : ℕ := leNat s.quotient * v + s.dividend.value

theorem Stepped.worth_le (hv' : v < 256 ^ (n + 1)) (h : Stepped n v tl s s' l i m) {b : UInt8}
    (hb : s.quotient[i]? = some b) : worth v s' + 256 ^ i * b.toNat * v ≤ worth v s := by
  have hset := leNat_set (UInt8.ofNat m) h.inside
  have hdigit : (UInt8.ofNat m).toNat = m % 256 := UInt8.toNat_ofNat'
  have hrest := (h.rest_le hv').1
  rw [List.getElem?_eq_getElem h.inside, Option.some.injEq] at hb
  rw [← h.quotient, hb, hdigit] at hset
  calc worth v s' + 256 ^ i * b.toNat * v
      = (leNat s'.quotient + 256 ^ i * b.toNat) * v + s'.dividend.value := by
        rw [worth]
        ring
    _ = leNat s.quotient * v + (s'.dividend.value + v * (m % 256 * 256 ^ i)) := by
        rw [hset]
        ring
    _ ≤ worth v s := Nat.add_le_add_left hrest _

end Potential

theorem turn_done {s s' : Division} {ret : ℤ}
    (h : turn behind tmp_len divisor s = some (.done ret s')) : ret = -1 ∨ (ret = 1 ∧ s' = s) := by
  rw [turn] at h
  split at h
  · simp only [Option.some.injEq, Turn.done.injEq] at h
    exact Or.inr ⟨h.1.symm, h.2.symm⟩
  · simp only [Option.bind_eq_bind, Option.bind_eq_some_iff] at h
    obtain ⟨compare_result, -, high, -, top, -, hrest⟩ := h
    split at hrest
    · exact (subtractDigit_done hrest).imp_right fun hleave ↦ ⟨hleave.1, hleave.2.1⟩
    · split at hrest
      · obtain ⟨second, -, hlast⟩ := Option.bind_eq_some_iff.mp hrest
        exact (subtractDigit_done hlast).imp_right fun hleave ↦ ⟨hleave.1, hleave.2.1⟩
      · simp only [Option.pure_def, Option.some.injEq, Turn.done.injEq] at hrest
        exact Or.inr ⟨hrest.1.symm, hrest.2.symm⟩

theorem turn_unchanged {s s' : Division} (h : turn behind tmp_len divisor s = some (.done 1 s')) :
    s' = s := by
  obtain hret | ⟨-, heq⟩ := turn_done h
  · exact absurd hret (by decide)
  · exact heq

theorem divLoop_worth {s s' : Division} {fuel : ℕ} (hlen : divisor.length = n + 1)
    (hv : 256 ^ n ≤ leNat divisor) (htl : tmp_len < 256) (hs : Below n (leNat divisor) s)
    (h : divLoop behind tmp_len divisor fuel s = some (1, s')) :
    worth (leNat divisor) s' ≤ worth (leNat divisor) s ∧
      (worth (leNat divisor) s' = worth (leNat divisor) s →
        ∀ (j : ℕ) (b : UInt8), s.quotient[j]? = some b → b ≠ 0 → s'.quotient[j]? = some b) := by
  have hv' : leNat divisor < 256 ^ (n + 1) := hlen ▸ leNat_lt divisor
  induction fuel generalizing s with
  | zero => simp [divLoop] at h
  | succ fuel ih =>
    obtain ⟨r, hturn, hrest⟩ := Option.bind_eq_some_iff.mp h
    cases r with
    | done ret t =>
      simp only [Option.pure_def, Option.some.injEq, Prod.mk.injEq] at hrest
      obtain ⟨rfl, rfl⟩ := hrest
      obtain rfl := turn_unchanged hturn
      exact ⟨le_rfl, fun _ j b hj _ ↦ hj⟩
    | next t =>
      obtain ⟨l, m, hstep⟩ := turn_next hlen hv htl hs hturn
      obtain ⟨hle, hkept⟩ := ih (hstep.below hv' hs) hrest
      have hworth := hstep.worth_le hv' (List.getElem?_eq_getElem hstep.inside)
      refine ⟨hle.trans ((Nat.le_add_right _ _).trans hworth), ?_⟩
      intro heq j b hj hb
      apply hkept (by omega) j b ?_ hb
      have hj' : j ≠ place n (leNat divisor) s.dividend := by
        rintro rfl
        have hdigit : 0 < b.toNat := UInt8.pos_iff_ne_zero.mpr hb
        have hpos : 0 < 256 ^ place n (leNat divisor) s.dividend := Nat.pow_pos (by decide)
        have hlost := Nat.mul_pos (Nat.mul_pos hpos hdigit)
          ((Nat.pow_pos (by decide)).trans_le hv)
        have hworth := hstep.worth_le hv' hj
        omega
      rw [hstep.quotient, List.getElem?_set_ne hj'.symm]
      exact hj

/-- The digits of the quotient of `r` are found, each at its place, and it is found that the
remainder is one. -/
def Found (n v tl r : ℕ) : Prop :=
  (∀ j, r / (v * 256 ^ j) % 256 ≠ 0 →
    n + 2 + j ≤ tl ∧ Guessable n v tl (r % (v * 256 ^ (j + 1)) / 256 ^ j)) ∧
  (byteLength (r % v) ≤ n ∨ n = 0 ∨ Leaves n v tl (r % v))

section Digits

variable {tl r i : ℕ}

theorem found_step (hv : 0 < v) (hle : v * 256 ^ i ≤ r) (hlt : r < v * 256 ^ (i + 1)) :
    Found n v tl r ↔ (n + 2 + i ≤ tl ∧ Guessable n v tl (r / 256 ^ i)) ∧
      Found n v tl (r % (v * 256 ^ i)) := by
  have hpos : 0 < v * 256 ^ i := Nat.mul_pos hv (Nat.pow_pos (by decide))
  have hdigit : r / (v * 256 ^ i) % 256 ≠ 0 := by
    have hone : 1 ≤ r / (v * 256 ^ i) := (Nat.one_le_div_iff hpos).mpr hle
    have hbyte : r / (v * 256 ^ i) < 256 := by
      rw [Nat.div_lt_iff_lt_mul hpos, Nat.mul_comm, Nat.mul_assoc, ← Nat.pow_succ]
      exact hlt
    omega
  have hrest : r % (v * 256 ^ i) % v = r % v := Nat.mod_mod_of_dvd r (Nat.dvd_mul_right _ _)
  have hwindow : r % (v * 256 ^ (i + 1)) = r := Nat.mod_eq_of_lt hlt
  have habove (j : ℕ) (hj : i < j) : r / (v * 256 ^ j) = 0 := by
    apply Nat.div_eq_of_lt (hlt.trans_le _)
    exact Nat.mul_le_mul_left v (Nat.pow_le_pow_right (by decide) hj)
  have habove' (j : ℕ) (hj : i ≤ j) : r % (v * 256 ^ i) / (v * 256 ^ j) = 0 := by
    apply Nat.div_eq_of_lt ((Nat.mod_lt r hpos).trans_le _)
    exact Nat.mul_le_mul_left v (Nat.pow_le_pow_right (by decide) hj)
  have hbelow (j : ℕ) (hj : j < i) :
      r % (v * 256 ^ i) / (v * 256 ^ j) % 256 = r / (v * 256 ^ j) % 256 ∧
        r % (v * 256 ^ i) % (v * 256 ^ (j + 1)) = r % (v * 256 ^ (j + 1)) := by
    have hdvd : v * 256 ^ (j + 1) ∣ v * 256 ^ i := Nat.mul_dvd_mul_left v (Nat.pow_dvd_pow 256 hj)
    refine ⟨?_, Nat.mod_mod_of_dvd r hdvd⟩
    have hpow : v * 256 ^ (j + 1) = v * 256 ^ j * 256 := by rw [Nat.pow_succ, Nat.mul_assoc]
    have hmod (x : ℕ) : x / (v * 256 ^ j) % 256 = x % (v * 256 ^ (j + 1)) / (v * 256 ^ j) := by
      rw [hpow, Nat.mod_mul_right_div_self]
    rw [hmod, hmod, Nat.mod_mod_of_dvd r hdvd]
  rw [Found, Found, hrest]
  constructor
  · rintro ⟨hall, hlast⟩
    refine ⟨hwindow ▸ hall i hdigit, ?_, hlast⟩
    intro j hj
    obtain hji | hij := Nat.lt_or_ge j i
    · obtain ⟨hsame, hsame'⟩ := hbelow j hji
      rw [hsame']
      exact hall j (hsame ▸ hj)
    · rw [habove' j hij] at hj
      exact absurd rfl hj
  · rintro ⟨htop, hall, hlast⟩
    refine ⟨?_, hlast⟩
    intro j hj
    obtain hji | rfl | hij := Nat.lt_trichotomy j i
    · obtain ⟨hsame, hsame'⟩ := hbelow j hji
      rw [← hsame']
      exact hall j (hsame.symm ▸ hj)
    · rwa [hwindow]
    · rw [habove j hij] at hj
      exact absurd rfl hj

theorem found_of_lt (hr : r < v) :
    Found n v tl r ↔ byteLength r ≤ n ∨ n = 0 ∨ Leaves n v tl r := by
  rw [Found, Nat.mod_eq_of_lt hr]
  apply and_iff_right
  intro j hj
  have hzero : r / (v * 256 ^ j) = 0 :=
    Nat.div_eq_of_lt (hr.trans_le (Nat.le_mul_of_pos_right v (Nat.pow_pos (by decide))))
  rw [hzero] at hj
  exact absurd rfl hj

end Digits

/-- Where the quotient of what is left is still to be set, below the place `k`. -/
structure Rest (n v N k : ℕ) (s : Division) : Prop where
  room : s.dividend.size ≤ s.dividend.buf.length
  normal : s.dividend.size = byteLength s.dividend.value
  inside : s.dividend.size ≤ s.quotient.length
  whole : worth v s = N
  zero : leNat (s.quotient.take k) = 0
  less : s.dividend.value < v * 256 ^ k

section Rest

variable {N k l m tl : ℕ} {s s' : Division}

/-- The place of a number that is not smaller than the divisor is that of its quotient's top digit,
and the window there is as long as the divisor or a byte longer. -/
theorem place_spec {d : Number} (hv : 256 ^ n ≤ v) (hv' : v < 256 ^ (n + 1))
    (hsize : d.size = byteLength d.value) (hle : v ≤ d.value) :
    v * 256 ^ place n v d ≤ d.value ∧ d.value < v * 256 ^ (place n v d + 1) ∧
      ((d.size = n + 1 + place n v d ∧ v ≤ d.value / 256 ^ place n v d) ∨
        (d.size = n + 2 + place n v d ∧ ¬ v ≤ d.value / 256 ^ (place n v d + 1))) := by
  have hlong : n < d.size := hsize ▸ lt_byteLength_iff.mpr (hv.trans hle)
  have hhigh : d.value < 256 ^ d.size := hsize ▸ lt_pow_byteLength d.value
  have hlow : 256 ^ (d.size - 1) ≤ d.value := lt_byteLength_iff.mp (by omega)
  by_cases hw : v ≤ d.value / 256 ^ (d.size - (n + 1))
  · have hplace : place n v d = d.size - (n + 1) := by rw [place, if_pos hw, Nat.sub_zero]
    have hexp : d.size = n + (d.size - (n + 1) + 1) := by omega
    rw [hplace]
    refine ⟨(Nat.le_div_iff_mul_le (Nat.pow_pos (by decide))).mp hw, ?_, Or.inl ⟨by omega, hw⟩⟩
    apply hhigh.trans_le
    rw [hexp, Nat.pow_add]
    apply Nat.mul_le_mul hv
    exact Nat.pow_le_pow_right (by decide) (by omega)
  · have hplace : place n v d = d.size - (n + 1) - 1 := by rw [place, if_neg hw]
    have hmore : n + 1 < d.size := by
      by_contra hless
      obtain hexact : d.size - (n + 1) = 0 := by omega
      rw [hexact, Nat.pow_zero, Nat.div_one] at hw
      exact hw hle
    have hexp : d.size - (n + 1) = place n v d + 1 := by omega
    have hexp' : d.size - 1 = n + 1 + place n v d := by omega
    rw [hexp'] at hlow
    refine ⟨?_, ?_, Or.inr ⟨by omega, hexp ▸ hw⟩⟩
    · apply le_trans _ hlow
      rw [Nat.pow_add]
      exact Nat.mul_le_mul_right _ hv'.le
    · rw [← hexp]
      rw [Nat.le_div_iff_mul_le (Nat.pow_pos (by decide))] at hw
      exact Nat.lt_of_not_le hw

theorem Rest.place_lt (hv : 256 ^ n ≤ v) (hv' : v < 256 ^ (n + 1)) (hs : Rest n v N k s)
    (hle : v ≤ s.dividend.value) : place n v s.dividend < k := by
  have hlow := (place_spec hv hv' hs.normal hle).1.trans_lt hs.less
  have hpow := Nat.lt_of_mul_lt_mul_left hlow
  exact (Nat.pow_lt_pow_iff_right (by decide)).mp hpow

theorem Rest.below (hv : 256 ^ n ≤ v) (hv' : v < 256 ^ (n + 1)) (hs : Rest n v N k s) :
    Below n v s := by
  refine ⟨hs.room, ?_⟩
  by_cases hle : v ≤ s.dividend.value
  · apply Nat.le_zero.mp
    rw [← hs.zero]
    exact leNat_take_mono _ (hs.place_lt hv hv' hle).le
  · have hsize : s.dividend.size ≤ n + 1 := by
      rw [hs.normal, byteLength_le_iff]
      omega
    have hplace : place n v s.dividend = 0 := by
      rw [place]
      omega
    rw [hplace, List.take_zero, leNat_nil]

theorem Rest.digit {i : ℕ} (hs : Rest n v N k s) (hi : i < k) (hi' : i < s.quotient.length) :
    s.quotient[i]? = some 0 := by
  have hsum := leNat_take_succ hi'
  have hzero := (leNat_take_mono s.quotient (show i + 1 ≤ k from hi)).trans hs.zero.le
  have hpos : 0 < 256 ^ i := Nat.pow_pos (by decide)
  have hbyte : (s.quotient.get ⟨i, hi'⟩).toNat = 0 := by
    have hproduct : 256 ^ i * (s.quotient.get ⟨i, hi'⟩).toNat = 0 := by
      simp only [List.get_eq_getElem]
      omega
    exact (Nat.mul_eq_zero.mp hproduct).resolve_left hpos.ne'
  rw [List.getElem?_eq_getElem hi', Option.some.injEq]
  exact UInt8.toNat_inj.mp hbyte

theorem Rest.taken {i : ℕ} (hv : 256 ^ n ≤ v) (hs : Rest n v N k s) (hi : i < k)
    (hi' : i < s.quotient.length) (hm : m < 256) (hdigit : s.dividend.value / 256 ^ i / v = m)
    (hquotient : s'.quotient = s.quotient.set i (UInt8.ofNat m))
    (hroom : s'.dividend.size ≤ s'.dividend.buf.length)
    (hvalue : s'.dividend.value = s.dividend.value - v * (m * 256 ^ i))
    (hsize : s'.dividend.size = byteLength (s.dividend.value - v * (m * 256 ^ i))) :
    Rest n v N i s' ∧ s'.dividend.value = s.dividend.value % (v * 256 ^ i) := by
  have hpos : 0 < v * 256 ^ i :=
    Nat.mul_pos ((Nat.pow_pos (by decide)).trans_le hv) (Nat.pow_pos (by decide))
  have hmod : s'.dividend.value = s.dividend.value % (v * 256 ^ i) := by
    rw [hvalue, ← hdigit, Nat.div_div_eq_div_mul, Nat.mul_comm (256 ^ i) v, Nat.mod_eq_sub,
      ← Nat.mul_assoc, Nat.mul_right_comm]
  have hnormal : s'.dividend.size = byteLength s'.dividend.value := by rw [hsize, hvalue]
  have hset := leNat_set (UInt8.ofNat m) hi'
  have hold := hs.digit hi hi'
  have hbyte : (UInt8.ofNat m).toNat = m := by rw [UInt8.toNat_ofNat', Nat.mod_eq_of_lt hm]
  rw [List.getElem?_eq_getElem hi', Option.some.injEq] at hold
  rw [← hquotient, hold, hbyte] at hset
  refine ⟨⟨hroom, hnormal, ?_, ?_, ?_, hmod ▸ Nat.mod_lt _ hpos⟩, hmod⟩
  · rw [hquotient, List.length_set, hnormal]
    apply le_trans _ hs.inside
    rw [hs.normal, byteLength_le_iff]
    apply (lt_pow_byteLength s.dividend.value).trans_le'
    rw [hmod]
    exact Nat.mod_le _ _
  · have hall : v * (m * 256 ^ i) ≤ s.dividend.value := by
      rw [← hdigit, ← Nat.mul_assoc]
      exact (Nat.mul_le_mul_right _ (Nat.mul_div_le _ _)).trans (Nat.div_mul_le_self _ _)
    calc worth v s' = (leNat s.quotient + 256 ^ i * m) * v +
      (s.dividend.value - v * (m * 256 ^ i)) := by
          rw [worth, hvalue, ← hset]
          simp
      _ = leNat s.quotient * v + (s.dividend.value - v * (m * 256 ^ i) + v * (m * 256 ^ i)) := by
          ring
      _ = N := by
          rw [Nat.sub_add_cancel hall, ← hs.whole, worth]
  · rw [hquotient, List.take_set_of_le (le_refl i)]
    apply Nat.le_zero.mp
    rw [← hs.zero]
    exact leNat_take_mono _ hi.le

end Rest

theorem lowerMultiple_leave {d : Number} (hlen : divisor.length = n + 1)
    (hv : 256 ^ n ≤ leNat divisor) (htl : n + 2 ≤ tmp_len) (hroom : d.size ≤ d.buf.length)
    (hsize : d.size = n + 1) (hr : d.value < leNat divisor) :
    lowerMultiple behind tmp_len divisor d (guess n (256 * d.value) (leNat divisor)) =
      some .leave ↔ Leaves n (leNat divisor) tmp_len d.value := by
  have hv' : leNat divisor < 256 ^ (n + 1) := hlen ▸ leNat_lt divisor
  have hguess : guess n (256 * d.value) (leNat divisor) < 2 ^ 32 := by
    apply (Nat.div_le_self _ _).trans_lt
    apply (Nat.div_lt_iff_lt_mul (Nat.pow_pos (by decide))).mpr
    rw [Nat.pow_succ] at hv'
    omega
  obtain ⟨m, hm, habove, hcases⟩ := @lowerMultiple_cases behind tmp_len
    divisor _ _ hguess hroom
  rw [hsize] at habove hcases
  constructor
  · intro hleave
    obtain ⟨-, hzero⟩ | ⟨-, -, hdigit⟩ | ⟨-, hlong, -⟩ := hcases
    · simp [hleave] at hzero
    · simp [hleave] at hdigit
    · exact leaves_of_long hv hv' hr htl hm habove hlong
  · intro hleaves
    obtain ⟨m', hm', hlong, habove'⟩ := long_of_leaves hv hv' hr htl hleaves
    have hfew : byteLength (product (leNat divisor) tmp_len 0) = 0 := by
      rw [product, Nat.mul_zero, Nat.zero_mod, byteLength_zero]
    have hle : m' ≤ m := by
      by_contra hlt
      have hshort := (habove m' (Nat.lt_of_not_le hlt) hm').1
      omega
    have hexceeds (hlt : m' < m) := habove' m hlt hm
    obtain ⟨rfl, -⟩ | ⟨-, hfits, -⟩ | ⟨-, -, hleave⟩ := hcases
    · obtain rfl : m' = 0 := Nat.le_zero.mp hle
      omega
    · obtain rfl | hlt := Nat.eq_or_lt_of_le hle
      · exact absurd hfits.1 (Nat.not_le.mpr hlong)
      · exact absurd hfits.2 (Nat.not_le.mpr (hexceeds hlt).2)
    · exact hleave

section Last

variable {N k : ℕ} {s s' : Division}

theorem turn_last (hlen : divisor.length = n + 1) (hv : 256 ^ n ≤ leNat divisor)
    (htl : n + 2 ≤ tmp_len) (hs : Rest n (leNat divisor) N k s)
    (hr : s.dividend.value < leNat divisor) :
    turn behind tmp_len divisor s = some (.done 1 s) ↔
      Found n (leNat divisor) tmp_len s.dividend.value := by
  obtain ⟨d, quotient⟩ := s
  obtain ⟨hroom, hnormal, -, -, -, -⟩ := hs
  simp only at hroom hnormal hr ⊢
  rw [found_of_lt hr, ← hnormal]
  obtain hshort | hlong := Nat.lt_or_ge d.size (n + 1)
  · have hdone : turn behind tmp_len divisor ⟨d, quotient⟩ = some (.done 1 ⟨d, quotient⟩) := by
      rw [turn, hlen, if_pos hshort]
    exact iff_of_true hdone (Or.inl (Nat.le_of_lt_succ hshort))
  · have hv' : leNat divisor < 256 ^ (n + 1) := hlen ▸ leNat_lt divisor
    have hsize : d.size = n + 1 := by
      apply le_antisymm _ hlong
      rw [hnormal, byteLength_le_iff]
      exact hr.trans hv'
    rw [turn_eq behind tmp_len hlen hroom hlong, hsize, Nat.sub_self, Nat.pow_zero, Nat.div_one,
      if_neg (Nat.not_le.mpr hr)]
    obtain rfl | hn := Nat.eq_zero_or_pos n
    · rw [if_neg (by decide)]
      exact iff_of_true rfl (Or.inr (Or.inl rfl))
    · have hguess : d.value / 256 ^ (n + 1 - 2) / (leNat divisor / 256 ^ n) =
          guess n (256 * d.value) (leNat divisor) := by
        obtain ⟨j, rfl⟩ := Nat.exists_eq_succ_of_ne_zero hn.ne'
        have hexp : j.succ + 1 - 2 = j := rfl
        rw [guess, hexp, Nat.pow_succ', Nat.mul_div_mul_left _ _ (by decide)]
      have hleave := @lowerMultiple_leave behind _ _ _ _ hlen hv htl hroom hsize hr
      rw [if_pos (by omega), hguess, ← hleave]
      constructor
      · intro h
        obtain hret | ⟨-, -, hleave⟩ := subtractDigit_done h
        · exact absurd hret (by decide)
        · exact Or.inr (Or.inr hleave)
      · rintro (hshort | rfl | h)
        · omega
        · omega
        · rw [subtractDigit, h]
          rfl

end Last

section Next

variable {N k l m tl : ℕ} {s s' : Division}

theorem Rest.unchanged (hs : Rest n v N k s) {i : ℕ} (hi : i < k) (hi' : i < s.quotient.length)
    (hm : m % 256 = 0) (hquotient : s'.quotient = s.quotient.set i (UInt8.ofNat m))
    (hbuf : s'.dividend.buf = s.dividend.buf) (hsize : s'.dividend.size ≤ s.dividend.size) :
    s' = s ∨ worth v s' < N := by
  have hbyte : UInt8.ofNat m = 0 := by
    apply UInt8.toNat_inj.mp
    rw [UInt8.toNat_ofNat', hm]
    rfl
  have hold := hs.digit hi hi'
  have hsame : s'.quotient = s.quotient := by
    rw [hquotient, hbyte]
    rw [List.getElem?_eq_getElem hi', Option.some.injEq] at hold
    rw [← hold]
    exact List.set_getElem_self hi'
  have hle : s'.dividend.value ≤ s.dividend.value := by
    rw [Number.value, hbuf]
    exact leNat_take_mono _ hsize
  obtain heq | hlt := Nat.eq_or_lt_of_le hle
  · left
    have hback : s.dividend.size ≤ s'.dividend.size := by
      rw [hs.normal, ← heq, byteLength_le_iff]
      exact leNat_take_lt _ _
    have hsize' : s'.dividend.size = s.dividend.size := le_antisymm hsize hback
    obtain ⟨⟨buf, size⟩, quotient⟩ := s
    obtain ⟨⟨buf', size'⟩, quotient'⟩ := s'
    simp only at hsame hbuf hsize'
    rw [hsame, hbuf, hsize']
  · right
    rw [← hs.whole, worth, worth, hsame]
    exact Nat.add_lt_add_left hlt _

theorem Rest.next (hv : 256 ^ n ≤ v) (hv' : v < 256 ^ (n + 1)) (hs : Rest n v N k s)
    (h : Stepped n v tl s s' l (place n v s.dividend) m) :
    v ≤ s.dividend.value ∧
      ((Rest n v N (place n v s.dividend) s' ∧
          s'.dividend.value = s.dividend.value % (v * 256 ^ place n v s.dividend) ∧
          n + 2 + place n v s.dividend ≤ tl ∧
          Guessable n v tl (s.dividend.value / 256 ^ place n v s.dividend)) ∨
        s' = s ∨ worth v s' < N ∨
        (worth v s' = N ∧ s'.quotient[place n v s.dividend]? = some 1 ∧
          s.dividend.value / 256 ^ place n v s.dividend / v = 255)) := by
  have hle : v ≤ s.dividend.value := by
    obtain ⟨-, hw⟩ | ⟨rfl, -⟩ := h.window
    · exact hw.trans (Nat.div_le_self _ _)
    · have hlong : 256 ^ (n + 1) ≤ s.dividend.value := by
        apply lt_byteLength_iff.mp
        rw [← hs.normal, h.size]
        omega
      exact hv'.le.trans hlong
  obtain ⟨-, hhigh, -⟩ := place_spec hv hv' hs.normal hle
  have hi := hs.place_lt hv hv' hle
  refine ⟨hle, ?_⟩
  generalize place n v s.dividend = i at h hhigh hi ⊢
  have hi' := h.inside
  have hpos : 0 < 256 ^ i := Nat.pow_pos (by decide)
  have hw : s.dividend.value / 256 ^ i < v * 256 := by
    rw [Nat.div_lt_iff_lt_mul hpos, Nat.mul_assoc, ← Nat.pow_succ']
    exact hhigh
  have hl : l = n ∨ l = n + 1 := h.window.imp And.left And.left
  obtain ⟨hm, hbuf, hsize⟩ | ⟨-, hm, htl, hlow, hin, hnext, hvalue, hsize⟩ |
    ⟨rfl, -, -, -, htop, hvalue, hsize⟩ := h.rest
  · obtain heq | hlt := hs.unchanged hi hi' hm h.quotient hbuf hsize
    · exact Or.inr (Or.inl heq)
    · exact Or.inr (Or.inr (Or.inl hlt))
  · left
    have hr : s.dividend.value / 256 ^ i < 256 ^ (l + 1) := by
      rw [Nat.div_lt_iff_lt_mul hpos, ← Nat.pow_add, ← h.size]
      exact leNat_take_lt _ _
    have hdigit : s.dividend.value / 256 ^ i / v = m := Nat.div_eq_of_lt_le
      (Nat.mul_comm v m ▸ hin) (Nat.mul_comm v (m + 1) ▸ hnext)
    obtain ⟨hs', hmod⟩ := hs.taken hv hi hi' hm hdigit h.quotient h.room hvalue hsize
    exact ⟨hs', hmod, by omega, guessable_of_found hv hv' hl hr hw hlow hin hnext h.above htl⟩
  · right
    right
    right
    have hwhole : 65535 * 256 ^ n ≤ s.dividend.value / 256 ^ i := htop ▸ top_mul_le n _
    have hpow : 256 ^ (n + 1) = 256 * 256 ^ n := Nat.pow_succ'
    have hmany : 255 * v ≤ s.dividend.value / 256 ^ i := by omega
    have hone : UInt8.ofNat 257 = 1 := by decide
    have hset := leNat_set (UInt8.ofNat 257) hi'
    have hold := hs.digit hi hi'
    rw [List.getElem?_eq_getElem hi', Option.some.injEq] at hold
    rw [← h.quotient, hold, hone] at hset
    have hall : v * 256 ^ i ≤ s.dividend.value := by
      have hfits : v ≤ s.dividend.value / 256 ^ i := by omega
      exact (Nat.mul_le_mul_right _ hfits).trans (Nat.div_mul_le_self _ _)
    refine ⟨?_, ?_, Nat.div_eq_of_lt_le hmany (by omega)⟩
    · calc worth v s' = (leNat s.quotient + 256 ^ i) * v + (s.dividend.value - v * 256 ^ i) := by
            rw [worth, hvalue]
            have hplus : leNat s'.quotient = leNat s.quotient + 256 ^ i := by simpa using hset
            rw [hplus]
        _ = leNat s.quotient * v + (s.dividend.value - v * 256 ^ i + v * 256 ^ i) := by ring
        _ = N := by rw [Nat.sub_add_cancel hall, ← hs.whole, worth]
    · rw [h.quotient, hone, List.getElem?_set_self hi']

end Next

theorem Rest.missed {N k i : ℕ} {s s' : Division} (hv : 0 < v) (hs : Rest n v N k s)
    (hi : i < k) (hi' : i < s.quotient.length) (hdigit : s.dividend.value / 256 ^ i / v = 255)
    (hone : s'.quotient[i]? = some 1) (hwhole : worth v s' = N)
    (hless : s'.dividend.value < v) : False := by
  have hpos : 0 < 256 ^ i := Nat.pow_pos (by decide)
  obtain ⟨hi'', hbyte⟩ := List.getElem?_eq_some_iff.mp hone
  have hfound := toNat_getElem_eq_mod hi''
  have hquotient : leNat s'.quotient = N / v := by
    rw [← hwhole, worth, Nat.mul_comm, Nat.mul_add_div hv, Nat.div_eq_of_lt hless, Nat.add_zero]
  have hsplit := leNat_take_add_drop s.quotient (show i + 1 ≤ s.quotient.length from hi')
  have hlow : leNat (s.quotient.take (i + 1)) = 0 :=
    Nat.le_zero.mp ((leNat_take_mono _ (show i + 1 ≤ k from hi)).trans hs.zero.le)
  rw [hlow, Nat.zero_add] at hsplit
  have hall : N / v = 256 ^ i * (256 * leNat (s.quotient.drop (i + 1))) + s.dividend.value / v := by
    rw [← hs.whole, worth, ← hsplit, Nat.mul_comm _ v, Nat.mul_add_div hv, Nat.pow_succ,
      Nat.mul_assoc]
  rw [hbyte, hquotient, hall, Nat.mul_add_div hpos, Nat.div_div_eq_div_mul, Nat.mul_comm v,
    ← Nat.div_div_eq_div_mul, hdigit, Nat.mul_add_mod] at hfound
  exact absurd hfound (by decide)

theorem found_of_divLoop {N k fuel : ℕ} {s s' : Division} (hlen : divisor.length = n + 1)
    (hv : 256 ^ n ≤ leNat divisor) (htl : tmp_len < 256) (hs : Rest n (leNat divisor) N k s)
    (hone : leNat divisor ≤ s.dividend.value ∨ n + 2 ≤ tmp_len)
    (h : divLoop behind tmp_len divisor fuel s = some (1, s'))
    (hwhole : worth (leNat divisor) s' = N) (hless : s'.dividend.value < leNat divisor) :
    Found n (leNat divisor) tmp_len s.dividend.value := by
  have hv' : leNat divisor < 256 ^ (n + 1) := hlen ▸ leNat_lt divisor
  have hpos : 0 < leNat divisor := (Nat.pow_pos (by decide)).trans_le hv
  induction fuel generalizing s k with
  | zero => simp [divLoop] at h
  | succ fuel ih =>
    obtain ⟨r, hturn, hrest⟩ := Option.bind_eq_some_iff.mp h
    cases r with
    | done ret t =>
      simp only [Option.pure_def, Option.some.injEq, Prod.mk.injEq] at hrest
      obtain ⟨rfl, rfl⟩ := hrest
      obtain rfl := turn_unchanged hturn
      have hroom : n + 2 ≤ tmp_len := hone.resolve_left (Nat.not_le.mpr hless)
      exact (@turn_last behind _ _ _ _ _ _ hlen hv hroom hs hless).mp hturn
    | next t =>
      have hbelow := hs.below hv hv'
      obtain ⟨l, m, hstep⟩ := turn_next hlen hv htl hbelow hturn
      obtain ⟨hle, hcases⟩ := hs.next hv hv' hstep
      obtain ⟨hlow, hhigh, -⟩ := place_spec hv hv' hs.normal hle
      obtain ⟨ht, hvalue, hroom, hguess⟩ | rfl | hlost | ⟨hkept, hdigit, hmissed⟩ := hcases
      · apply (found_step hpos hlow hhigh).mpr
        refine ⟨⟨hroom, hguess⟩, ?_⟩
        rw [← hvalue]
        exact ih ht (Or.inr (by omega)) hrest
      · exact ih hs hone hrest
      · have hbound := (divLoop_worth hlen hv htl (hstep.below hv' hbelow) hrest).1
        omega
      · exfalso
        have hset := (divLoop_worth hlen hv htl (hstep.below hv' hbelow) hrest).2
          (hwhole.trans hkept.symm) _ 1 hdigit (by decide)
        exact hs.missed hpos (hs.place_lt hv hv' hle) hstep.inside hmissed hset hwhole hless

section Found

variable {N k l i : ℕ}

theorem lowerMultiple_found {d : Number} (hv : 256 ^ n ≤ leNat divisor)
    (hv' : leNat divisor < 256 ^ (n + 1)) (hroom : d.size ≤ d.buf.length)
    (hl : l = n ∨ l = n + 1) (hsize : d.size = l + 1 + i)
    (hw : d.value / 256 ^ i < leNat divisor * 256) (hle : leNat divisor ≤ d.value / 256 ^ i)
    (hlong : byteLength (d.value / 256 ^ i) = l + 1) (htl : n + 2 + i ≤ tmp_len)
    (hguess : Guessable n (leNat divisor) tmp_len (d.value / 256 ^ i)) :
    lowerMultiple behind tmp_len divisor d (guess n (d.value / 256 ^ i) (leNat divisor)) =
      some (.digit (d.value / 256 ^ i / leNat divisor)) := by
  have hpos : 0 < leNat divisor := (Nat.pow_pos (by decide)).trans_le hv
  have hsmall : guess n (d.value / 256 ^ i) (leNat divisor) < 2 ^ 32 := by
    apply (Nat.div_le_self _ _).trans_lt
    apply (Nat.div_lt_iff_lt_mul (Nat.pow_pos (by decide))).mpr
    rw [Nat.pow_succ] at hv'
    omega
  obtain ⟨hdigit, hguess⟩ := hguess
  rw [hlong] at hdigit hguess
  have hlow : 256 ^ l ≤ leNat divisor * (d.value / 256 ^ i / leNat divisor) :=
    lt_byteLength_iff.mp (by omega)
  have hhigh : d.value / 256 ^ i < 256 ^ (l + 1) := hlong ▸ lt_pow_byteLength _
  obtain ⟨hfits, hexceeds⟩ := digit_fits hv hv' hw hlow hhigh (by omega)
    (hguess.imp (fun h ↦ byteLength_le_iff.mp h.le) (fun h ↦ ⟨h.1, by omega, h.2.2⟩))
  have hone : 1 ≤ d.value / 256 ^ i / leNat divisor := (Nat.one_le_div_iff hpos).mpr hle
  obtain ⟨m, hm, habove, hcases⟩ := @lowerMultiple_cases behind tmp_len
    divisor _ _ hsmall hroom
  rw [hsize] at habove hcases
  have hge : d.value / 256 ^ i / leNat divisor ≤ m := by
    by_contra hlt
    have hover := habove _ (Nat.lt_of_not_le hlt) (div_le_guess hv)
    exact absurd hfits.2 (Nat.not_le.mpr hover.2)
  have hover (hlt : d.value / 256 ^ i / leNat divisor < m) := hexceeds m hlt hm
  obtain ⟨rfl, -⟩ | ⟨-, hfits', hcode⟩ | ⟨-, hleave, -⟩ := hcases
  · omega
  · obtain heq | hlt := Nat.eq_or_lt_of_le hge
    · rw [hcode, heq]
    · exact absurd hfits'.2 (Nat.not_le.mpr (hover hlt).2)
  · obtain rfl | hlt := Nat.eq_or_lt_of_le hge
    · exact absurd hfits.1 (Nat.not_le.mpr hleave)
    · exact absurd (hover hlt).1 (Nat.not_le.mpr hleave)

theorem turn_found {s : Division} (hlen : divisor.length = n + 1) (hv : 256 ^ n ≤ leNat divisor)
    (htl : tmp_len < 256) (hs : Rest n (leNat divisor) N k s)
    (hle : leNat divisor ≤ s.dividend.value) (hi : place n (leNat divisor) s.dividend = i)
    (hroom : n + 2 + i ≤ tmp_len)
    (hguess : Guessable n (leNat divisor) tmp_len (s.dividend.value / 256 ^ i)) :
    ∃ s', turn behind tmp_len divisor s = some (.next s') ∧ Rest n (leNat divisor) N i s' ∧
      s'.dividend.value = s.dividend.value % (leNat divisor * 256 ^ i) := by
  have hv' : leNat divisor < 256 ^ (n + 1) := hlen ▸ leNat_lt divisor
  have hpos : 0 < 256 ^ i := Nat.pow_pos (by decide)
  obtain ⟨hlow, hhigh, hwindow⟩ := place_spec hv hv' hs.normal hle
  have hik := hs.place_lt hv hv' hle
  rw [hi] at hlow hhigh hwindow hik
  have hturn := @turn_place behind tmp_len _ _ _ s.quotient _ hlen hs.room hwindow
  obtain ⟨l, hl, hsize⟩ : ∃ l, (l = n ∨ l = n + 1) ∧ s.dividend.size = l + 1 + i := by
    obtain ⟨hsize, -⟩ | ⟨hsize, -⟩ := hwindow
    · exact ⟨n, Or.inl rfl, hsize⟩
    · exact ⟨n + 1, Or.inr rfl, hsize⟩
  have hinside : i < s.quotient.length := by
    have hinside := hs.inside
    omega
  have hw : s.dividend.value / 256 ^ i < leNat divisor * 256 := by
    rw [Nat.div_lt_iff_lt_mul hpos, Nat.mul_assoc, ← Nat.pow_succ']
    exact hhigh
  have hle' : leNat divisor ≤ s.dividend.value / 256 ^ i := (Nat.le_div_iff_mul_le hpos).mpr hlow
  have hlong : byteLength (s.dividend.value / 256 ^ i) = l + 1 := by
    have hnormal := hs.normal
    apply byteLength_eq_succ
    · rw [Nat.le_div_iff_mul_le hpos, ← Nat.pow_add]
      exact lt_byteLength_iff.mp (by omega)
    · rw [Nat.div_lt_iff_lt_mul hpos, ← Nat.pow_add]
      exact byteLength_le_iff.mp (by omega)
  have hfound := @lowerMultiple_found behind _ _ _ _ _ _ hv hv' hs.room hl hsize hw hle' hlong hroom
    hguess
  have hone : 1 ≤ s.dividend.value / 256 ^ i / leNat divisor :=
    (Nat.one_le_div_iff ((Nat.pow_pos (by decide)).trans_le hv)).mpr hle'
  have hbyte : s.dividend.value / 256 ^ i / leNat divisor < 256 :=
    (Nat.div_lt_iff_lt_mul ((Nat.pow_pos (by decide)).trans_le hv)).mpr (Nat.mul_comm _ 256 ▸ hw)
  have hzero : leNat (s.quotient.take i) = 0 :=
    Nat.le_zero.mp ((leNat_take_mono _ hik.le).trans hs.zero.le)
  obtain ⟨d, quotient⟩ := s
  simp only at hturn hsize hinside hfound hone hbyte hzero hlong hle' hw hguess ⊢
  generalize hq : d.value / 256 ^ i / leNat divisor = q at hfound hone hbyte hguess
  have hmod : q % 256 = q := Nat.mod_eq_of_lt hbyte
  have hdigit : byteLength (q * 256 ^ i) = i + 1 := by
    rw [byteLength_mul_pow (b := 0) (by omega) (by omega)]
    omega
  obtain ⟨sub, hvalue, hsub, hcode⟩ := (subtractDigit_taken behind tmp_len
    (byteLength_eq_succ hv hv') hfound hone hinside hzero).2 (by rw [hmod, hdigit]; omega)
  rw [hmod] at hvalue hsub
  have hproduct : byteLength (leNat divisor * q) = l + 1 := by
    rw [← hlong, ← hguess.1, hq]
  have hlength : sub.length = d.size := by
    rw [hsub, ← Nat.mul_assoc, byteLength_mul_pow (b := l)
      (lt_byteLength_iff.mp (by omega)) (hproduct ▸ lt_pow_byteLength _), hsize]
  have hall : leNat divisor * (q * 256 ^ i) ≤ d.value := by
    rw [← hq, ← Nat.mul_assoc]
    exact (Nat.mul_le_mul_right _ (Nat.mul_div_le _ _)).trans (Nat.div_mul_le_self _ _)
  obtain ⟨rest, flag, hexact, hbuf, hrest, hcount⟩ := bn_sub_exact hs.room
    (show d.size < 256 by omega) (hvalue ▸ hall) (Or.inl hlength)
  rw [hvalue] at hrest hcount
  obtain ⟨hleft, hfit⟩ := rest_value hbuf hrest hcount
  refine ⟨⟨⟨rest.buf ++ d.buf.drop d.size, rest.size⟩, quotient.set i (UInt8.ofNat q)⟩, ?_,
    hs.taken hv hik hinside hbyte hq rfl hfit hleft hcount⟩
  rw [hturn, hcode]
  exact congrArg (Option.bind · _) hexact

theorem divLoop_of_found {s : Division} (hlen : divisor.length = n + 1)
    (hv : 256 ^ n ≤ leNat divisor) (htl : tmp_len < 256) (hs : Rest n (leNat divisor) N k s)
    (hone : leNat divisor ≤ s.dividend.value ∨ n + 2 ≤ tmp_len)
    (h : Found n (leNat divisor) tmp_len s.dividend.value) :
    ∃ fuel s' k', divLoop behind tmp_len divisor fuel s = some (1, s') ∧
      Rest n (leNat divisor) N k' s' ∧ s'.dividend.value < leNat divisor := by
  have hv' : leNat divisor < 256 ^ (n + 1) := hlen ▸ leNat_lt divisor
  have hpos : 0 < leNat divisor := (Nat.pow_pos (by decide)).trans_le hv
  induction hk : s.dividend.value using Nat.strong_induction_on generalizing s k with
  | _ r ih =>
    subst hk
    by_cases hle : leNat divisor ≤ s.dividend.value
    · obtain ⟨hlow, hhigh, -⟩ := place_spec hv hv' hs.normal hle
      obtain ⟨⟨hroom, hguess⟩, hrest⟩ := (found_step hpos hlow hhigh).mp h
      obtain ⟨t, hturn, ht, hvalue⟩ := turn_found hlen hv htl hs hle rfl hroom
        hguess
      have hless : t.dividend.value < s.dividend.value := by
        rw [hvalue]
        exact (Nat.mod_lt _ (Nat.mul_pos hpos (Nat.pow_pos (by decide)))).trans_le hlow
      rw [← hvalue] at hrest
      obtain ⟨fuel, s', k', hrun, hspec⟩ := ih _ hless ht (Or.inr (by omega)) hrest rfl
      refine ⟨fuel + 1, s', k', ?_, hspec⟩
      rw [divLoop, hturn]
      exact hrun
    · have hr : s.dividend.value < leNat divisor := Nat.lt_of_not_le hle
      have hturn := (@turn_last behind _ _ _ _ _ _ hlen hv (hone.resolve_left hle) hs hr).mpr h
      refine ⟨1, s, k, ?_, hs, hr⟩
      rw [divLoop, hturn]
      rfl

end Found

theorem divLoop_end {s s' : Division} {fuel : ℕ} {ret : ℤ} (hlen : divisor.length = n + 1)
    (hv : 256 ^ n ≤ leNat divisor) (htl : tmp_len < 256) (hs : Below n (leNat divisor) s)
    (h : divLoop behind tmp_len divisor fuel s = some (ret, s')) (hret : 0 ≤ ret) :
    ret = 1 ∧ s'.dividend.size ≤ s'.dividend.buf.length := by
  have hv' : leNat divisor < 256 ^ (n + 1) := hlen ▸ leNat_lt divisor
  induction fuel generalizing s with
  | zero => simp [divLoop] at h
  | succ fuel ih =>
    obtain ⟨r, hturn, hrest⟩ := Option.bind_eq_some_iff.mp h
    cases r with
    | done ret' t =>
      simp only [Option.pure_def, Option.some.injEq, Prod.mk.injEq] at hrest
      obtain ⟨rfl, rfl⟩ := hrest
      obtain rfl | ⟨rfl, rfl⟩ := turn_done hturn
      · exact absurd hret (by decide)
      · exact ⟨rfl, hs.room⟩
    | next t =>
      obtain ⟨l, m, hstep⟩ := turn_next hlen hv htl hs hturn
      exact ih (hstep.below hv' hs) hrest

end Runs

section Ends

variable {behind : ℕ → UInt8} {quotient : List UInt8} {remainder_len : ℕ}
variable {dividend divisor : List UInt8}

theorem finish_ret {ret : ℤ} {s : Division} {r : Divided}
    (h : finish remainder_len (ret, s) = some r) : r.ret = ret := by
  obtain ⟨quotient_size, -, h⟩ := Option.bind_eq_some_iff.mp h
  obtain ⟨remainder, -, h⟩ := Option.bind_eq_some_iff.mp h
  rw [← Option.some.inj h]

theorem finish_eq {ret : ℤ} {s : Division} {r : Divided}
    (hroom : s.dividend.size ≤ s.dividend.buf.length) (h : finish remainder_len (ret, s) = some r) :
    leNat (r.quotient.take r.quotient_size) = leNat s.quotient ∧
      leNat (r.remainder.take r.remainder_size) = s.dividend.value := by
  have hlen : (s.dividend.buf.take s.dividend.size).length = s.dividend.size :=
    List.length_take_of_le hroom
  rw [finish, bn_size_all rfl, Option.bind_eq_bind, Option.bind_some] at h
  obtain ⟨remainder, hput, hrest⟩ := Option.bind_eq_some_iff.mp h
  rw [Buffer.put] at hput
  split at hput
  · obtain rfl := Option.some.inj hput
    obtain rfl := Option.some.inj hrest
    refine ⟨leNat_take_of_byteLength_le le_rfl, ?_⟩
    simp only [List.take_zero, List.nil_append]
    rw [List.take_append_of_le_length hlen.ge, List.take_of_length_le hlen.le]
    rfl
  · simp at hput

theorem finish_isSome {ret : ℤ} {s : Division} (hroom : s.dividend.size ≤ remainder_len) :
    ∃ r, finish remainder_len (ret, s) = some r := by
  have hlen : (s.dividend.buf.take s.dividend.size).length ≤ s.dividend.size :=
    List.length_take_le _ _
  have hput : 0 + (s.dividend.buf.take s.dividend.size).length ≤
      (List.replicate remainder_len (0 : UInt8)).length := by
    rw [List.length_replicate]
    omega
  rw [finish, bn_size_all rfl, Buffer.put, if_pos hput]
  exact ⟨_, rfl⟩

/-- The call succeeds, and the dividend is the quotient times the divisor and a smaller
remainder. -/
def Divides (behind : ℕ → UInt8) (quotient : List UInt8) (remainder_len : ℕ)
    (dividend divisor : List UInt8) : Prop :=
  ∃ fuel r, bn_div behind fuel quotient remainder_len dividend divisor = some r ∧ 0 ≤ r.ret ∧
    leNat dividend = leNat (r.quotient.take r.quotient_size) * leNat divisor +
      leNat (r.remainder.take r.remainder_size) ∧
    leNat (r.remainder.take r.remainder_size) < leNat divisor

/-- Nothing is guessed, or everything is found. -/
def Divisible (remainder_len N v : ℕ) : Prop :=
  N ≤ v ∨ Found (byteLength v - 1) v (remainder_len % 256) N

theorem bn_cmp_normal (xs ys : List UInt8) :
    ∃ ret, bn_cmp xs (byteLength (leNat xs)) ys (byteLength (leNat ys)) = some ret ∧
      (ret < 0 ↔ leNat xs < leNat ys) ∧ (ret = 0 ↔ leNat xs = leNat ys) := by
  have hless {x y : ℕ} (h : byteLength x < byteLength y) : x < y :=
    (lt_pow_byteLength x).trans_le (lt_byteLength_iff.mp h)
  obtain hlt | heq | hgt := Nat.lt_trichotomy (byteLength (leNat xs)) (byteLength (leNat ys))
  · have hvalue := hless hlt
    refine ⟨-1, ?_, by omega, by omega⟩
    rw [bn_cmp, if_neg (by omega), if_pos hlt]
  · have hys : byteLength (leNat xs) ≤ ys.length := heq ▸ byteLength_leNat_le ys
    have hcmp := bn_cmp_eq (byteLength_leNat_le xs) hys
    rw [leNat_take_of_byteLength_le le_rfl, leNat_take_of_byteLength_le heq.ge] at hcmp
    nth_rewrite 2 [heq] at hcmp
    refine ⟨_, hcmp, ?_, ?_⟩
    · rw [Int.sign_neg_iff]
      omega
    · rw [Int.sign_eq_zero_iff_zero]
      omega
  · have hvalue := hless hgt
    refine ⟨1, ?_, by omega, by omega⟩
    rw [bn_cmp, if_pos hgt]

theorem bn_div_eq (fuel : ℕ) (hquotient : dividend.length ≤ quotient.length)
    (hremainder : dividend.length ≤ remainder_len) (hpos : 0 < quotient.length) :
    bn_div behind fuel quotient remainder_len dividend divisor =
      if leNat dividend < leNat divisor then
        finish remainder_len
          (1, ⟨⟨dividend, byteLength (leNat dividend)⟩, quotient.set 0 0⟩)
      else if leNat dividend = leNat divisor then
        finish remainder_len (1, ⟨⟨dividend, 0⟩, quotient.set 0 1⟩)
      else (divLoop behind (remainder_len % 256)
        (divisor.take (byteLength (leNat divisor))) fuel
        ⟨⟨dividend, byteLength (leNat dividend)⟩, quotient⟩).bind (finish remainder_len) := by
  have hroom : ¬ (remainder_len < dividend.length ∨ quotient.length < dividend.length) := by omega
  have hstore (b : UInt8) : store quotient 0 b = some (quotient.set 0 b) := if_pos hpos
  have hbyte : (UInt8.ofNat remainder_len).toNat = remainder_len % 256 := UInt8.toNat_ofNat'
  obtain ⟨ret, hcmp, hless, hequal⟩ := bn_cmp_normal dividend divisor
  rw [bn_div, if_neg hroom, bn_size_all rfl, bn_size_all rfl]
  simp only [Option.bind_eq_bind, Option.bind_some, hcmp, hstore, hbyte]
  rw [if_congr hless rfl rfl, if_congr hequal rfl rfl]

theorem rest_start (hquotient : dividend.length ≤ quotient.length) (hzero : leNat quotient = 0)
    {n : ℕ} (hv : 256 ^ n ≤ leNat divisor) :
    Rest n (leNat divisor) (leNat dividend) (byteLength (leNat dividend))
      ⟨⟨dividend, byteLength (leNat dividend)⟩, quotient⟩ := by
  have hvalue : (⟨dividend, byteLength (leNat dividend)⟩ : Number).value = leNat dividend :=
    leNat_take_of_byteLength_le le_rfl
  have hlen := byteLength_leNat_le dividend
  refine ⟨hlen, by rw [hvalue], hlen.trans hquotient, ?_, ?_, ?_⟩
  · rw [worth, hzero, Nat.zero_mul, Nat.zero_add, hvalue]
  · have hle := leNat_take_mono quotient (Nat.le_add_right (byteLength (leNat dividend))
      quotient.length)
    rw [List.take_of_length_le (by omega : quotient.length ≤ _ + quotient.length), hzero] at hle
    exact Nat.le_zero.mp hle
  · rw [hvalue]
    exact (lt_pow_byteLength _).trans_le
      (Nat.le_mul_of_pos_left _ ((Nat.pow_pos (by decide)).trans_le hv))

theorem divides_of_le (hquotient : dividend.length ≤ quotient.length)
    (hremainder : dividend.length ≤ remainder_len) (hpos : 0 < quotient.length)
    (hzero : leNat quotient = 0) (hdivisor : leNat divisor ≠ 0)
    (hle : leNat dividend ≤ leNat divisor) :
    Divides behind quotient remainder_len dividend divisor := by
  have hshort := byteLength_leNat_le dividend
  have hset (b : UInt8) : leNat (quotient.set 0 b) = b.toNat := by
    have hset := leNat_set b hpos
    have hlow := toNat_getElem_eq_mod hpos
    rw [hzero, Nat.zero_div, Nat.zero_mod] at hlow
    omega
  obtain hequal | hless := Nat.eq_or_lt_of_le hle
  · obtain ⟨r, hr⟩ := finish_isSome (s := ⟨⟨dividend, 0⟩, quotient.set 0 1⟩)
      (Nat.zero_le remainder_len)
    obtain ⟨hq, hrest⟩ := finish_eq (Nat.zero_le _) hr
    have hnone : (⟨dividend, 0⟩ : Number).value = 0 := rfl
    refine ⟨0, r, ?_, (finish_ret hr).symm ▸ Int.one_nonneg, ?_, ?_⟩
    · rw [bn_div_eq 0 hquotient hremainder hpos, if_neg (Nat.not_lt.mpr hequal.ge), if_pos hequal]
      exact hr
    · rw [hq, hrest, hnone, hset, UInt8.toNat_one, Nat.one_mul, Nat.add_zero, hequal]
    · rw [hrest, hnone]
      exact Nat.pos_of_ne_zero hdivisor
  · obtain ⟨r, hr⟩ := finish_isSome (s := ⟨⟨dividend, byteLength (leNat dividend)⟩,
      quotient.set 0 0⟩) (hshort.trans hremainder)
    obtain ⟨hq, hrest⟩ := finish_eq hshort hr
    have hvalue : (⟨dividend, byteLength (leNat dividend)⟩ : Number).value = leNat dividend :=
      leNat_take_of_byteLength_le le_rfl
    refine ⟨0, r, ?_, (finish_ret hr).symm ▸ Int.one_nonneg, ?_, ?_⟩
    · rw [bn_div_eq 0 hquotient hremainder hpos, if_pos hless]
      exact hr
    · rw [hq, hrest, hvalue, hset, UInt8.toNat_zero, Nat.zero_mul, Nat.zero_add]
    · rw [hrest, hvalue]
      exact hless

theorem divides_iff_of_lt {n : ℕ} (hquotient : dividend.length ≤ quotient.length)
    (hremainder : dividend.length ≤ remainder_len) (hpos : 0 < quotient.length)
    (hzero : leNat quotient = 0) (hn : byteLength (leNat divisor) = n + 1)
    (hlarger : leNat divisor < leNat dividend) :
    Divides behind quotient remainder_len dividend divisor ↔
      Found n (leNat divisor) (remainder_len % 256) (leNat dividend) := by
  have hcut : leNat (divisor.take (n + 1)) = leNat divisor := leNat_take_of_byteLength_le hn.le
  have hlen : (divisor.take (n + 1)).length = n + 1 :=
    List.length_take_of_le (hn ▸ byteLength_leNat_le divisor)
  have hv : 256 ^ n ≤ leNat (divisor.take (n + 1)) := hcut ▸ lt_byteLength_iff.mp (by omega)
  have htl : remainder_len % 256 < 256 := Nat.mod_lt _ (by decide)
  have hshort := (byteLength_leNat_le dividend).trans hremainder
  have hcode (fuel : ℕ) : bn_div behind fuel quotient remainder_len dividend divisor =
      (divLoop behind (remainder_len % 256) (divisor.take (n + 1)) fuel
        ⟨⟨dividend, byteLength (leNat dividend)⟩, quotient⟩).bind (finish remainder_len) := by
    rw [bn_div_eq fuel hquotient hremainder hpos, if_neg (Nat.not_lt.mpr hlarger.le),
      if_neg hlarger.ne', hn]
  have hstart := rest_start hquotient hzero hv
  generalize hs : (⟨⟨dividend, byteLength (leNat dividend)⟩, quotient⟩ : Division) = s
    at hcode hstart
  have hvalue : s.dividend.value = leNat dividend := by
    rw [← hs]
    exact leNat_take_of_byteLength_le le_rfl
  have hlarger' : leNat (divisor.take (n + 1)) ≤ s.dividend.value := by
    rw [hvalue, hcut]
    exact hlarger.le
  unfold Divides
  simp only [hcode]
  rw [← hcut, ← hvalue]
  constructor
  · rintro ⟨fuel, r, hrun, hret, hwhole, hless⟩
    obtain ⟨⟨ret, s'⟩, hrun, hfinish⟩ := Option.bind_eq_some_iff.mp hrun
    rw [finish_ret hfinish] at hret
    obtain ⟨rfl, hroom⟩ := divLoop_end hlen hv htl
      (hstart.below hv (hcut ▸ hn ▸ lt_pow_byteLength _)) hrun hret
    obtain ⟨hq, hrest⟩ := finish_eq hroom hfinish
    rw [hq, hrest, hvalue] at hwhole
    rw [hrest] at hless
    exact found_of_divLoop hlen hv htl hstart (Or.inl hlarger') hrun hwhole.symm hless
  · intro hfound
    obtain ⟨fuel, s', k, hrun, hs', hless⟩ :=
      divLoop_of_found hlen hv htl hstart (Or.inl hlarger') hfound
    have hsize : s'.dividend.size ≤ remainder_len := by
      apply le_trans _ hshort
      rw [hs'.normal, byteLength_le_iff, ← hs'.whole]
      exact (Nat.le_add_left _ _).trans_lt (lt_pow_byteLength _)
    obtain ⟨r, hr⟩ := finish_isSome hsize
    obtain ⟨hq, hrest⟩ := finish_eq hs'.room hr
    refine ⟨fuel, r, ?_, (finish_ret hr).symm ▸ Int.one_nonneg, ?_, hrest ▸ hless⟩
    · rw [hrun]
      exact hr
    · rw [hq, hrest, hvalue, ← hs'.whole, worth]

/-- With a quotient of zero bytes, dividing is right exactly where every digit can be found. -/
theorem divides_iff (behind : ℕ → UInt8) (quotient : List UInt8) (remainder_len : ℕ)
    (dividend divisor : List UInt8) (hquotient : dividend.length ≤ quotient.length)
    (hremainder : dividend.length ≤ remainder_len) (hpos : 0 < quotient.length)
    (hzero : leNat quotient = 0) (hdivisor : leNat divisor ≠ 0) :
    Divides behind quotient remainder_len dividend divisor ↔
      Divisible remainder_len (leNat dividend) (leNat divisor) := by
  obtain ⟨n, hn⟩ : ∃ n, byteLength (leNat divisor) = n + 1 :=
    Nat.exists_eq_succ_of_ne_zero (byteLength_eq_zero.not.mpr hdivisor)
  rw [Divisible, hn, Nat.add_sub_cancel]
  obtain hle | hlarger := le_or_gt (leNat dividend) (leNat divisor)
  · exact iff_of_true (divides_of_le hquotient hremainder hpos hzero hdivisor hle) (Or.inl hle)
  · rw [divides_iff_of_lt hquotient hremainder hpos hzero hn hlarger,
      or_iff_right hlarger.not_ge]

end Ends

theorem divides_byte : Divides (fun _ ↦ 255) [0, 0, 0] 3 [200, 1] [7] := by
  refine (divides_iff (fun _ ↦ 255) [0, 0, 0] 3 [200, 1] [7] (by decide) (by decide) (by decide)
    rfl (by decide)).mpr (Or.inr ?_)
  have hfound : Found 0 7 3 456 := by
    apply (found_step (i := 0) (by decide) (by decide) (by decide)).mpr
    refine ⟨⟨by decide, ?_⟩, (found_of_lt (by decide)).mpr (Or.inr (Or.inl rfl))⟩
    exact ⟨by decide, Or.inl (by decide)⟩
  exact hfound

/-- 0x10000 divided by 0xff00: the product is compared with the two top bytes of the dividend, to
which it is too large. -/
theorem not_divides : ¬ ∀ (behind : ℕ → UInt8) (quotient : List UInt8) (remainder_len : ℕ)
    (dividend divisor : List UInt8), dividend.length ≤ quotient.length →
      dividend.length ≤ remainder_len → 0 < quotient.length → leNat quotient = 0 →
      leNat divisor ≠ 0 → Divides behind quotient remainder_len dividend divisor := by
  intro hall
  obtain ⟨fuel, r, hcode, hret, -, -⟩ := hall (fun _ ↦ 0) [0, 0, 0, 0] 4 [0, 0, 1] [0, 255]
    (by decide) (by decide) (by decide) rfl (by decide)
  have hturn : turn (fun _ ↦ 0) 4 [0, 255] ⟨⟨[0, 0, 1], 3⟩, [0, 0, 0, 0]⟩ =
      some (.done (-1) ⟨⟨[0, 0, 1], 3⟩, [0, 0, 0, 0]⟩) := by decide
  have hloop : bn_div (fun _ ↦ 0) fuel [0, 0, 0, 0] 4 [0, 0, 1] [0, 255] =
      (divLoop (fun _ ↦ 0) 4 [0, 255] fuel ⟨⟨[0, 0, 1], 3⟩, [0, 0, 0, 0]⟩).bind (finish 4) := by
    rfl
  rw [hloop] at hcode
  obtain ⟨⟨ret, s⟩, hrun, hfinish⟩ := Option.bind_eq_some_iff.mp hcode
  rw [finish_ret hfinish] at hret
  cases fuel with
  | zero => simp [divLoop] at hrun
  | succ fuel =>
    rw [divLoop, hturn] at hrun
    have hret' := congrArg Prod.fst (Option.some.inj hrun)
    simp only at hret'
    omega

end Libobject.BigNumber
