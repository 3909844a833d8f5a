import Libobject.Lib.Ruler

/-!
# The Gregorian calendar

Broken-down times, and their numbers of seconds. There are no leap seconds and there is no daylight
saving, so that the two determine each other. Seconds are counted from the beginning of the year 0,
to which the calendar is extended; months are counted from 0 and days from 1.
-/

namespace Libobject.Calendar

def isLeap (year : ℕ) : Bool := year % 4 = 0 && (year % 100 ≠ 0 || year % 400 = 0)

def daysIn (year mon : ℕ) : ℕ :=
  if mon = 1 then if isLeap year then 29 else 28
  else if mon = 3 ∨ mon = 5 ∨ mon = 8 ∨ mon = 10 then 30
  else 31

/-- The months since the beginning of the year 0, as blocks of days. -/
def months : Ruler where
  len m := daysIn (m / 12) (m % 12)
  pos m := by
    rw [daysIn]
    split_ifs <;> decide

/-- `struct tm`, with the values its fields can have. -/
structure Tm where
  year : ℕ
  mon : ℕ
  mday : ℕ
  hour : ℕ
  min : ℕ
  sec : ℕ
  mon_lt : mon < 12
  one_le_mday : 1 ≤ mday
  mday_le : mday ≤ daysIn year mon
  hour_lt : hour < 24
  min_lt : min < 60
  sec_lt : sec < 60

namespace Tm

@[ext] theorem ext {a b : Tm} (hyear : a.year = b.year) (hmon : a.mon = b.mon)
    (hmday : a.mday = b.mday) (hhour : a.hour = b.hour) (hmin : a.min = b.min)
    (hsec : a.sec = b.sec) : a = b := by
  cases a
  cases b
  cases hyear
  cases hmon
  cases hmday
  cases hhour
  cases hmin
  cases hsec
  rfl

def month (t : Tm) : ℕ := t.year * 12 + t.mon

/-- The number of days before the day. -/
def day (t : Tm) : ℕ := months.start t.month + (t.mday - 1)

def mktime (t : Tm) : ℕ := ((t.day * 24 + t.hour) * 60 + t.min) * 60 + t.sec

theorem month_div (t : Tm) : t.month / 12 = t.year := by
  have h := t.mon_lt
  rw [month]
  omega

theorem month_mod (t : Tm) : t.month % 12 = t.mon := by
  have h := t.mon_lt
  rw [month]
  omega

theorem mday_lt (t : Tm) : t.mday - 1 < months.len t.month := by
  have hle := t.mday_le
  have hone := t.one_le_mday
  show t.mday - 1 < daysIn (t.month / 12) (t.month % 12)
  rw [month_div, month_mod]
  omega

end Tm

def localtime (n : ℕ) : Tm where
  year := (months.locate (n / 86400)).1 / 12
  mon := (months.locate (n / 86400)).1 % 12
  mday := (months.locate (n / 86400)).2 + 1
  hour := n / 3600 % 24
  min := n / 60 % 60
  sec := n % 60
  mon_lt := Nat.mod_lt _ (by decide)
  one_le_mday := Nat.le_add_left 1 _
  mday_le := months.locate_lt (n / 86400)
  hour_lt := Nat.mod_lt _ (by decide)
  min_lt := Nat.mod_lt _ (by decide)
  sec_lt := Nat.mod_lt _ (by decide)

theorem month_localtime (n : ℕ) : (localtime n).month = (months.locate (n / 86400)).1 := by
  rw [Tm.month, localtime]
  dsimp only
  omega

theorem day_localtime (n : ℕ) : (localtime n).day = n / 86400 := by
  rw [Tm.day, month_localtime]
  exact months.start_locate (n / 86400)

theorem mktime_localtime (n : ℕ) : (localtime n).mktime = n := by
  have hhour : (localtime n).hour = n / 3600 % 24 := rfl
  have hmin : (localtime n).min = n / 60 % 60 := rfl
  have hsec : (localtime n).sec = n % 60 := rfl
  rw [Tm.mktime, day_localtime, hhour, hmin, hsec]
  omega

theorem mktime_div (t : Tm) : t.mktime / 86400 = t.day := by
  have hhour := t.hour_lt
  have hmin := t.min_lt
  have hsec := t.sec_lt
  rw [Tm.mktime]
  omega

theorem localtime_mktime (t : Tm) : localtime t.mktime = t := by
  have hhour := t.hour_lt
  have hmin := t.min_lt
  have hsec := t.sec_lt
  have hone := t.one_le_mday
  have hplace : months.locate (t.mktime / 86400) = (t.month, t.mday - 1) := by
    rw [mktime_div]
    exact Ruler.locate_place t.mday_lt
  apply Tm.ext
  · show (months.locate (t.mktime / 86400)).1 / 12 = t.year
    rw [hplace, t.month_div]
  · show (months.locate (t.mktime / 86400)).1 % 12 = t.mon
    rw [hplace, t.month_mod]
  · show (months.locate (t.mktime / 86400)).2 + 1 = t.mday
    rw [hplace]
    exact Nat.sub_add_cancel hone
  · show t.mktime / 3600 % 24 = t.hour
    rw [Tm.mktime]
    omega
  · show t.mktime / 60 % 60 = t.min
    rw [Tm.mktime]
    omega
  · show t.mktime % 60 = t.sec
    rw [Tm.mktime]
    omega

/-! ## The beginnings of days, months and years -/

theorem zero_lt_hours : 0 < 24 := by decide

theorem zero_lt_sixty : 0 < 60 := by decide

/-- Midnight of the first day of a month. -/
def firstOf (year mon : ℕ) (h : mon < 12) : Tm where
  year := year
  mon := mon
  mday := 1
  hour := 0
  min := 0
  sec := 0
  mon_lt := h
  one_le_mday := Nat.le_refl 1
  mday_le := by
    rw [daysIn]
    split_ifs <;> decide
  hour_lt := zero_lt_hours
  min_lt := zero_lt_sixty
  sec_lt := zero_lt_sixty

/-- The second in which a month begins. -/
def monthStart (m : ℕ) : ℕ := months.start m * 86400

theorem mktime_firstOf (year mon : ℕ) (h : mon < 12) :
    (firstOf year mon h).mktime = monthStart (year * 12 + mon) := by
  show (((months.start (year * 12 + mon) + 0) * 24 + 0) * 60 + 0) * 60 + 0 = _
  rw [monthStart]
  omega

theorem monthStart_mono {m m' : ℕ} (h : m ≤ m') : monthStart m ≤ monthStart m' :=
  Nat.mul_le_mul_right _ (Ruler.start_mono h)

theorem Tm.mktime_mem_month (t : Tm) :
    monthStart t.month ≤ t.mktime ∧ t.mktime < monthStart (t.month + 1) := by
  have hday := t.mday_lt
  have hdiv := mktime_div t
  rw [monthStart, monthStart, Ruler.start]
  rw [Tm.day] at hdiv
  omega

theorem le_month_iff (n m : ℕ) : m ≤ (localtime n).month ↔ monthStart m ≤ n := by
  have hmem := (localtime n).mktime_mem_month
  rw [mktime_localtime] at hmem
  constructor
  · intro h
    exact (monthStart_mono h).trans hmem.1
  · intro h
    by_contra hlt
    have hnext : monthStart ((localtime n).month + 1) ≤ monthStart m :=
      monthStart_mono (not_le.mp hlt)
    omega

theorem month_monthStart (m : ℕ) : (localtime (monthStart m)).month = m := by
  apply Nat.le_antisymm
  · by_contra hlt
    have hle : monthStart (m + 1) ≤ monthStart m := (le_month_iff _ _).mp (not_le.mp hlt)
    have hpos := months.pos m
    rw [monthStart, monthStart, Ruler.start] at hle
    omega
  · exact (le_month_iff _ _).mpr (Nat.le_refl _)

theorem year_eq (n : ℕ) : (localtime n).year = (localtime n).month / 12 :=
  ((localtime n).month_div).symm

theorem mon_eq (n : ℕ) : (localtime n).mon = (localtime n).month % 12 :=
  ((localtime n).month_mod).symm

theorem year_mono {n n' : ℕ} (h : n ≤ n') : (localtime n).year ≤ (localtime n').year := by
  have hmonth : (localtime n).month ≤ (localtime n').month := by
    apply (le_month_iff _ _).mpr
    exact ((le_month_iff _ _).mp (Nat.le_refl _)).trans h
  rw [year_eq, year_eq]
  exact Nat.div_le_div_right hmonth

/-! ## Days, months and years -/

/-- The periods of the calendar. -/
inductive Period
  | day
  | month
  | year
  deriving DecidableEq

namespace Period

/-- The two times lie in one day, in one month or in one year. -/
def Same : Period → ℕ → ℕ → Prop
  | day, n, n' => (localtime n).year = (localtime n').year ∧
      (localtime n).mon = (localtime n').mon ∧
      (localtime n).mday = (localtime n').mday
  | month, n, n' =>
    (localtime n).year = (localtime n').year ∧ (localtime n).mon = (localtime n').mon
  | year, n, n' => (localtime n).year = (localtime n').year

/-- The beginning of the next period. -/
def next : Period → ℕ → ℕ
  | day, n => (n / 86400 + 1) * 86400
  | month, n => monthStart ((localtime n).month + 1)
  | year, n => monthStart (((localtime n).year + 1) * 12)

/-- The last day, the last month or the whole of a year. -/
def LastOf : Period → ℕ → Tm → Prop
  | day, y, t => t.year = y ∧ t.mon = 11 ∧ t.mday = 31
  | month, y, t => t.year = y ∧ t.mon = 11
  | year, y, t => t.year = y

theorem lt_next (per : Period) (n : ℕ) : n < per.next n := by
  cases per with
  | day =>
    rw [next]
    omega
  | month =>
    by_contra h
    have hle := (le_month_iff _ _).mpr (not_lt.mp h)
    omega
  | year =>
    by_contra h
    have hle := (le_month_iff _ _).mpr (not_lt.mp h)
    have hdiv := (localtime n).month_div
    omega

theorem same_of_lt_next {per : Period} {n n' : ℕ} (hle : n ≤ n') (hlt : n' < per.next n) :
    per.Same n n' := by
  have hmonth : (localtime n).month ≤ (localtime n').month := by
    apply (le_month_iff _ _).mpr
    exact ((le_month_iff _ _).mp (Nat.le_refl _)).trans hle
  cases per with
  | day =>
    rw [next] at hlt
    have hday : n' / 86400 = n / 86400 := by omega
    simp only [Same, localtime, hday, and_self]
  | month =>
    have hnot : ¬(localtime n).month + 1 ≤ (localtime n').month := fun h ↦
      absurd ((le_month_iff _ _).mp h) (not_le.mpr hlt)
    have heq : (localtime n).month = (localtime n').month := by omega
    rw [Same, year_eq, year_eq, mon_eq, mon_eq, heq]
    exact ⟨rfl, rfl⟩
  | year =>
    have hnot : ¬((localtime n).year + 1) * 12 ≤ (localtime n').month := fun h ↦
      absurd ((le_month_iff _ _).mp h) (not_le.mpr hlt)
    have hyear := year_mono hle
    have hdiv := (localtime n').month_div
    rw [Same]
    omega

theorem Same.year_eq {per : Period} {n n' : ℕ} (h : per.Same n n') :
    (localtime n).year = (localtime n').year := by
  cases per with
  | day => exact h.1
  | month => exact h.1
  | year => exact h

theorem next_eq_of_lt_next {per : Period} {n n' : ℕ} (hle : n ≤ n') (hlt : n' < per.next n) :
    per.next n' = per.next n := by
  have hsame := same_of_lt_next hle hlt
  cases per with
  | day =>
    rw [next] at hlt ⊢
    rw [next]
    omega
  | month => rw [next, next, Tm.month, Tm.month, hsame.1, hsame.2]
  | year =>
    have hyear : (localtime n).year = (localtime n').year := hsame
    rw [next, next, hyear]

theorem lt_year_next_iff (per : Period) (t : Tm) {y : ℕ} (hy : t.year ≤ y) :
    y < (localtime (per.next t.mktime)).year ↔ per.LastOf y t := by
  have hmon := t.mon_lt
  have hmonth : t.month = t.year * 12 + t.mon := rfl
  have hself : localtime t.mktime = t := localtime_mktime t
  rw [Calendar.year_eq]
  cases per with
  | day =>
    have hlen : months.len (y * 12 + 11) = 31 := by
      show daysIn ((y * 12 + 11) / 12) ((y * 12 + 11) % 12) = 31
      rw [show (y * 12 + 11) % 12 = 11 by omega]
      rfl
    have hstart : months.start ((y + 1) * 12) = months.start (y * 12 + 11) + 31 := by
      rw [show (y + 1) * 12 = y * 12 + 11 + 1 by omega, Ruler.start, hlen]
    have hday : t.day = months.start t.month + (t.mday - 1) := rfl
    have hmday := t.mday_lt
    have hone := t.one_le_mday
    have hlater : y < (localtime (Period.day.next t.mktime)).month / 12 ↔
        months.start (y * 12 + 11) + 31 ≤ t.day + 1 := by
      have hdiv : y < (localtime (Period.day.next t.mktime)).month / 12 ↔
          (y + 1) * 12 ≤ (localtime (Period.day.next t.mktime)).month := by omega
      rw [hdiv, le_month_iff, next, mktime_div, monthStart, hstart]
      exact Nat.mul_le_mul_right_iff (by decide)
    rw [hlater, LastOf]
    rcases Nat.lt_or_ge t.month (y * 12 + 11) with hlt | hge
    · have hnext : months.start (t.month + 1) ≤ months.start (y * 12 + 11) :=
        Ruler.start_mono hlt
      rw [Ruler.start] at hnext
      exact iff_of_false (by omega) (by omega)
    · have heq : t.month = y * 12 + 11 := by omega
      rw [heq] at hday hmday
      rw [hlen] at hmday
      omega
  | month =>
    rw [next, month_monthStart, hself, LastOf]
    omega
  | year =>
    rw [next, month_monthStart, hself, LastOf]
    omega

end Period

/-- The fields, from the longest to the shortest unit. -/
def Tm.key (t : Tm) : List ℕ := [t.year, t.mon, t.mday, t.hour, t.min, t.sec]

theorem compare_mktime (a b : Tm) : compare a.mktime b.mktime = compare a.key b.key := by
  have hday : compare (a.mday - 1) (b.mday - 1) = compare a.mday b.mday := by
    have ha := a.one_le_mday
    have hb := b.one_le_mday
    rcases Nat.lt_trichotomy a.mday b.mday with h | h | h
    · rw [Nat.compare_eq_lt.mpr h, Nat.compare_eq_lt.mpr (by omega)]
    · rw [h, Nat.compare_eq_eq.mpr rfl, Nat.compare_eq_eq.mpr rfl]
    · rw [Nat.compare_eq_gt.mpr h, Nat.compare_eq_gt.mpr (by omega)]
  rw [Tm.mktime, Tm.mktime, compare_digit a.sec_lt b.sec_lt, compare_digit a.min_lt b.min_lt,
    compare_digit a.hour_lt b.hour_lt, Tm.day, Tm.day, Ruler.compare_place a.mday_lt b.mday_lt,
    Tm.month, Tm.month, compare_digit a.mon_lt b.mon_lt, hday]
  simp [Tm.key, Ordering.then_assoc]

end Libobject.Calendar
