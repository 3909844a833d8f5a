import Libobject.Lib.Calendar
import Libobject.Lib.Decimal
import Libobject.Lib.Machine

/-!
# Dates and iterations over them

A date is a broken-down time; the C library converts it to seconds and back, in a zone without
daylight saving. Dates are compared by the texts that `strftime` writes of them, in which the year
has no more digits than it needs, with the text of the end, in which it has four. The iterations
call back for one period after the other until the text of a date is behind the text of the end.
-/

namespace Libobject.DateTime

open Calendar Scan

/-! ## The next period and the end of a period -/

def next_day (date : Tm) : Tm :=
  localtime (date.mktime + ((23 - date.hour) * 3600 + (59 - date.min) * 60 + (60 - date.sec)))

def end_of_day (date : Tm) : Tm :=
  localtime (date.mktime + ((23 - date.hour) * 3600 + (59 - date.min) * 60 + (59 - date.sec)))

def next_month (date : Tm) : Tm :=
  { localtime (firstOf (date.year + (date.mon + 1) / 12) ((date.mon + 1) % 12)
      (Nat.mod_lt _ (by decide))).mktime with hour := 0, hour_lt := zero_lt_hours }

def end_of_month (date : Tm) : Tm := localtime ((next_month date).mktime - 1)

def next_year (date : Tm) : Tm := localtime (firstOf (date.year + 1) 0 (by decide)).mktime

def end_of_year (date : Tm) : Tm := localtime ((next_year date).mktime - 1)

/-- What stands behind the year. -/
def fields (date : Tm) : Text :=
  45 :: padded 2 (date.mon + 1) ++ (45 :: padded 2 date.mday ++ (32 :: padded 2 date.hour ++
    (58 :: padded 2 date.min ++ (58 :: padded 2 date.sec))))

/-- `to_format_string(date, "%F %T")`; the C library's `%F` does not pad the year. -/
def to_format_string (date : Tm) : Text := showNat date.year ++ fields date

/-- A time as ISO 8601 writes it, with a year of four digits. -/
def isoText (date : Tm) : Text := padded 4 date.year ++ fields date

def strncmp (s t : Text) (n : ℕ) : Ordering := strcmp (s.take n) (t.take n)

def cmp (date : Tm) (target : Text) : Ordering :=
  strncmp (to_format_string date) target (to_format_string date).length

/-! ## Iterations -/

/-- The date, and what the callback has been given. -/
structure Iteration where
  date : Tm
  out : List (Text × Text)

/-- One turn of the loop over periods that end with `end_of` and go on with `next`. -/
def forEachTurn (next end_of : Tm → Tm) (stop : Text) (it : Iteration) :
    Move Iteration (List (Text × Text)) :=
  if cmp it.date stop ≠ .gt then
    let s := to_format_string it.date
    let date := end_of it.date
    let e := if cmp date stop = .gt then stop else to_format_string date
    .next ⟨next date, it.out ++ [(s, e)]⟩
  else .done it.out

def for_each_day : Text → Iteration → Move Iteration (List (Text × Text)) :=
  forEachTurn next_day end_of_day

def for_each_month : Text → Iteration → Move Iteration (List (Text × Text)) :=
  forEachTurn next_month end_of_month

def for_each_year : Text → Iteration → Move Iteration (List (Text × Text)) :=
  forEachTurn next_year end_of_year

def for_each : Period → Text → Iteration → Move Iteration (List (Text × Text))
  | .day => for_each_day
  | .month => for_each_month
  | .year => for_each_year

/-- A start and an end that ISO 8601 can write. -/
structure Span where
  start : Tm
  stop : Tm
  stop_lt : stop.year < 10000
  le : start.mktime ≤ stop.mktime

/-- The text of a time that is given in seconds. -/
def textAt (n : ℕ) : Text := to_format_string (localtime n)

/-- The iteration ends, and what it has called back with are consecutive parts of the span, each in
one period, that make up the span. Either text of a time may stand for the end of a part. -/
def Iterates (per : Period) (sp : Span) : Prop :=
  ∃ k out, Machine.after (for_each per (isoText sp.stop)) k ⟨sp.start, []⟩ = .done out ∧
    ∃ (ps : List (ℕ × ℕ)) (text : ℕ → Text),
      (∀ n, text n = textAt n ∨ text n = isoText (localtime n)) ∧
      out = ps.map (fun p ↦ (textAt p.1, text p.2)) ∧
      Tiles per.Same sp.start.mktime sp.stop.mktime ps

/-- The last second of the year 0 -/
def lastOfZero : Tm where
  year := 0
  mon := 11
  mday := 31
  hour := 23
  min := 59
  sec := 59
  mon_lt := by decide
  one_le_mday := by decide
  mday_le := by decide
  hour_lt := by decide
  min_lt := by decide
  sec_lt := by decide

/-- No year of the span is read wrongly for being written with fewer or more than four digits. -/
def Readable (per : Period) (sp : Span) : Prop :=
  (1000 ≤ sp.start.year ∨ 9990 ≤ sp.stop.year) ∧ ¬per.LastOf 9999 sp.stop ∨ sp.stop = lastOfZero

/-! ## The periods in seconds -/

/-- `next_day`, `next_month` and `next_year`. -/
def nextOf : Period → Tm → Tm
  | .day => next_day
  | .month => next_month
  | .year => next_year

/-- `end_of_day`, `end_of_month` and `end_of_year`. -/
def endOf : Period → Tm → Tm
  | .day => end_of_day
  | .month => end_of_month
  | .year => end_of_year

theorem for_each_eq (per : Period) : for_each per = forEachTurn (nextOf per) (endOf per) := by
  cases per <;> rfl

theorem next_day_eq (date : Tm) : next_day date = localtime (Period.day.next date.mktime) := by
  have hdiv := mktime_div date
  have hhour := date.hour_lt
  have hmin := date.min_lt
  have hsec := date.sec_lt
  rw [next_day, Period.next]
  congr 1
  rw [hdiv, Tm.mktime]
  omega

theorem end_of_day_eq (date : Tm) :
    end_of_day date = localtime (Period.day.next date.mktime - 1) := by
  have hdiv := mktime_div date
  have hhour := date.hour_lt
  have hmin := date.min_lt
  have hsec := date.sec_lt
  rw [end_of_day, Period.next]
  congr 1
  rw [hdiv, Tm.mktime]
  omega

theorem next_month_eq (date : Tm) : next_month date =
    localtime (Period.month.next date.mktime) := by
  have hmon := date.mon_lt
  have hself : (localtime date.mktime).month = date.month := by rw [localtime_mktime]
  have hstart : (date.year + (date.mon + 1) / 12) * 12 + (date.mon + 1) % 12 = date.month + 1 := by
    rw [Tm.month]
    omega
  rw [Period.next, hself, ← hstart, ← mktime_firstOf _ _ (Nat.mod_lt _ (by decide)),
    localtime_mktime, next_month, localtime_mktime]
  rfl

theorem next_year_eq (date : Tm) : next_year date = localtime (Period.year.next date.mktime) := by
  have hself : (localtime date.mktime).year = date.year := by rw [localtime_mktime]
  rw [Period.next, hself, ← Nat.add_zero ((date.year + 1) * 12),
    ← mktime_firstOf _ _ (by decide), next_year]

theorem nextOf_eq (per : Period) (date : Tm) :
    nextOf per date = localtime (per.next date.mktime) := by
  cases per with
  | day => exact next_day_eq date
  | month => exact next_month_eq date
  | year => exact next_year_eq date

theorem endOf_eq (per : Period) (date : Tm) :
    endOf per date = localtime (per.next date.mktime - 1) := by
  cases per with
  | day => exact end_of_day_eq date
  | month =>
    show localtime ((next_month date).mktime - 1) = _
    rw [next_month_eq, mktime_localtime]
  | year =>
    show localtime ((next_year date).mktime - 1) = _
    rw [next_year_eq, mktime_localtime]

/-! ## Texts in the order of times -/

theorem strcmp_sep {m n : ℕ} (hm : m < 10 ^ 2) (hn : n < 10 ^ 2) (c : UInt8) :
    strcmp (c :: padded 2 m) (c :: padded 2 n) = compare m n := by
  have hcons : strcmp ([c] ++ padded 2 m) ([c] ++ padded 2 n) = _ := strcmp_append rfl _ _
  have hself : strcmp [c] [c] = .eq := Std.ReflCmp.compare_self
  rw [hself, strcmp_padded hm hn] at hcons
  exact hcons

theorem strcmp_field {m n : ℕ} (hm : m < 10 ^ 2) (hn : n < 10 ^ 2) (c : UInt8) (s t : Text) :
    strcmp (c :: padded 2 m ++ s) (c :: padded 2 n ++ t) = (compare m n).then (strcmp s t) := by
  rw [strcmp_append (by simp), strcmp_sep hm hn]

theorem daysIn_le (year mon : ℕ) : daysIn year mon ≤ 31 := by
  rw [daysIn]
  split_ifs <;> decide

theorem length_fields (date : Tm) : (fields date).length = 15 := by simp [fields]

theorem length_isoText (date : Tm) : (isoText date).length = 19 := by
  simp [isoText, length_fields]

theorem strcmp_fields (a b : Tm) (m n : ℕ) : (compare m n).then (strcmp (fields a) (fields b)) =
    compare [m, a.mon, a.mday, a.hour, a.min, a.sec] [n, b.mon, b.mday, b.hour, b.min, b.sec] := by
  have hmon : compare (a.mon + 1) (b.mon + 1) = compare a.mon b.mon := by
    simp [Nat.compare_eq_ite_lt]
  have hday (t : Tm) : t.mday < 10 ^ 2 :=
    (t.mday_le.trans (daysIn_le t.year t.mon)).trans_lt (by decide)
  have hmonth (t : Tm) : t.mon + 1 < 10 ^ 2 := (Nat.succ_lt_succ t.mon_lt).trans (by decide)
  have hhour (t : Tm) : t.hour < 10 ^ 2 := t.hour_lt.trans (by decide)
  have hmin (t : Tm) : t.min < 10 ^ 2 := t.min_lt.trans (by decide)
  have hsec (t : Tm) : t.sec < 10 ^ 2 := t.sec_lt.trans (by decide)
  rw [fields, fields, strcmp_field (hmonth _) (hmonth _), hmon, strcmp_field (hday _) (hday _),
    strcmp_field (hhour _) (hhour _), strcmp_field (hmin _) (hmin _), strcmp_sep (hsec _) (hsec _)]
  simp

theorem to_format_string_eq {date : Tm} (hlo : 1000 ≤ date.year) (hhi : date.year < 10000) :
    to_format_string date = isoText date := by
  rw [to_format_string, isoText, showNat_eq_padded (w := 3) (Or.inr hlo) hhi]

theorem cmp_eq {date stop : Tm} (hlo : 1000 ≤ date.year) (hdate : date.year < 10000)
    (hstop : stop.year < 10000) : cmp date (isoText stop) = compare date.mktime stop.mktime := by
  have hyear : strcmp (padded 4 date.year) (padded 4 stop.year) = compare date.year stop.year :=
    strcmp_padded hdate hstop
  rw [cmp, strncmp, to_format_string_eq hlo hdate, length_isoText, ← length_isoText date,
    List.take_length, length_isoText, ← length_isoText stop, List.take_length, compare_mktime,
    isoText, isoText, strcmp_append (by simp), hyear, strcmp_fields]
  rfl

/-- A year with fewer than four digits is compared with as many digits of the end's year. -/
theorem cmp_short {date stop : Tm} {w j : ℕ} (hw : w + j = 2) (hlo : w = 0 ∨ 10 ^ w ≤ date.year)
    (hhi : date.year < 10 ^ (w + 1)) (hstop : stop.year < 10000) :
    cmp date (isoText stop) = if date.year ≤ stop.year / 10 ^ (j + 1) then .lt else .gt := by
  have hfour : 4 = w + 1 + (j + 1) := by omega
  have hdiv : stop.year / 10 ^ (j + 1) < 10 ^ (w + 1) := by
    rw [Nat.div_lt_iff_lt_mul (Nat.pow_pos (by decide)), ← Nat.pow_add, ← hfour]
    exact hstop
  obtain ⟨c, s, hcs⟩ := List.exists_cons_of_ne_nil
    (List.ne_nil_of_length_pos (l := padded (j + 1) stop.year) (by simp))
  have hc := isDigit_padded (j + 1) stop.year c (by simp [hcs])
  have hlt : compare 45 c = .lt := by
    rw [isDigit, Bool.and_eq_true, decide_eq_true_eq] at hc
    exact compareOfLessAndEq_eq_lt.mpr (UInt8.lt_of_lt_of_le (by decide : (45 : UInt8) < 48) hc.1)
  have hlen : (to_format_string date).length = w + 1 + 15 := by
    rw [to_format_string, showNat_eq_padded hlo hhi, List.length_append, length_padded,
      length_fields]
  have hstrcmp (x y : Text) : strcmp (45 :: x) (c :: y) = .lt := by
    rw [strcmp, List.compareLex_cons_cons, hlt]
    rfl
  rw [cmp, strncmp, hlen, List.take_of_length_le hlen.le, isoText, hfour, padded_add, hcs,
    List.append_assoc, List.take_append, length_padded, Nat.add_sub_cancel_left,
    List.take_of_length_le (by simp), List.cons_append, List.take_succ_cons, to_format_string,
    showNat_eq_padded hlo hhi, strcmp_append (by simp), strcmp_padded hhi hdiv, fields,
    List.cons_append, hstrcmp]
  rw [Nat.compare_eq_ite_le]
  split_ifs <;> rfl

theorem cmp_of_lt (date stop : Tm) (hdate : date.year < 1000) (hstop : stop.year < 10000) :
    ∃ q, cmp date (isoText stop) = (if date.year ≤ q then .lt else .gt) ∧
      (q = stop.year / 10 ∨ date.year < 100 ∧ q = stop.year / 100 ∨
        date.year < 10 ∧ q = stop.year / 1000) := by
  by_cases hten : date.year < 10
  · exact ⟨_, cmp_short (w := 0) (j := 2) rfl (Or.inl rfl) hten hstop, Or.inr (Or.inr ⟨hten, rfl⟩)⟩
  · by_cases hhundred : date.year < 100
    · exact ⟨_, cmp_short (w := 1) (j := 1) rfl (Or.inr (not_lt.1 hten)) hhundred hstop,
        Or.inr (Or.inl ⟨hhundred, rfl⟩)⟩
    · exact ⟨_, cmp_short (w := 2) (j := 0) rfl (Or.inr (not_lt.1 hhundred)) hdate hstop,
        Or.inl rfl⟩

/-! ## One turn, and the whole iteration -/

section Run

variable {per : Period} {text : Text} {last : ℕ}

/-- The texts of the times before the next period say which of them are behind the last one. -/
structure Reads (per : Period) (text : Text) (start last : ℕ) : Prop where
  cmp_iff : ∀ n, start ≤ n → n < per.next last → (cmp (localtime n) text = .gt ↔ last < n)
  clip : last + 1 = per.next last ∨ text = textAt last

theorem Reads.turn {start : ℕ} (h : Reads per text start last) {s : ℕ} (hstart : start ≤ s)
    (hs : s ≤ last) (out : List (Text × Text)) :
    for_each per text ⟨localtime s, out⟩ =
      .next ⟨localtime (per.next s), out ++ [(textAt s, textAt (min (per.next s - 1) last))]⟩ := by
  have hlt := per.lt_next s
  have hle : s ≤ per.next s - 1 := Nat.le_pred_of_lt hlt
  have hin : per.next s - 1 < per.next s := Nat.sub_one_lt (Nat.ne_zero_of_lt hlt)
  have hlast := per.lt_next last
  have hnext_le : per.next s ≤ per.next last := by
    by_contra hn
    have heq := Period.next_eq_of_lt_next hs (lt_trans hlast (not_le.1 hn))
    exact hn heq.ge
  have hend : endOf per (localtime s) = localtime (per.next s - 1) := by
    rw [endOf_eq, mktime_localtime]
  have hnext : nextOf per (localtime (per.next s - 1)) = localtime (per.next s) := by
    rw [nextOf_eq, mktime_localtime, Period.next_eq_of_lt_next hle hin]
  have hcond : cmp (localtime s) text ≠ .gt := fun hgt ↦
    absurd ((h.cmp_iff s hstart (hs.trans_lt hlast)).1 hgt) (not_lt.2 hs)
  have hchoice : (if cmp (localtime (per.next s - 1)) text = .gt then text
      else textAt (per.next s - 1)) = textAt (min (per.next s - 1) last) := by
    rw [if_congr (h.cmp_iff _ (hstart.trans hle) (by omega)) rfl rfl]
    split_ifs with hgt
    · rw [Nat.min_eq_right hgt.le]
      refine h.clip.resolve_left fun hend ↦ ?_
      omega
    · rw [Nat.min_eq_left (not_lt.1 hgt)]
  rw [for_each_eq, forEachTurn, if_pos hcond]
  dsimp only
  rw [hend, hnext, ← hchoice]
  rfl

theorem Reads.reaches_next {start : ℕ} (h : Reads per text start last) {s : ℕ} (hstart : start ≤ s)
    (hs : s ≤ last) :
    ∃ ps, Tiles per.Same s last ps ∧ ∀ out, Machine.Reaches (for_each per text) ⟨localtime s, out⟩
      ⟨localtime (per.next last), out ++ ps.map fun p ↦ (textAt p.1, textAt p.2)⟩ := by
  -- The rest of the span gets shorter with each period.
  induction hrest : last - s using Nat.strongRecOn generalizing s with
  | ind rest ih =>
    have hlt := per.lt_next s
    rcases Nat.lt_or_ge last (per.next s) with hin | hout
    · have hnext := Period.next_eq_of_lt_next hs hin
      have hmin : min (per.next s - 1) last = last := Nat.min_eq_right (Nat.le_pred_of_lt hin)
      refine ⟨[(s, last)], Tiles.single hs (Period.same_of_lt_next hs hin), fun out ↦ ?_⟩
      have hturn := h.turn hstart hs out
      rw [hmin] at hturn
      rw [hnext]
      exact .head hturn (Machine.reaches_self _)
    · have hmin : min (per.next s - 1) last = per.next s - 1 :=
        Nat.min_eq_left ((Nat.sub_le _ _).trans hout)
      have hsucc : per.next s - 1 + 1 = per.next s := Nat.sub_add_cancel (Nat.one_le_of_lt hlt)
      obtain ⟨ps, htiles, hreaches⟩ := ih (last - per.next s) (by omega) (by omega) hout rfl
      rw [← hsucc] at htiles
      have hsame := Period.same_of_lt_next (Nat.le_pred_of_lt hlt) (Nat.lt_of_succ_le hsucc.le)
      refine ⟨(s, per.next s - 1) :: ps, htiles.cons (Nat.le_pred_of_lt hlt) hsame,
        fun out ↦ ?_⟩
      have hturn := h.turn hstart hs out
      rw [hmin] at hturn
      have hgo := hreaches (out ++ [(textAt s, textAt (per.next s - 1))])
      rw [List.append_assoc] at hgo
      exact .head hturn hgo

theorem Reads.iterates {sp : Span} (h : Reads per (isoText sp.stop) sp.start.mktime sp.stop.mktime)
    (hstop : cmp (localtime (per.next sp.stop.mktime)) (isoText sp.stop) = .gt) :
    Iterates per sp := by
  obtain ⟨ps, htiles, hgo⟩ := h.reaches_next le_rfl sp.le
  have hreaches := hgo []
  rw [localtime_mktime, List.nil_append] at hreaches
  have hturn : for_each per (isoText sp.stop) ⟨localtime (per.next sp.stop.mktime),
      ps.map fun p ↦ (textAt p.1, textAt p.2)⟩ =
      .done (ps.map fun p ↦ (textAt p.1, textAt p.2)) := by
    rw [for_each_eq, forEachTurn, if_neg (not_not.2 hstop)]
  obtain ⟨k, hk⟩ := (Machine.done_iff_of_reaches hreaches).mpr ⟨1, by rw [Machine.after, hturn]⟩
  exact ⟨k, _, hk, ps, textAt, fun _ ↦ Or.inl rfl, rfl, htiles⟩

theorem year_lt_of_le {stop : Tm} {y : ℕ} (hstop : stop.year < y) {s : ℕ} (hs : s ≤ stop.mktime) :
    (localtime s).year < y := by
  have hmono := year_mono hs
  rw [localtime_mktime] at hmono
  exact hmono.trans_lt hstop

theorem Span.year_le (sp : Span) : sp.start.year ≤ sp.stop.year :=
  Nat.lt_succ_iff.1 (localtime_mktime sp.start ▸ year_lt_of_le (Nat.lt_succ_self _) sp.le)

/-- Years of the span that have fewer than four digits come before an end from 9990 on. -/
theorem Span.cmp_eq (sp : Span) (h : 1000 ≤ sp.start.year ∨ 9990 ≤ sp.stop.year) {n : ℕ}
    (hstart : sp.start.mktime ≤ n) (hn : (localtime n).year < 10000) :
    cmp (localtime n) (isoText sp.stop) = .gt ↔ sp.stop.mktime < n := by
  have hyears := sp.year_le
  have hmono : sp.start.year ≤ (localtime n).year := by
    simpa only [localtime_mktime] using year_mono hstart
  rcases Nat.lt_or_ge (localtime n).year 1000 with hshort | hlong
  · obtain ⟨q, hq, hcases⟩ := cmp_of_lt _ sp.stop hshort sp.stop_lt
    have hle : n ≤ sp.stop.mktime := by
      by_contra hlt
      have hstop := year_mono (not_le.1 hlt).le
      rw [localtime_mktime] at hstop
      omega
    rw [hq, if_pos (by omega)]
    exact iff_of_false (by decide) (not_lt.2 hle)
  · rw [DateTime.cmp_eq hlong hn sp.stop_lt, mktime_localtime]
    exact Nat.compare_eq_gt

theorem Span.reads (sp : Span) (h : 1000 ≤ sp.start.year ∨ 9990 ≤ sp.stop.year) :
    Reads per (isoText sp.stop) sp.start.mktime sp.stop.mktime where
  cmp_iff n hstart hn := by
    refine sp.cmp_eq h hstart ?_
    rcases Nat.lt_or_ge n sp.stop.mktime with hlt | hge
    · exact year_lt_of_le sp.stop_lt hlt.le
    · rw [← (Period.same_of_lt_next hge hn).year_eq, localtime_mktime]
      exact sp.stop_lt
  clip := by
    have hyears := sp.year_le
    rw [textAt, localtime_mktime, to_format_string_eq (by omega) sp.stop_lt]
    exact Or.inr rfl

/-! ## Iterations that go wrong -/

theorem mem_out_of_next {it it' : Iteration} {p : Text × Text} (hp : p ∈ it.out)
    (h : for_each per text it = .next it') : p ∈ it'.out := by
  rw [for_each_eq, forEachTurn] at h
  split_ifs at h
  cases h
  exact List.mem_append_left _ hp

theorem eq_out_of_done {it : Iteration} {out : List (Text × Text)}
    (h : for_each per text it = .done out) : it.out = out := by
  rw [for_each_eq, forEachTurn] at h
  split_ifs at h
  exact Move.done.inj h

theorem mem_of_done {it : Iteration} {p : Text × Text} (hp : p ∈ it.out) {k : ℕ}
    {out : List (Text × Text)} (h : Machine.after (for_each per text) k it = .done out) :
    p ∈ out := by
  obtain ⟨t, ht, hend⟩ :=
    Machine.last_of_done (fun _ _ hmem hturn ↦ mem_out_of_next hmem hturn) hp h
  rwa [eq_out_of_done hend] at ht

/-- A part that the iteration calls back with begins with a text that is not behind the end's. -/
theorem Iterates.exists_same {sp : Span} (h : Iterates per sp) {n : ℕ}
    (hstart : sp.start.mktime ≤ n) (hn : n ≤ sp.stop.mktime) :
    ∃ a, (localtime a).year = (localtime n).year ∧ cmp (localtime a) (isoText sp.stop) ≠ .gt := by
  obtain ⟨k, out, hdone, ps, e, -, rfl, htiles⟩ := h
  let P : Iteration → Prop := fun it ↦
    ∀ q ∈ it.out, strncmp q.1 (isoText sp.stop) q.1.length ≠ .gt
  have hP : ∀ s t, P s → for_each per (isoText sp.stop) s = .next t → P t := by
    intro s t hs hturn
    rw [for_each_eq, forEachTurn] at hturn
    split_ifs at hturn with hcond
    cases hturn
    intro q hq
    rcases List.mem_append.mp hq with hq | hq
    · exact hs q hq
    · obtain rfl := List.mem_singleton.mp hq
      exact hcond
  obtain ⟨t, ht, hend⟩ := Machine.last_of_done hP (fun q hq ↦ by cases hq) hdone
  obtain ⟨p, hp, hle, hge⟩ := (htiles.covers n).1 ⟨hstart, hn⟩
  have hmem : (textAt p.1, e p.2) ∈ t.out := by
    rw [eq_out_of_done hend]
    exact List.mem_map_of_mem hp
  have hsame := (htiles.proper p hp).2.year_eq
  have hyear := le_antisymm (year_mono hle) (hsame.ge.trans' (year_mono hge))
  exact ⟨p.1, hyear, ht _ hmem⟩

theorem year_next_le (per : Period) (n : ℕ) :
    (localtime (per.next n)).year ≤ (localtime n).year + 1 := by
  have hmonth := (localtime n).month_div
  have hyear : (localtime (monthStart (((localtime n).year + 1) * 12))).year =
      (localtime n).year + 1 := by
    rw [year_eq, month_monthStart]
    omega
  have hin : n ≤ monthStart (((localtime n).year + 1) * 12) := by
    by_contra hlt
    have hle := (le_month_iff _ _).2 (not_le.1 hlt).le
    omega
  by_contra hlt
  have hnext : monthStart (((localtime n).year + 1) * 12) < per.next n := by
    by_contra hge
    exact hlt (hyear ▸ year_mono (not_lt.1 hge))
  have hsame := (Period.same_of_lt_next hin hnext).year_eq
  omega

theorem cmp_five {date stop : Tm} (hdate : date.year = 10000) (hstop : stop.year = 9999) :
    cmp date (isoText stop) = .lt := by
  have hfive : showNat 10000 = 49 :: [48, 48, 48, 48] := by decide
  have hfour : padded 4 9999 = 57 :: [57, 57, 57] := by decide
  rw [cmp, strncmp, to_format_string, isoText, hdate, hstop, hfive, hfour]
  rfl

theorem length_to_format_string_le {date : Tm} (h : date.year < 10000) :
    (to_format_string date).length ≤ 19 := by
  have hle := length_showNat_le (k := 4) (by decide) h
  rw [to_format_string, List.length_append, length_fields]
  omega

/-- After the last period of the year 9999 the iteration goes on. -/
theorem not_iterates_behind {sp : Span} (h : 1000 ≤ sp.start.year ∨ 9990 ≤ sp.stop.year)
    (hlast : per.LastOf 9999 sp.stop) : ¬Iterates per sp := by
  rintro ⟨k, out, hdone, qs, e, -, rfl, hqs⟩
  obtain ⟨ps, -, hreaches⟩ := (sp.reads h).reaches_next le_rfl sp.le
  have hgo := hreaches []
  rw [localtime_mktime] at hgo
  obtain ⟨m, hm⟩ := (Machine.done_iff_of_reaches hgo).mp ⟨k, hdone⟩
  have hstop : sp.stop.year = 9999 := by
    cases per with
    | day => exact hlast.1
    | month => exact hlast.1
    | year => exact hlast
  have hyear : (localtime (per.next sp.stop.mktime)).year = 10000 := by
    have hlt := (Period.lt_year_next_iff per sp.stop hstop.le).2 hlast
    have hle := year_next_le per sp.stop.mktime
    rw [localtime_mktime] at hle
    omega
  obtain ⟨it, hnext, e', he⟩ : ∃ it,
      for_each per (isoText sp.stop) ⟨localtime (per.next sp.stop.mktime),
        [] ++ ps.map fun p ↦ (textAt p.1, textAt p.2)⟩ = .next it ∧
      ∃ e', (textAt (per.next sp.stop.mktime), e') ∈ it.out := by
    rw [for_each_eq, forEachTurn, if_pos (by rw [cmp_five hyear hstop]; decide)]
    exact ⟨_, rfl, _, List.mem_append_right _ (List.mem_singleton.mpr rfl)⟩
  obtain ⟨m', hm'⟩ := (Machine.done_iff_of_next hnext).mp ⟨m, hm⟩
  obtain ⟨q, hq, heq⟩ := List.mem_map.mp (mem_of_done he hm')
  have htext : textAt q.1 = textAt (per.next sp.stop.mktime) := congrArg Prod.fst heq
  have hlen := length_to_format_string_le (year_lt_of_le sp.stop_lt (hqs.mem_le hq))
  rw [← textAt, htext, textAt, to_format_string, List.length_append, length_fields, hyear] at hlen
  exact absurd hlen (by decide)

theorem lastOfZero_succ : lastOfZero.mktime + 1 = monthStart 12 := by decide

theorem year_eq_zero_iff (n : ℕ) : (localtime n).year = 0 ↔ n ≤ lastOfZero.mktime := by
  have hle := le_month_iff n 12
  have hdiv := (localtime n).month_div
  have hlast := lastOfZero_succ
  omega

theorem next_lastOfZero (per : Period) : per.next lastOfZero.mktime = lastOfZero.mktime + 1 := by
  have hlt := per.lt_next lastOfZero.mktime
  by_contra hne
  have hsame := (Period.same_of_lt_next (Nat.le_succ lastOfZero.mktime)
    (show lastOfZero.mktime + 1 < per.next lastOfZero.mktime by omega)).year_eq
  rw [(year_eq_zero_iff _).2 le_rfl, eq_comm, year_eq_zero_iff] at hsame
  omega

theorem reads_zero (per : Period) {stop : Tm} (h : stop.year = 0) (start : ℕ) :
    Reads per (isoText stop) start lastOfZero.mktime where
  cmp_iff n _ hn := by
    rw [next_lastOfZero] at hn
    have hyear := (year_eq_zero_iff n).2 (Nat.lt_succ_iff.1 hn)
    obtain ⟨q, hq, -⟩ := cmp_of_lt (localtime n) stop (by omega) (by omega)
    rw [hq, if_pos (by omega)]
    exact iff_of_false (by decide) (by omega)
  clip := Or.inl (next_lastOfZero per).symm

theorem textAt_ne {n : ℕ} (h : n < lastOfZero.mktime) :
    textAt lastOfZero.mktime ≠ textAt n ∧ textAt lastOfZero.mktime ≠ isoText (localtime n) := by
  have hyear := (year_eq_zero_iff n).2 h.le
  have hlast : localtime lastOfZero.mktime = lastOfZero := localtime_mktime _
  rw [textAt, textAt, hlast]
  constructor
  · intro heq
    rw [to_format_string, to_format_string, hyear] at heq
    have hfields : fields lastOfZero = fields (localtime n) := List.append_cancel_left heq
    have hkey := strcmp_fields lastOfZero (localtime n) 0 0
    rw [hfields] at hkey
    have hcmp := compare_mktime lastOfZero (localtime n)
    rw [Tm.key, Tm.key, hyear, mktime_localtime] at hcmp
    have hrefl : strcmp (fields (localtime n)) (fields (localtime n)) = .eq :=
      Std.ReflCmp.compare_self
    rw [hrefl] at hkey
    have heq' := Nat.compare_eq_eq.1 (hcmp.trans hkey.symm)
    omega
  · intro heq
    have hlen := congrArg List.length heq
    rw [length_isoText, to_format_string, List.length_append, length_fields] at hlen
    exact absurd hlen (by decide)

/-- In the year 0 the iteration goes on to the end of the year, wherever its end is. -/
theorem not_iterates_zero {sp : Span} (h : sp.stop.year = 0) (hne : sp.stop ≠ lastOfZero) :
    ¬Iterates per sp := by
  rintro ⟨k, out, hdone, qs, e, he, rfl, hqs⟩
  have hstop : sp.stop.mktime < lastOfZero.mktime := by
    have hle := (year_eq_zero_iff sp.stop.mktime).1 (by rw [localtime_mktime]; exact h)
    refine lt_of_le_of_ne hle fun heq ↦ hne ?_
    rw [← localtime_mktime sp.stop, heq, localtime_mktime]
  obtain ⟨ps, htiles, hreaches⟩ :=
    (reads_zero per h sp.start.mktime).reaches_next le_rfl (sp.le.trans hstop.le)
  have hgo := hreaches []
  rw [localtime_mktime] at hgo
  obtain ⟨m, hm⟩ := (Machine.done_iff_of_reaches hgo).mp ⟨k, hdone⟩
  obtain ⟨p, hp, hle, hge⟩ := (htiles.covers _).1 ⟨htiles.le, le_rfl⟩
  have hin := ((htiles.covers p.2).2 ⟨p, hp, (htiles.proper p hp).1, le_rfl⟩).2
  obtain ⟨q, hq, heq⟩ := List.mem_map.mp
    (mem_of_done (List.mem_append_right _ (List.mem_map_of_mem hp)) hm)
  have hq2 := ((hqs.covers q.2).2 ⟨q, hq, (hqs.proper q hq).1, le_rfl⟩).2
  have htext : e q.2 = textAt lastOfZero.mktime :=
    (congrArg Prod.snd heq).trans (congrArg textAt (le_antisymm hin hge))
  obtain ⟨hplain, hiso⟩ := textAt_ne (hq2.trans_lt hstop)
  rcases he q.2 with he | he
  · exact hplain (htext.symm.trans he)
  · exact hiso (htext.symm.trans he)

theorem Iterates.readable {sp : Span} (h : Iterates per sp) : Readable per sp := by
  have hyears := sp.year_le
  have hlt := sp.stop_lt
  by_contra hn
  rw [Readable, not_or, not_and_not_right] at hn
  rcases Nat.eq_zero_or_pos sp.stop.year with hzero | hpos
  · exact not_iterates_zero hzero hn.2 h
  by_cases hread : 1000 ≤ sp.start.year ∨ 9990 ≤ sp.stop.year
  · exact not_iterates_behind hread (hn.1 hread) h
  rw [not_or, not_le, not_le] at hread
  -- a year whose text is behind the end's: the end's own, or the year 999
  obtain ⟨n, hstart, hstop, hyear, hbehind⟩ : ∃ n, sp.start.mktime ≤ n ∧ n ≤ sp.stop.mktime ∧
      (localtime n).year < 1000 ∧ sp.stop.year < 10 * (localtime n).year := by
    rcases Nat.lt_or_ge sp.stop.year 1000 with hshort | hlong
    · refine ⟨sp.stop.mktime, sp.le, le_rfl, ?_⟩
      rw [localtime_mktime]
      omega
    · have hmonth (t : Tm) : 12000 ≤ t.month ↔ monthStart 12000 ≤ t.mktime := by
        rw [← le_month_iff, localtime_mktime]
      have hlast := le_month_iff (monthStart 12000 - 1) 12000
      have hprev := le_month_iff (monthStart 12000 - 1) 11988
      have hless : monthStart 11988 < monthStart 12000 := by
        by_contra hge
        have hle := (le_month_iff _ _).2 (not_lt.1 hge)
        rw [month_monthStart] at hle
        omega
      have hstart := hmonth sp.start
      have hstop := hmonth sp.stop
      have hdiv := sp.start.month_div
      have hdiv' := sp.stop.month_div
      have hdiv'' := (localtime (monthStart 12000 - 1)).month_div
      refine ⟨monthStart 12000 - 1, ?_, ?_, ?_, ?_⟩ <;> omega
  obtain ⟨a, ha, hcmp⟩ := h.exists_same hstart hstop
  obtain ⟨q, hq, hcases⟩ := cmp_of_lt (localtime a) sp.stop (by omega) hlt
  rw [hq, if_neg (by omega)] at hcmp
  exact hcmp rfl

theorem Readable.iterates {sp : Span} (h : Readable per sp) : Iterates per sp := by
  rcases h with ⟨hread, hlast⟩ | hzero
  · refine (sp.reads hread).iterates ((sp.cmp_eq hread ?_ ?_).2 (per.lt_next _))
    · exact sp.le.trans (per.lt_next _).le
    · have hle := not_lt.1
        (mt (Period.lt_year_next_iff per sp.stop (by have := sp.stop_lt; omega)).1 hlast)
      omega
  · have hstop : sp.stop.year = 0 := by
      rw [hzero]
      rfl
    have hreads := reads_zero per hstop sp.start.mktime
    rw [← hzero] at hreads
    refine hreads.iterates ?_
    have hnext : (localtime (per.next sp.stop.mktime)).year = 1 := by
      have hle := year_next_le per lastOfZero.mktime
      have hne := mt (year_eq_zero_iff _).1 (not_le.2 (per.lt_next lastOfZero.mktime))
      rw [(year_eq_zero_iff _).2 le_rfl] at hle
      rw [hzero]
      omega
    obtain ⟨q, hq, hcases⟩ :=
      cmp_of_lt (localtime (per.next sp.stop.mktime)) sp.stop (by omega) sp.stop_lt
    rw [hq, if_neg (by omega)]

end Run

/-- An iteration ends and has called back with the parts of its span exactly if no text of a date
on the way is read wrongly. -/
theorem iterates_iff (per : Period) (sp : Span) : Iterates per sp ↔ Readable per sp :=
  ⟨Iterates.readable, Readable.iterates⟩

/-- The first second of 9999-12-31 -/
def lastMidnight : Tm where
  year := 9999
  mon := 11
  mday := 31
  hour := 0
  min := 0
  sec := 0
  mon_lt := by decide
  one_le_mday := by decide
  mday_le := by decide
  hour_lt := zero_lt_hours
  min_lt := zero_lt_sixty
  sec_lt := zero_lt_sixty

theorem not_iterates : ¬∀ per sp, Iterates per sp := by
  intro h
  let sp : Span := ⟨lastMidnight, lastMidnight, by decide, Nat.le_refl _⟩
  have hbehind : ¬Iterates .day sp := not_iterates_behind (Or.inr (by decide)) ⟨rfl, rfl, rfl⟩
  exact hbehind (h .day sp)

end Libobject.DateTime
