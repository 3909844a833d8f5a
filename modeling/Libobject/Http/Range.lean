import Libobject.Lib.Decimal

/-!
# Ranges of bytes

What the range plugin makes of the text of a `Range` header and of the size of a file, and the
response to a request for a part. A response counts its bytes in an `int`.
-/

namespace Libobject.Http

open Scan

/-- The value of a number of 64 bits, at which it saturates, and the text behind it; without digits,
the whole text. -/
def strtoll (s : Text) : ℤ × Text :=
  let (neg, body) := scanSign (skipSpace s)
  let digits := body.takeWhile isDigit
  if digits = [] then (0, s)
  else
    let v : ℤ := decimal digits
    (if neg then max (-v) (-2 ^ 63) else min v (2 ^ 63 - 1), body.dropWhile isDigit)

namespace Range

/-- What is returned, with `*start` and `*end`, which are zero before. -/
structure Parsed where
  ret : ℤ
  start : ℤ
  end_ : ℤ
  deriving DecidableEq

/-- The checks behind the three forms. -/
def check (file_size start_val end_val : ℤ) : Parsed :=
  if start_val < 0 ∨ end_val ≥ file_size ∨ start_val > end_val then ⟨-2, 0, 0⟩
  else ⟨0, start_val, end_val⟩

/-- There is no result where a number overflows. -/
def parse_range_header (range_header : Text) (file_size : ℤ) : Option Parsed :=
  if !(ascii "bytes=").isPrefixOf range_header then some ⟨-1, 0, 0⟩
  else
    let range_str := range_header.drop 6
    match range_str.dropWhile (· ≠ 45) with
    | [] => some ⟨-1, 0, 0⟩
    | dash :: behind =>
      if range_str = dash :: behind then
        let n := (strtoll behind).1
        if 2 ^ 63 ≤ file_size - n then none
        else some (check file_size (if file_size - n < 0 then 0 else file_size - n)
          (file_size - 1))
      else
        let (start_val, endptr) := strtoll range_str
        if endptr ≠ dash :: behind then some ⟨-1, 0, 0⟩
        else if behind = [] then some (check file_size start_val (file_size - 1))
        else some (check file_size start_val (strtoll behind).1)

/-- What is set of a response. -/
structure Response where
  status_code : ℕ
  headers : List (Text × Text)
  content_len : Option ℤ
  deriving DecidableEq

/-- `stat` is the size of the file if there is one, and `opens` whether it can be opened. -/
def handler_range (stat : Option ℕ) (range_header : Option Text) (opens : Bool) :
    Option (ℤ × Response) :=
  let failed := (-1, ⟨400, [], none⟩)
  match stat, range_header with
  | none, _ | _, none => some failed
  | some file_size, some range_header => do
    let p ← parse_range_header range_header file_size
    if p.ret = -2 then
      return (0, ⟨416, [(ascii "Content-Range", ascii "bytes */" ++ showNat file_size),
        (ascii "Content-Type", ascii "text/plain; charset=utf-8")], none⟩)
    if p.ret ≠ 0 ∨ !opens then return failed
    let total_range_size := p.end_ - p.start + 1
    return (1, ⟨206, [(ascii "Content-Range", ascii "bytes " ++ showInt p.start ++
        45 :: (showInt p.end_ ++ 47 :: showNat file_size)),
      (ascii "Content-Type", ascii "video/mp4"), (ascii "Accept-Ranges", ascii "bytes")],
        some (BitVec.ofInt 32 total_range_size).toInt⟩)

/-! ## What the header says -/

/-- Decimal digits. -/
def Digits (s : Text) : Prop := s ≠ [] ∧ ∀ c ∈ s, isDigit c = true

instance decidableDigits (s : Text) : Decidable (Digits s) := inferInstanceAs (Decidable (_ ∧ _))

abbrev Numeral := { s : Text // Digits s }

end Range

/-- The three forms of a header. -/
inductive Range
  | between (a b : Range.Numeral)
  | onward (a : Range.Numeral)
  | last (n : Range.Numeral)

namespace Range

def text : Range → Text
  | between a b => ascii "bytes=" ++ (a.val ++ 45 :: b.val)
  | onward a => ascii "bytes=" ++ (a.val ++ [45])
  | last n => ascii "bytes=" ++ 45 :: n.val

/-- The byte `i` of a file of `size` bytes is selected. -/
def Covers (size i : ℕ) : Range → Prop
  | between a b => decimal a.val ≤ i ∧ i ≤ decimal b.val ∧ i < size
  | onward a => decimal a.val ≤ i ∧ i < size
  | last n => size ≤ i + decimal n.val ∧ i < size

/-- A header is accepted exactly if it selects a byte, and then the numbers delimit the bytes that
it selects and the response is as long as these are. -/
def ParsesWell (header : Text) (size : ℕ) : Prop :=
  ∃ p, parse_range_header header size = some p ∧
    (p.ret = 0 ↔ ∃ r : Range, r.text = header ∧ ∃ i, r.Covers size i) ∧
    ∀ r : Range, r.text = header → p.ret = 0 →
      (∀ i : ℕ, r.Covers size i ↔ p.start ≤ i ∧ i ≤ p.end_) ∧
        (0 ≤ p.start ∧ p.start ≤ p.end_ ∧ p.end_ < size) ∧
          ∃ resp, handler_range (some size) (some header) true = some (1, resp) ∧
            resp.content_len = some (p.end_ - p.start + 1)

/-- The headers that go wrong with a file of that size: a range that begins in the file and ends
behind it, a range of too many bytes for an `int`, numbers with blanks or signs in front of them or
something behind that would select a byte, and a number that overflows. -/
inductive Fault (size : ℕ) : Text → Prop
  | beyond (a b : Numeral) : decimal a.val < size → size ≤ decimal b.val →
      Fault size (between a b).text
  | long (r : Range) (i : ℕ) : r.Covers size i → r.Covers size (i + (2 ^ 31 - 1)) →
      Fault size r.text
  | looseLast (s : Text) : ¬Digits s → 0 < (strtoll s).1 → 0 < size →
      Fault size (ascii "bytes=" ++ 45 :: s)
  | looseOnward (s : Text) (a : ℕ) : s ≠ [] → 45 ∉ s → ¬Digits s →
      strtoll (s ++ [45]) = ((a : ℤ), [45]) → a < size → Fault size (ascii "bytes=" ++ (s ++ [45]))
  | looseBetween (s t : Text) (a b : ℕ) : s ≠ [] → 45 ∉ s → t ≠ [] → ¬(Digits s ∧ Digits t) →
      strtoll (s ++ 45 :: t) = ((a : ℤ), 45 :: t) → (strtoll t).1 = b → a ≤ b → b < size →
        Fault size (ascii "bytes=" ++ (s ++ 45 :: t))
  | overflow (s : Text) : (strtoll s).1 + 2 ^ 63 ≤ size → Fault size (ascii "bytes=" ++ 45 :: s)

/-! ## Numbers -/

theorem Digits.dash_notMem {s : Text} (h : Digits s) : 45 ∉ s :=
  fun hmem ↦ (isDigit_eq_true (h.2 45 hmem)).2.1 rfl

theorem strtoll_digits {s rest : Text} (h : Digits s) (hrest : Stops rest) :
    strtoll (s ++ rest) = (min (decimal s : ℤ) (2 ^ 63 - 1), rest) := by
  obtain ⟨htake, hdrop⟩ := takeWhile_digits h.2 hrest
  simp only [strtoll, scanSign_digits h.1 h.2, htake, hdrop, if_neg h.1, Bool.false_eq_true,
    if_false]

theorem strtoll_numeral {s : Text} (h : Digits s) :
    (strtoll s).1 = min (decimal s : ℤ) (2 ^ 63 - 1) := by
  have hread := strtoll_digits h stops_nil
  rw [List.append_nil] at hread
  rw [hread]

theorem strtoll_lt (s : Text) : (strtoll s).1 < 2 ^ 63 := by
  rw [strtoll]
  dsimp only
  split
  · exact Int.pow_pos (by decide)
  · dsimp only
    split <;> omega

/-! ## The three forms -/

theorem check_ret (size start_val end_val : ℤ) :
    (check size start_val end_val).ret = 0 ↔
      0 ≤ start_val ∧ end_val < size ∧ start_val ≤ end_val := by
  rw [check]
  split <;> constructor <;> intro h
  · cases h
  · omega
  · omega
  · rfl

theorem check_eq {size start_val end_val : ℤ}
    (h : 0 ≤ start_val ∧ end_val < size ∧ start_val ≤ end_val) :
    check size start_val end_val = ⟨0, start_val, end_val⟩ := by
  rw [check, if_neg (by omega)]

/-- What stands on both sides of the dash. -/
def parts : Range → Text × Text
  | between a b => (a.val, b.val)
  | onward a => (a.val, [])
  | last n => ([], n.val)

theorem text_eq (r : Range) : r.text = ascii "bytes=" ++ (r.parts.1 ++ 45 :: r.parts.2) := by
  cases r <;> rfl

theorem dash_notMem_parts (r : Range) : 45 ∉ r.parts.1 := by
  cases r with
  | between a b => exact a.2.dash_notMem
  | onward a => exact a.2.dash_notMem
  | last n => exact List.not_mem_nil

theorem cut_dash {s : Text} (hs : 45 ∉ s) (t : Text) :
    (s ++ 45 :: t).takeWhile (· ≠ 45) = s ∧ (s ++ 45 :: t).dropWhile (· ≠ 45) = 45 :: t := by
  have hall : ∀ c ∈ s, decide (c ≠ 45) = true := by
    intro c hc
    exact decide_eq_true fun heq ↦ hs (heq ▸ hc)
  rw [List.takeWhile_append_of_pos hall, List.dropWhile_append_of_pos hall]
  simp

theorem text_eq_iff {r : Range} {s t : Text} (hs : 45 ∉ s) :
    r.text = ascii "bytes=" ++ (s ++ 45 :: t) ↔ r.parts = (s, t) := by
  rw [text_eq, List.append_cancel_left_eq]
  constructor
  · intro h
    obtain ⟨htake, hdrop⟩ := cut_dash r.dash_notMem_parts r.parts.2
    obtain ⟨htake', hdrop'⟩ := cut_dash hs t
    rw [h] at htake hdrop
    exact Prod.ext (htake.symm.trans htake') (List.cons.inj (hdrop.symm.trans hdrop')).2
  · intro h
    rw [h]

theorem isPrefixOf_bytes (s : Text) : (ascii "bytes=").isPrefixOf (ascii "bytes=" ++ s) = true := by
  rw [List.isPrefixOf_iff_prefix]
  exact List.prefix_append _ s

theorem drop_bytes (s : Text) : (ascii "bytes=" ++ s).drop 6 = s := by
  have hlen : (ascii "bytes=").length = 6 := by decide
  exact List.drop_left' hlen

theorem header_cases (header : Text) :
    (∃ s t, 45 ∉ s ∧ header = ascii "bytes=" ++ (s ++ 45 :: t)) ∨
      (∀ size, parse_range_header header size = some ⟨-1, 0, 0⟩) ∧
      ∀ r : Range, r.text ≠ header := by
  by_cases h : ∃ s t, 45 ∉ s ∧ header = ascii "bytes=" ++ (s ++ 45 :: t)
  · exact .inl h
  · refine .inr ⟨fun size ↦ ?_, fun r heq ↦ h ⟨_, _, r.dash_notMem_parts, by rw [← heq, text_eq]⟩⟩
    rw [parse_range_header]
    split
    · rfl
    · next hprefix =>
        rw [Bool.not_eq_true, Bool.not_eq_eq_eq_not, Bool.not_false,
          List.isPrefixOf_iff_prefix] at hprefix
        obtain ⟨rest, rfl⟩ := hprefix
        dsimp only
        rw [drop_bytes]
        cases hdrop : rest.dropWhile (· ≠ 45) with
        | nil => rfl
        | cons c t =>
          have hc : c = 45 := by
            have hhead := List.head?_dropWhile_not (fun c : UInt8 ↦ decide (c ≠ 45)) rest
            rw [hdrop] at hhead
            simpa using hhead
          have hwhole := List.takeWhile_append_dropWhile (p := fun c ↦ decide (c ≠ 45)) (l := rest)
          rw [hdrop, hc] at hwhole
          refine (h ⟨rest.takeWhile (· ≠ 45), t, fun hmem ↦ ?_, by rw [hwhole]⟩).elim
          simpa using List.mem_takeWhile_imp hmem

theorem parse_last (t : Text) (size : ℤ) :
    parse_range_header (ascii "bytes=" ++ 45 :: t) size =
      if 2 ^ 63 ≤ size - (strtoll t).1 then none
      else some (check size (if size - (strtoll t).1 < 0 then 0 else size - (strtoll t).1)
        (size - 1)) := by
  have hdrop := (cut_dash (s := []) List.not_mem_nil t).2
  rw [List.nil_append] at hdrop
  simp only [parse_range_header, isPrefixOf_bytes, drop_bytes, hdrop, Bool.not_true,
    Bool.false_eq_true, if_false, if_true]

theorem parse_numbers {s : Text} (hne : s ≠ []) (hs : 45 ∉ s) (t : Text) (size : ℤ) :
    parse_range_header (ascii "bytes=" ++ (s ++ 45 :: t)) size =
      if (strtoll (s ++ 45 :: t)).2 ≠ 45 :: t then some ⟨-1, 0, 0⟩
      else if t = [] then some (check size (strtoll (s ++ 45 :: t)).1 (size - 1))
      else some (check size (strtoll (s ++ 45 :: t)).1 (strtoll t).1) := by
  have hdrop := (cut_dash hs t).2
  have hself : ¬s ++ 45 :: t = 45 :: t := fun heq ↦ hne (List.append_left_eq_self.mp heq)
  simp only [parse_range_header, isPrefixOf_bytes, drop_bytes, hdrop, hself, Bool.not_true,
    Bool.false_eq_true, if_false]

/-! ## Which headers are read well -/

theorem content_len_eq {header : Text} {size : ℕ} {start end_ : ℤ}
    (h : parse_range_header header size = some ⟨0, start, end_⟩) (hle : start ≤ end_)
    (hlong : end_ - start + 1 < 2 ^ 31) :
    ∃ resp, handler_range (some size) (some header) true = some (1, resp) ∧
      resp.content_len = some (end_ - start + 1) := by
  have hint : (BitVec.ofInt 32 (end_ - start + 1)).toInt = end_ - start + 1 :=
    BitVec.toInt_ofInt_eq_self (by decide) (by omega) (by omega)
  simp only [handler_range, h, Option.bind_eq_bind, Option.bind_some]
  exact ⟨_, rfl, congrArg some hint⟩

theorem content_len_lt {header : Text} {size : ℕ} {resp : Response} {n : ℤ}
    (h : handler_range (some size) (some header) true = some (1, resp))
    (hn : resp.content_len = some n) : n < 2 ^ 31 := by
  rw [handler_range] at h
  cases hp : parse_range_header header size with
  | none => simp [hp] at h
  | some p =>
    simp only [hp, Option.bind_eq_bind, Option.bind_some, Option.pure_def] at h
    split at h
    · cases h
    · split at h
      · cases h
      · obtain rfl := (Prod.mk.inj (Option.some.inj h)).2
        rw [← Option.some.inj hn]
        exact BitVec.toInt_lt

theorem parts_inj {r r' : Range} (h : r.parts = r'.parts) : r = r' := by
  cases r with
  | between a b =>
    cases r' with
    | between a' b' =>
      rw [Subtype.ext (Prod.mk.inj h).1, Subtype.ext (Prod.mk.inj h).2]
    | onward a' => exact (b.2.1 (Prod.mk.inj h).2).elim
    | last n => exact (a.2.1 (Prod.mk.inj h).1).elim
  | onward a =>
    cases r' with
    | between a' b' => exact (b'.2.1 (Prod.mk.inj h).2.symm).elim
    | onward a' => rw [Subtype.ext (Prod.mk.inj h).1]
    | last n => exact (a.2.1 (Prod.mk.inj h).1).elim
  | last n =>
    cases r' with
    | between a' b' => exact (a'.2.1 (Prod.mk.inj h).1.symm).elim
    | onward a' => exact (a'.2.1 (Prod.mk.inj h).1.symm).elim
    | last n' => rw [Subtype.ext (Prod.mk.inj h).2]

theorem text_inj {r r' : Range} (h : r.text = r'.text) : r = r' := by
  rw [text_eq r'] at h
  exact parts_inj ((text_eq_iff r'.dash_notMem_parts).mp h)

section Well

variable {header : Text} {size : ℕ}

theorem ParsesWell.of_refused {p : Parsed} (hp : parse_range_header header size = some p)
    (hret : p.ret ≠ 0) (hnone : ∀ r : Range, r.text = header → ∀ i, ¬r.Covers size i) :
    ParsesWell header size :=
  ⟨p, hp, iff_of_false hret fun ⟨r, hr, i, hi⟩ ↦ hnone r hr i hi, fun _ _ h ↦ (hret h).elim⟩

theorem ParsesWell.of_accepted (hfault : ¬Fault size header) {start end_ : ℤ}
    (hp : parse_range_header header size = some ⟨0, start, end_⟩) {r : Range}
    (hr : r.text = header) (hcovers : ∀ i : ℕ, r.Covers size i ↔ start ≤ i ∧ i ≤ end_)
    (hstart : 0 ≤ start) (hle : start ≤ end_) (hend : end_ < size) : ParsesWell header size := by
  obtain ⟨i, rfl⟩ := Int.eq_ofNat_of_zero_le hstart
  have hfirst : r.Covers size i := (hcovers i).mpr ⟨le_refl _, hle⟩
  have hlong : end_ - i + 1 < 2 ^ 31 := by
    by_contra hlong
    refine hfault (hr ▸ .long r i hfirst ((hcovers _).mpr ⟨?_, ?_⟩)) <;> push_cast <;> omega
  refine ⟨_, hp, iff_of_true rfl ⟨r, hr, i, hfirst⟩, fun r' hr' _ ↦ ?_⟩
  obtain rfl := text_inj (hr'.trans hr.symm)
  exact ⟨hcovers, ⟨hstart, hle, hend⟩, content_len_eq hp hle hlong⟩

theorem well_last (hsize : size < 2 ^ 63) {t : Text}
    (hfault : ¬Fault size (ascii "bytes=" ++ 45 :: t)) :
    ParsesWell (ascii "bytes=" ++ 45 :: t) size := by
  have hparse := parse_last t size
  have hover : ¬(2 : ℤ) ^ 63 ≤ size - (strtoll t).1 := fun hover ↦
    hfault (.overflow t (by omega))
  have hlt := strtoll_lt t
  rw [if_neg hover] at hparse
  by_cases haccepted : 0 < (strtoll t).1 ∧ 0 < size
  · have hdigits : Digits t := by
      by_contra hnot
      exact hfault (.looseLast t hnot haccepted.1 haccepted.2)
    have hvalue := strtoll_numeral hdigits
    rw [check_eq (by split <;> omega)] at hparse
    refine .of_accepted hfault hparse (r := .last ⟨t, hdigits⟩) rfl (fun i ↦ ?_) ?_ ?_ ?_
    · rw [Covers]
      dsimp only
      split <;> omega
    all_goals first | (split <;> omega) | omega
  · refine .of_refused hparse (fun hret ↦ ?_) fun r hr i hi ↦ ?_
    · rw [check_ret] at hret
      split at hret <;> omega
    · have hparts := (text_eq_iff (s := []) List.not_mem_nil).mp hr
      cases r with
      | between a b => exact a.2.1 (Prod.mk.inj hparts).1
      | onward a => exact a.2.1 (Prod.mk.inj hparts).1
      | last n =>
        obtain ⟨n, hn⟩ := n
        obtain rfl : n = t := (Prod.mk.inj hparts).2
        have hvalue := strtoll_numeral hn
        rw [Covers] at hi
        dsimp only at hi
        omega

theorem stops_dash (t : Text) : Stops (45 :: t) := stops_cons (by decide) t

theorem digits_of_text {r : Range} {s t : Text} (hne : s ≠ []) (hs : 45 ∉ s)
    (hr : r.text = ascii "bytes=" ++ (s ++ 45 :: t)) : Digits s ∧ (t = [] ∨ Digits t) := by
  have hparts := (text_eq_iff hs).mp hr
  cases r with
  | between a b => exact ⟨(Prod.mk.inj hparts).1 ▸ a.2, .inr ((Prod.mk.inj hparts).2 ▸ b.2)⟩
  | onward a => exact ⟨(Prod.mk.inj hparts).1 ▸ a.2, .inl (Prod.mk.inj hparts).2.symm⟩
  | last n => exact (hne (Prod.mk.inj hparts).1.symm).elim

theorem well_numbers_refused {s t : Text} (hne : s ≠ []) (hs : 45 ∉ s)
    (hread : (strtoll (s ++ 45 :: t)).2 ≠ 45 :: t) :
    ParsesWell (ascii "bytes=" ++ (s ++ 45 :: t)) size := by
  have hparse := parse_numbers hne hs t size
  rw [if_pos hread] at hparse
  refine .of_refused hparse (by decide) fun r hr i hi ↦ hread ?_
  rw [strtoll_digits (digits_of_text hne hs hr).1 (stops_dash t)]

theorem well_onward (hsize : size < 2 ^ 63) {s : Text} (hne : s ≠ []) (hs : 45 ∉ s)
    (hfault : ¬Fault size (ascii "bytes=" ++ (s ++ [45]))) :
    ParsesWell (ascii "bytes=" ++ (s ++ [45])) size := by
  by_cases hread : (strtoll (s ++ [45])).2 = [45]
  · have hparse := parse_numbers hne hs [] size
    rw [if_neg (not_not.mpr hread), if_pos rfl] at hparse
    by_cases haccepted : 0 ≤ (strtoll (s ++ [45])).1 ∧ (strtoll (s ++ [45])).1 < size
    · have hdigits : Digits s := by
        by_contra hnot
        obtain ⟨a, ha⟩ := Int.eq_ofNat_of_zero_le haccepted.1
        exact hfault (.looseOnward s a hne hs hnot (Prod.ext ha hread) (by omega))
      have hvalue := congrArg Prod.fst (strtoll_digits hdigits (stops_dash []))
      dsimp only at hvalue
      rw [check_eq (by omega)] at hparse
      refine .of_accepted hfault hparse (r := .onward ⟨s, hdigits⟩) rfl (fun i ↦ ?_) ?_ ?_ ?_
      · rw [Covers]
        dsimp only
        omega
      all_goals omega
    · refine .of_refused hparse (fun hret ↦ ?_) fun r hr i hi ↦ ?_
      · rw [check_ret] at hret
        omega
      · have hparts := (text_eq_iff hs).mp hr
        cases r with
        | between a b => exact b.2.1 (Prod.mk.inj hparts).2
        | onward a =>
          obtain ⟨a, ha⟩ := a
          obtain rfl : a = s := (Prod.mk.inj hparts).1
          have hvalue := congrArg Prod.fst (strtoll_digits ha (stops_dash []))
          rw [Covers] at hi
          dsimp only at hi hvalue
          omega
        | last n => exact hne (Prod.mk.inj hparts).1.symm
  · exact well_numbers_refused hne hs hread

theorem well_between (hsize : size < 2 ^ 63) {s t : Text} (hne : s ≠ []) (hs : 45 ∉ s)
    (htne : t ≠ []) (hfault : ¬Fault size (ascii "bytes=" ++ (s ++ 45 :: t))) :
    ParsesWell (ascii "bytes=" ++ (s ++ 45 :: t)) size := by
  by_cases hread : (strtoll (s ++ 45 :: t)).2 = 45 :: t
  · have hparse := parse_numbers hne hs t size
    rw [if_neg (not_not.mpr hread), if_neg htne] at hparse
    by_cases haccepted : 0 ≤ (strtoll (s ++ 45 :: t)).1 ∧ (strtoll t).1 < size ∧
        (strtoll (s ++ 45 :: t)).1 ≤ (strtoll t).1
    · obtain ⟨hdigits, htdigits⟩ : Digits s ∧ Digits t := by
        by_contra hnot
        obtain ⟨a, ha⟩ := Int.eq_ofNat_of_zero_le haccepted.1
        obtain ⟨b, hb⟩ := Int.eq_ofNat_of_zero_le (haccepted.1.trans haccepted.2.2)
        exact hfault (.looseBetween s t a b hne hs htne hnot (Prod.ext ha hread) hb (by omega)
          (by omega))
      have hvalue := congrArg Prod.fst (strtoll_digits hdigits (stops_dash t))
      have htvalue := strtoll_numeral htdigits
      dsimp only at hvalue
      rw [check_eq haccepted] at hparse
      refine .of_accepted hfault hparse (r := .between ⟨s, hdigits⟩ ⟨t, htdigits⟩) rfl
        (fun i ↦ ?_) ?_ ?_ ?_
      · rw [Covers]
        dsimp only
        omega
      all_goals omega
    · refine .of_refused hparse (fun hret ↦ haccepted ((check_ret _ _ _).mp hret)) fun r hr i hi ↦
        ?_
      have hparts := (text_eq_iff hs).mp hr
      cases r with
      | between a b =>
        obtain ⟨a, ha⟩ := a
        obtain ⟨b, hb⟩ := b
        obtain rfl : a = s := (Prod.mk.inj hparts).1
        obtain rfl : b = t := (Prod.mk.inj hparts).2
        have hvalue := congrArg Prod.fst (strtoll_digits ha (stops_dash b))
        have htvalue := strtoll_numeral hb
        have hbeyond : ¬size ≤ decimal b := fun hbeyond ↦
          hfault (.beyond ⟨a, ha⟩ ⟨b, hb⟩ (Nat.lt_of_le_of_lt hi.1 hi.2.2) hbeyond)
        rw [Covers] at hi
        dsimp only at hi hvalue
        omega
      | onward a => exact htne (Prod.mk.inj hparts).2.symm
      | last n => exact hne (Prod.mk.inj hparts).1.symm
  · exact well_numbers_refused hne hs hread

theorem ParsesWell.exists_text (h : ParsesWell header size) {p : Parsed}
    (hp : parse_range_header header size = some p) (hret : p.ret = 0) :
    ∃ r : Range, r.text = header := by
  obtain ⟨q, hq, haccepts, -⟩ := h
  obtain rfl := Option.some.inj (hp.symm.trans hq)
  obtain ⟨r, hr, -⟩ := haccepts.mp hret
  exact ⟨r, hr⟩

theorem not_well_of_fault (hsize : size < 2 ^ 63) (hwell : ParsesWell header size) :
    ¬Fault size header := by
  rintro (⟨a, b, ha, hb⟩ | ⟨r, i, hi, hj⟩ | ⟨t, hnot, hpos, hzero⟩ |
    ⟨s, a, hne, hs, hnot, hread, ha⟩ | ⟨s, t, a, b, hne, hs, htne, hnot, hread, ht, hab, hb⟩ |
      ⟨t, hover⟩)
  · obtain ⟨p, hp, haccepts, -⟩ := hwell
    have hparse := parse_numbers a.2.1 a.2.dash_notMem b.val size
    have hvalue := strtoll_digits a.2 (stops_dash b.val)
    have hbvalue := strtoll_numeral b.2
    rw [hvalue, if_neg (by simp), if_neg b.2.1] at hparse
    obtain rfl := Option.some.inj (hparse.symm.trans hp)
    have hret := haccepts.mpr ⟨.between a b, rfl, decimal a.val, le_refl _, by omega, ha⟩
    rw [check_ret] at hret
    omega
  · obtain ⟨p, hp, haccepts, hparsed⟩ := hwell
    obtain ⟨hcovers, -, resp, hresp, hlen⟩ := hparsed r rfl (haccepts.mpr ⟨r, rfl, i, hi⟩)
    have hlt := content_len_lt hresp hlen
    have hfirst := (hcovers i).mp hi
    have hlast := (hcovers _).mp hj
    push_cast at hlast
    omega
  · have hparse := parse_last t size
    split at hparse
    · obtain ⟨p, hp, -⟩ := hwell
      rw [hparse] at hp
      cases hp
    · obtain ⟨r, hr⟩ := hwell.exists_text hparse (by rw [check_ret]; split <;> omega)
      have hparts := (text_eq_iff (s := []) List.not_mem_nil).mp hr
      cases r with
      | between a b => exact a.2.1 (Prod.mk.inj hparts).1
      | onward a => exact a.2.1 (Prod.mk.inj hparts).1
      | last n => exact hnot ((Prod.mk.inj hparts).2 ▸ n.2)
  · have hparse := parse_numbers hne hs [] size
    rw [hread, if_neg (by simp), if_pos rfl] at hparse
    obtain ⟨r, hr⟩ := hwell.exists_text hparse (by rw [check_ret]; omega)
    exact hnot (digits_of_text hne hs hr).1
  · have hparse := parse_numbers hne hs t size
    rw [hread, ht, if_neg (by simp), if_neg htne] at hparse
    obtain ⟨r, hr⟩ := hwell.exists_text hparse (by rw [check_ret]; omega)
    obtain ⟨hdigits, htdigits⟩ := digits_of_text hne hs hr
    exact hnot ⟨hdigits, htdigits.resolve_left htne⟩
  · obtain ⟨p, hp, -⟩ := hwell
    rw [parse_last, if_pos (by omega)] at hp
    cases hp

end Well

/-- The headers that are read well are those without a fault. The size has 64 bits. -/
theorem parsesWell_iff {size : ℕ} (hsize : size < 2 ^ 63) (header : Text) :
    ParsesWell header size ↔ ¬Fault size header := by
  refine ⟨not_well_of_fault hsize, fun hfault ↦ ?_⟩
  rcases header_cases header with ⟨s, t, hs, rfl⟩ | ⟨hparse, hnone⟩
  · by_cases hne : s = []
    · subst hne
      exact well_last hsize hfault
    · by_cases htne : t = []
      · subst htne
        exact well_onward hsize hne hs hfault
      · exact well_between hsize hne hs htne hfault
  · exact .of_refused (hparse size) (by decide) fun r hr ↦ (hnone r hr).elim

theorem parsesWell_iff_ten :
    10 < 2 ^ 63 ∧ (ParsesWell (ascii "bytes=2-5") 10 ↔ ¬Fault 10 (ascii "bytes=2-5")) :=
  ⟨by decide, parsesWell_iff (by decide) _⟩

set_option maxRecDepth 2000 in
/-- The end of a range behind the end of the file is refused. -/
theorem not_parsesWell : ¬ParsesWell (ascii "bytes=0-10") 10 := by
  rintro ⟨p, hp, haccepts, -⟩
  have hzero : Digits (ascii "0") := by decide
  have hten : Digits (ascii "10") := by decide
  have htext : (between ⟨_, hzero⟩ ⟨_, hten⟩).text = ascii "bytes=0-10" := by
    change ascii "bytes=" ++ (ascii "0" ++ 45 :: ascii "10") = _
    decide
  have hparse : parse_range_header (ascii "bytes=0-10") (10 : ℕ) = some ⟨-2, 0, 0⟩ := by
    decide
  obtain rfl := Option.some.inj (hparse.symm.trans hp)
  have hcovers : (between ⟨_, hzero⟩ ⟨_, hten⟩).Covers 10 0 := by
    change decimal (ascii "0") ≤ 0 ∧ 0 ≤ decimal (ascii "10") ∧ 0 < 10
    decide
  exact absurd (haccepts.mpr ⟨_, htext, 0, hcovers⟩) (by decide)

end Range

end Libobject.Http
