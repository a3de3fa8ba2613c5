import LiveQuery.Query
import LiveQuery.Proofs.FixedWidth
import Mathlib.Data.Prod.Lex
import Mathlib.Data.String.Basic

/-! The texts of dates and instants, against the order of what they stand for. Every field of a
text has a fixed width and counts for more than those behind it, and the day number of an
instant grows with its civil date. -/

namespace LiveQuery

namespace Date

instance : LinearOrder Date :=
  LinearOrder.lift' (fun d => toLex (d.year, toLex (d.month, d.day))) (by
    rintro ⟨y, m, n, _, _⟩ ⟨y', m', n', _, _⟩ h
    simpa using h)

theorem lt_iff {d e : Date} : d < e ↔ d.year < e.year ∨ d.year = e.year ∧
    (d.month < e.month ∨ d.month = e.month ∧ d.day < e.day) := by
  change toLex (d.year, toLex (d.month, d.day)) < toLex (e.year, toLex (e.month, e.day)) ↔ _
  simp only [Prod.Lex.toLex_lt_toLex]

/-- The days up to the first of March of a year. -/
def daysBefore (year : Int) : Int := 365 * year + year / 4 - year / 100 + year / 400

theorem daysBefore_add_one (year : Int) :
    daysBefore (year + 1) = daysBefore year + 365 + if isLeap (year + 1) then 1 else 0 := by
  simp only [daysBefore, isLeap, Bool.and_eq_true, Bool.or_eq_true, decide_eq_true_eq, ne_eq]
  by_cases h4 : (year + 1) % 4 = 0
  · by_cases h100 : (year + 1) % 100 = 0
    · by_cases h400 : (year + 1) % 400 = 0
      · simp only [h4, h100, h400, not_true, false_or, and_self, if_true]
        omega
      · simp only [h4, h100, h400, not_true, false_or, and_false, if_false]
        omega
    · simp only [h4, h100, not_false_eq_true, true_or, and_self, if_true]
      omega
  · simp only [h4, false_and, if_false]
    omega

theorem daysBefore_mono {y z : Int} (h : y ≤ z) : daysBefore y ≤ daysBefore z := by
  have h4 : y / 4 ≤ z / 4 := by omega
  have h100 : z / 100 - y / 100 ≤ z - y := by omega
  have h400 : y / 400 ≤ z / 400 := by omega
  simp only [daysBefore]
  omega

namespace MarchDay

def count (d : MarchDay) : Int := daysBefore d.year + d.day

/-- The years that are split off leave the day of the year behind. -/
theorem count_ofCount (n : Int) : (ofCount n).count = n := by
  let r := n % 146097
  let c := min (r / 36524) 3
  let s := r - 36524 * c
  let q := s / 1461
  let t := s - 1461 * q
  let y := min (t / 365) 3
  let year := 400 * (n / 146097) + 100 * c + 4 * q + y
  have hc : 0 ≤ c ∧ c ≤ 3 := by omega
  have hs : 0 ≤ s ∧ s ≤ 36524 := by omega
  have hq : 0 ≤ q ∧ q ≤ 24 := by omega
  have hy : 0 ≤ y ∧ y ≤ 3 := by omega
  have h4 : year / 4 = 100 * (n / 146097) + 25 * c + q := by omega
  have h100 : year / 100 = 4 * (n / 146097) + c := by omega
  have h400 : year / 400 = n / 146097 := by omega
  have hday : ((t - 365 * y).toNat : Int) = t - 365 * y := by omega
  change daysBefore year + ((t - 365 * y).toNat : Int) = n
  rw [daysBefore, h4, h100, h400, hday]
  omega

theorem count_lt_daysBefore (d : MarchDay) : d.count < daysBefore (d.year + 1) := by
  have hlt := d.day_lt
  rw [count, daysBefore_add_one]
  by_cases hday : d.day = 365
  · rw [if_pos (d.leap hday)]
    omega
  · have hpos : (0 : Int) ≤ if isLeap (d.year + 1) then 1 else 0 := by split <;> decide
    omega

theorem lt_of_count_lt {d e : MarchDay} (h : d.count < e.count) :
    d.year < e.year ∨ d.year = e.year ∧ d.day < e.day := by
  rcases Int.lt_trichotomy d.year e.year with hlt | heq | hgt
  · exact .inl hlt
  · simp only [count, heq] at h
    exact .inr ⟨heq, by omega⟩
  · have hfirst : daysBefore (e.year + 1) ≤ daysBefore d.year := daysBefore_mono (by omega)
    have hlast := e.count_lt_daysBefore
    have hday : daysBefore d.year ≤ d.count := by
      simp only [count]
      omega
    omega

theorem toDate_lt {d e : MarchDay} (h : d.year < e.year ∨ d.year = e.year ∧ d.day < e.day) :
    d.toDate < e.toDate := by
  have hd := d.day_lt
  have he := e.day_lt
  simp only [lt_iff, toDate]
  split <;> split <;> omega

end MarchDay

variable {n m : Int}

theorem ofDayNumber_lt (h : n < m) : ofDayNumber n < ofDayNumber m := by
  apply MarchDay.toDate_lt
  apply MarchDay.lt_of_count_lt
  rw [MarchDay.count_ofCount, MarchDay.count_ofCount]
  omega

theorem ofDayNumber_inj : ofDayNumber n = ofDayNumber m ↔ n = m := by
  constructor
  · intro h
    by_contra hne
    rcases Int.lt_or_gt_of_ne hne with hlt | hgt
    · exact (ofDayNumber_lt hlt).ne h
    · exact (ofDayNumber_lt hgt).ne' h
  · rintro rfl
    rfl

theorem ofDayNumber_lt_iff : ofDayNumber n < ofDayNumber m ↔ n < m := by
  constructor
  · intro h
    by_contra hnot
    have hle : m < n ∨ m = n := by omega
    rcases hle with hlt | rfl
    · exact lt_asymm h (ofDayNumber_lt hlt)
    · exact lt_irrefl _ h
  · exact ofDayNumber_lt

/-- Years that are written with four digits. -/
def HasPlainYear (d : Date) : Prop := 0 ≤ d.year ∧ d.year ≤ 9999

instance (d : Date) : Decidable d.HasPlainYear := inferInstanceAs (Decidable (_ ∧ _))

theorem day_lt_hundred (d : Date) : d.day < 10 ^ 2 := by
  have hday := d.day_mem
  have hmonth : daysInMonth d.year d.month ≤ 31 := by
    unfold daysInMonth
    split <;> split <;> omega
  omega

theorem chars_lt_iff {d e : Date} {x y : List Char} (hd : d.HasPlainYear) (he : e.HasPlainYear) :
    d.chars ++ x < e.chars ++ y ↔ d < e ∨ d = e ∧ x < y := by
  have hyear (d : Date) (hd : d.HasPlainYear) : yearText d.year = padded 4 d.year.toNat :=
    if_pos hd
  have hy (d : Date) (hd : d.HasPlainYear) : d.year.toNat < 10 ^ 4 := by
    have h := hd.2
    omega
  have hm (d : Date) : d.month < 10 ^ 2 := by
    have h := d.month_mem
    omega
  simp only [chars, hyear d hd, hyear e he, List.append_assoc, List.cons_append,
    padded_append_lt_iff (by decide : 0 < 4) (hy d hd) (hy e he),
    padded_append_lt_iff (by decide : 0 < 2) (hm d) (hm e),
    padded_append_lt_iff (by decide : 0 < 2) d.day_lt_hundred e.day_lt_hundred,
    separator_lt_iff]
  obtain ⟨year, month, day, _, _⟩ := d
  obtain ⟨year', month', day', _, _⟩ := e
  have hd0 := hd.1
  have he0 := he.1
  simp only [lt_iff, mk.injEq] at hd0 he0 ⊢
  by_cases hlt : x < y
  · simp only [hlt, and_true]
    omega
  · simp only [hlt, and_false, or_false]
    omega

theorem toText_lt_iff {d e : Date} (hd : d.HasPlainYear) (he : e.HasPlainYear) :
    d.toText < e.toText ↔ d < e := by
  have h := chars_lt_iff (x := []) (y := []) hd he
  rw [List.append_nil, List.append_nil] at h
  rw [String.lt_iff_toList_lt, toText, toText, String.toList_ofList, String.toList_ofList, h]
  simp

end Date

namespace Timestamp

instance : LinearOrder Timestamp :=
  LinearOrder.lift' (fun t => toLex (t.seconds, t.nanos)) (by
    rintro ⟨s, n, _, _⟩ ⟨s', n', _, _⟩ h
    simpa using h)

theorem lt_iff {t u : Timestamp} :
    t < u ↔ t.seconds < u.seconds ∨ t.seconds = u.seconds ∧ t.nanos < u.nanos := by
  change toLex (t.seconds, t.nanos) < toLex (u.seconds, u.nanos) ↔ _
  simp only [Prod.Lex.toLex_lt_toLex]

/-- The instant cut off to whole milliseconds. -/
def truncate (t : Timestamp) : Timestamp where
  seconds := t.seconds
  nanos := t.nanos / 1000000 * 1000000
  nanos_lt := by
    have h := t.nanos_lt
    omega
  leap h := t.leap (by omega)

theorem truncate_mono : Monotone truncate := by
  intro t u h
  rw [← not_lt, lt_iff] at h ⊢
  simp only [truncate]
  omega

/-- The time of the day, field by field. -/
def clock (t : Timestamp) : List Char :=
  padded 2 (t.seconds / 3600 % 24).toNat ++ ':' :: padded 2 (t.seconds / 60 % 60).toNat ++
    ':' :: padded 2 t.second ++ '.' :: padded 3 (t.subsecond / 1000000) ++ ['Z']

theorem toText_eq (t : Timestamp) : t.toText = String.ofList (t.date.chars ++ 'T' :: t.clock) := by
  simp only [toText, charsWith, clock, List.append_assoc, List.cons_append]

theorem clock_lt_iff (t u : Timestamp) : t.clock < u.clock ↔
    (t.seconds / 3600 % 24).toNat < (u.seconds / 3600 % 24).toNat ∨
      (t.seconds / 3600 % 24).toNat = (u.seconds / 3600 % 24).toNat ∧
        ((t.seconds / 60 % 60).toNat < (u.seconds / 60 % 60).toNat ∨
          (t.seconds / 60 % 60).toNat = (u.seconds / 60 % 60).toNat ∧
            (t.second < u.second ∨ t.second = u.second ∧
              t.subsecond / 1000000 < u.subsecond / 1000000)) := by
  have hh (t : Timestamp) : (t.seconds / 3600 % 24).toNat < 10 ^ 2 := by omega
  have hm (t : Timestamp) : (t.seconds / 60 % 60).toNat < 10 ^ 2 := by omega
  have hs (t : Timestamp) : t.second < 10 ^ 2 := by
    have hn := t.nanos_lt
    simp only [second]
    omega
  have hf (t : Timestamp) : t.subsecond / 1000000 < 10 ^ 3 := by
    simp only [subsecond]
    omega
  simp only [clock, List.append_assoc, List.cons_append,
    padded_append_lt_iff (by decide : 0 < 2) (hh t) (hh u),
    padded_append_lt_iff (by decide : 0 < 2) (hm t) (hm u),
    padded_append_lt_iff (by decide : 0 < 2) (hs t) (hs u),
    padded_append_lt_iff (by decide : 0 < 3) (hf t) (hf u), separator_lt_iff,
    List.lt_irrefl, and_false, or_false]

/-- A leap second comes behind the other seconds of its minute. -/
theorem second_lt_iff (t u : Timestamp) :
    (t.second < u.second ∨ t.second = u.second ∧ t.subsecond / 1000000 < u.subsecond / 1000000) ↔
      t.seconds % 60 < u.seconds % 60 ∨
        t.seconds % 60 = u.seconds % 60 ∧ t.nanos / 1000000 < u.nanos / 1000000 := by
  obtain ⟨s, n, hn, hl⟩ := t
  obtain ⟨s', n', hn', hl'⟩ := u
  simp only [second, subsecond]
  omega

theorem toText_lt_iff {t u : Timestamp} (ht : t.date.HasPlainYear) (hu : u.date.HasPlainYear) :
    t.toText < u.toText ↔ t.truncate < u.truncate := by
  rw [String.lt_iff_toList_lt, toText_eq, toText_eq, String.toList_ofList, String.toList_ofList,
    Date.chars_lt_iff ht hu, separator_lt_iff, clock_lt_iff, second_lt_iff, date, date,
    Date.ofDayNumber_lt_iff, Date.ofDayNumber_inj, lt_iff]
  simp only [truncate]
  have hday : t.seconds / 86400 = t.seconds / 3600 / 24 := by omega
  have hday' : u.seconds / 86400 = u.seconds / 3600 / 24 := by omega
  have hhour : t.seconds / 3600 = t.seconds / 60 / 60 := by omega
  have hhour' : u.seconds / 3600 = u.seconds / 60 / 60 := by omega
  rw [hday, hday', hhour, hhour']
  omega

theorem toText_eq_iff {t u : Timestamp} (ht : t.date.HasPlainYear) (hu : u.date.HasPlainYear) :
    t.toText = u.toText ↔ t.truncate = u.truncate := by
  have hlt := toText_lt_iff ht hu
  have hgt := toText_lt_iff hu ht
  rw [le_antisymm_iff, le_antisymm_iff, ← not_lt, ← not_lt, ← not_lt, ← not_lt, hlt, hgt]

/-- A date is a beginning of the texts of its own day. -/
theorem date_toText_lt_iff {d : Date} {t : Timestamp} (hd : d.HasPlainYear)
    (ht : t.date.HasPlainYear) : d.toText < t.toText ↔ d ≤ t.date := by
  have h := Date.chars_lt_iff (x := []) (y := 'T' :: t.clock) hd ht
  rw [List.append_nil] at h
  rw [String.lt_iff_toList_lt, Date.toText, toText_eq, String.toList_ofList, String.toList_ofList,
    h, le_iff_lt_or_eq]
  simp

end Timestamp

namespace RangeOp

/-- The comparison that an operator asks for. -/
def Holds {α : Type} [LT α] [LE α] (op : RangeOp) (a b : α) : Prop :=
  match op with
  | gt => b < a
  | ge => b ≤ a
  | lt => a < b
  | le => a ≤ b
  | ne => a ≠ b

theorem holds_iff {α β : Type} [LinearOrder α] [LinearOrder β] {a b : α} {c d : β} (op : RangeOp)
    (hlt : a < b ↔ c < d) (hgt : b < a ↔ d < c) : op.Holds a b ↔ op.Holds c d := by
  cases op with
  | gt => exact hgt
  | ge => exact not_lt.symm.trans ((not_congr hlt).trans not_lt)
  | lt => exact hlt
  | le => exact not_lt.symm.trans ((not_congr hgt).trans not_lt)
  | ne =>
    simp only [Holds, ne_iff_lt_or_gt, hlt, hgt]

end RangeOp

/-- Bound texts compare like the times they stand for, to the millisecond, and so do the
conditions that bind them. -/
theorem bound_times_compare {t u : Timestamp} {d e : Date} (ht : t.date.HasPlainYear)
    (hu : u.date.HasPlainYear) (hd : d.HasPlainYear) (he : e.HasPlainYear) :
    ∃ t' u' d' e' : String,
      (Value.timestamp t).toParam = .text t' ∧ (Value.timestamp u).toParam = .text u' ∧
      (Value.date d).toParam = .text d' ∧ (Value.date e).toParam = .text e' ∧
      (t ≤ u → t' ≤ u') ∧ (t' = u' ↔ t.truncate = u.truncate) ∧
      (d' < e' ↔ d < e) ∧ (d' < t' ↔ d ≤ t.date) ∧
      ∀ (op : RangeOp) (field : String),
        (Condition.fragment field (.range op (.timestamp u))).params = [.text u'] ∧
        (op.Holds t' u' ↔ op.Holds t.truncate u.truncate) ∧
        (Condition.fragment field (.range op (.date e))).params = [.text e'] ∧
        (op.Holds d' e' ↔ op.Holds d e) := by
  have hle : t ≤ u → t.toText ≤ u.toText := by
    intro h
    rw [← not_lt, Timestamp.toText_lt_iff hu ht, not_lt]
    exact Timestamp.truncate_mono h
  refine ⟨_, _, _, _, rfl, rfl, rfl, rfl, hle, Timestamp.toText_eq_iff ht hu,
    Date.toText_lt_iff hd he, Timestamp.date_toText_lt_iff hd ht, fun op field => ?_⟩
  have htimes := op.holds_iff (Timestamp.toText_lt_iff ht hu) (Timestamp.toText_lt_iff hu ht)
  have hdates := op.holds_iff (Date.toText_lt_iff hd he) (Date.toText_lt_iff he hd)
  exact ⟨rfl, htimes, rfl, hdates⟩

/-- A leap second before the epoch stands behind its day and before the next. -/
theorem bound_times_compare_leap_second :
    let t : Timestamp := ⟨-1, 1999999999, by decide, by decide⟩
    let u : Timestamp := ⟨0, 0, by decide, by decide⟩
    let d : Date := ⟨1969, 12, 31, by decide, by decide⟩
    let e : Date := ⟨1970, 1, 1, by decide, by decide⟩
    t.date.HasPlainYear ∧ u.date.HasPlainYear ∧ d.HasPlainYear ∧ e.HasPlainYear ∧
      ∃ t' u' d' e' : String,
        (Value.timestamp t).toParam = .text t' ∧ (Value.timestamp u).toParam = .text u' ∧
        (Value.date d).toParam = .text d' ∧ (Value.date e).toParam = .text e' ∧
        t' < u' ∧ d' < e' ∧ d' < t' := by
  intro t u d e
  have ht : t.date.HasPlainYear := by decide
  have hu : u.date.HasPlainYear := by decide
  have hd : d.HasPlainYear := by decide
  have he : e.HasPlainYear := by decide
  obtain ⟨t', u', d', e', htext, hutext, hdtext, hetext, -, -, hdates, hday, hops⟩ :=
    bound_times_compare ht hu hd he
  have htimes : t.truncate < u.truncate := Timestamp.lt_iff.mpr (by decide)
  have hbefore : d < e := Date.lt_iff.mpr (by decide)
  have hown : d = t.date := by decide
  exact ⟨ht, hu, hd, he, t', u', d', e', htext, hutext, hdtext, hetext,
    (hops .lt "").2.1.mpr htimes, hdates.mpr hbefore, hday.mpr hown.le⟩

end LiveQuery
