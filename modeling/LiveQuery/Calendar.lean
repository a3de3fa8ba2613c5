import LiveQuery.Numeral

/-! Dates of the proleptic Gregorian calendar and instants of universal time, with
their ISO 8601 texts. A day number counts from 1970-01-01; the calendar is read off
it through years that begin in March, so that the leap day comes last. -/

namespace LiveQuery

def isLeap (y : Int) : Bool :=
  y % 4 = 0 && (y % 100 ≠ 0 || y % 400 = 0)

def daysInMonth (y : Int) (m : Nat) : Nat :=
  if m = 2 then (if isLeap y then 29 else 28)
  else if m = 4 ∨ m = 6 ∨ m = 9 ∨ m = 11 then 30 else 31

structure Date where
  year : Int
  month : Nat
  day : Nat
  month_mem : 1 ≤ month ∧ month ≤ 12
  day_mem : 1 ≤ day ∧ day ≤ daysInMonth year month
deriving DecidableEq

namespace Date

def of? (year : Int) (month day : Nat) : Option Date :=
  if hm : 1 ≤ month ∧ month ≤ 12 then
    if hd : 1 ≤ day ∧ day ≤ daysInMonth year month then some ⟨year, month, day, hm, hd⟩ else none
  else none

/-- A year that begins in March, with the day counted from its first. The leap day,
365, occurs when the civil year in which it ends is a leap year. -/
structure MarchDay where
  year : Int
  day : Nat
  day_lt : day < 366
  leap : day = 365 → isLeap (year + 1) = true

/-- Splits a day count from 0000-03-01 into cycles of 400, 100, 4 and 1 years. The
last century and the last year of a cycle take the odd day. -/
def MarchDay.ofCount (n : Int) : MarchDay :=
  let r := n % 146097
  let c := min (r / 36524) 3
  let s := r - 36524 * c
  let q := s / 1461
  let t := s - 1461 * q
  let y := min (t / 365) 3
  let d := t - 365 * y
  { year := 400 * (n / 146097) + 100 * c + 4 * q + y
    day := d.toNat
    day_lt := by omega
    leap := by
      intro h
      simp only [isLeap, Bool.and_eq_true, Bool.or_eq_true, decide_eq_true_eq, ne_eq]
      omega }

/-- Months from March have their first days at 0, 31, 61, 92, …: every fifth part of
`153 m + 2`. -/
def MarchDay.toDate (d : MarchDay) : Date :=
  let m := (5 * d.day + 2) / 153
  let first := (153 * m + 2) / 5
  { year := if m < 10 then d.year else d.year + 1
    month := if m < 10 then m + 3 else m - 9
    day := d.day - first + 1
    month_mem := by have := d.day_lt; split <;> omega
    day_mem := by
      have hd := d.day_lt
      have hl := d.leap
      refine ⟨by omega, ?_⟩
      rcases Nat.lt_or_ge m 11 with hm | hm
      · unfold daysInMonth
        split <;> split <;> (try split) <;> omega
      · have h11 : m = 11 := by omega
        simp only [h11, daysInMonth]
        by_cases h : d.day = 365
        · simp [hl h]; omega
        · simp; split <;> omega }

def ofDayNumber (n : Int) : Date :=
  (MarchDay.ofCount (n + 719468)).toDate

/-- Years 0 to 9999 have four digits; others carry a sign as well. -/
def yearText (y : Int) : List Char :=
  if 0 ≤ y ∧ y ≤ 9999 then padded 4 y.toNat
  else (if y < 0 then '-' else '+') :: padded 4 y.natAbs

def chars (d : Date) : List Char :=
  yearText d.year ++ '-' :: padded 2 d.month ++ '-' :: padded 2 d.day

def toText (d : Date) : String := String.ofList d.chars

end Date

/-- An instant in seconds and nanoseconds from 1970-01-01T00:00:00Z. A leap second is
the second half of the nanosecond range of the last second of a minute. -/
structure Timestamp where
  seconds : Int
  nanos : Nat
  nanos_lt : nanos < 2000000000
  leap : 1000000000 ≤ nanos → seconds % 60 = 59
deriving DecidableEq

namespace Timestamp

def of? (seconds : Int) (nanos : Nat) : Option Timestamp :=
  if hn : nanos < 2000000000 then
    if hl : 1000000000 ≤ nanos → seconds % 60 = 59 then some ⟨seconds, nanos, hn, hl⟩ else none
  else none

def date (t : Timestamp) : Date := Date.ofDayNumber (t.seconds / 86400)

/-- The second of the minute, 60 in a leap second. -/
def second (t : Timestamp) : Nat :=
  (t.seconds % 60).toNat + t.nanos / 1000000000

def subsecond (t : Timestamp) : Nat := t.nanos % 1000000000

def charsWith (t : Timestamp) (fraction : List Char) : List Char :=
  t.date.chars ++ 'T' :: padded 2 (t.seconds / 3600 % 24).toNat ++
    ':' :: padded 2 (t.seconds / 60 % 60).toNat ++ ':' :: padded 2 t.second ++ fraction ++ ['Z']

/-- Always three places, cut off. -/
def toText (t : Timestamp) : String :=
  String.ofList (t.charsWith ('.' :: padded 3 (t.subsecond / 1000000)))

/-- The fewest of 0, 3, 6 and 9 places that lose nothing. -/
def toExactText (t : Timestamp) : String :=
  let n := t.subsecond
  String.ofList (t.charsWith
    (if n = 0 then []
     else if n % 1000000 = 0 then '.' :: padded 3 (n / 1000000)
     else if n % 1000 = 0 then '.' :: padded 6 (n / 1000)
     else '.' :: padded 9 n))

end Timestamp

end LiveQuery
