import PineEngine.Fault
import PineEngine.Time.Zone

/-! # Dates

Dates of the proleptic Gregorian calendar, years 1 to 9999, and the seconds since the start of 1970.
-/

namespace PineEngine.Time

def isLeap (year : Int) : Bool :=
  year % 4 == 0 && (year % 100 != 0 || year % 400 == 0)

def daysIn (year month : Int) : Int :=
  if month == 2 then (if isLeap year then 29 else 28)
  else if month == 4 || month == 6 || month == 9 || month == 11 then 30
  else 31

def daysBefore (year month : Int) : Int :=
  (List.range (month.toNat - 1)).foldl (fun days (k : Nat) => days + daysIn year (k + 1)) 0

def dayNumber (year month day : Int) : Int :=
  let y := year - 1
  y * 365 + y / 4 - y / 100 + y / 400 + daysBefore year month + day - 1 - 719162

structure Moment where
  year : Int
  month : Int
  day : Int
  hour : Int
  minute : Int
  second : Int := 0
  deriving Repr

def partLimit : Int := 2147483648

def Moment.ofParts (year month day hour minute : Int) : Except Fault Moment :=
  let m : Moment := { year, month, day, hour, minute }
  if [year, month, day, hour, minute].any fun n => n < -partLimit || partLimit ≤ n then .error .overflow
  else if year < 1 || 9999 < year || month < 1 || 12 < month || day < 1 || daysIn year month < day
      || hour < 0 || 23 < hour || minute < 0 || 59 < minute then .error .value
  else .ok m

def Moment.seconds (m : Moment) : Int :=
  ((dayNumber m.year m.month m.day * 24 + m.hour) * 60 + m.minute) * 60 + m.second

/-- The year of a day, found among the years from `year` on; `fuel` bounds the search. -/
def yearFrom (fuel : Nat) (days year : Int) : Int :=
  match fuel with
  | 0 => year
  | fuel + 1 => if dayNumber (year + 1) 1 1 ≤ days then yearFrom fuel days (year + 1) else year

def monthFrom (fuel : Nat) (year days month : Int) : Int :=
  match fuel with
  | 0 => month
  | fuel + 1 =>
    if dayNumber year (month + 1) 1 ≤ days && month < 12 then monthFrom fuel year days (month + 1) else month

def Moment.ofSeconds (s : Int) : Moment :=
  let days := s / 86400
  let rest := s % 86400
  let guess := 1970 + days / (if days < 0 then 365 else 366)
  let year := yearFrom (days.natAbs / 365 + 2) days guess
  let month := monthFrom 12 year days 1
  { year, month, day := days - dayNumber year month 1 + 1,
    hour := rest / 3600, minute := rest / 60 % 60, second := rest % 60 }

end PineEngine.Time
