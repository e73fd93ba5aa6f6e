import Coinage.Text.Decimal

/-!
# Calendar dates

The Gregorian calendar, extended to all years from 1 to 9999, and how dates and times are written.
A clock is less than a day away from universal time.
-/

namespace Coinage

def isLeapYear (year : Nat) : Bool := year % 4 = 0 && (year % 100 ≠ 0 || year % 400 = 0)

def daysOfMonth (year month : Nat) : Nat :=
  if month = 2 then if isLeapYear year then 29 else 28
  else if month = 4 || month = 6 || month = 9 || month = 11 then 30
  else 31

inductive CalendarFault where
  | year (n : Nat)
  | month
  | day
  | hour
  | minute
  | second
  /-- The distance from universal time is not less than a day. -/
  | zone (minutes : Int)
deriving DecidableEq, Repr

/-- A length of time as days and the seconds that remain, which are not negative. -/
def shownDuration (minutes : Int) : List Char :=
  let days := minutes / 1440
  let seconds := minutes % 1440 * 60
  "datetime.timedelta(days=".toList ++ signedDecimal days
    ++ (if seconds = 0 then [] else ", seconds=".toList ++ signedDecimal seconds) ++ ")".toList

def CalendarFault.message : CalendarFault → List Char
  | .year n => "year ".toList ++ decimal n ++ " is out of range".toList
  | .month => "month must be in 1..12".toList
  | .day => "day is out of range for month".toList
  | .hour => "hour must be in 0..23".toList
  | .minute => "minute must be in 0..59".toList
  | .second => "second must be in 0..59".toList
  | .zone minutes =>
    "offset must be a timedelta strictly between -timedelta(hours=24) and ".toList
      ++ "timedelta(hours=24), not ".toList ++ shownDuration minutes ++ ".".toList

def dateFault? (year month day : Nat) : Option CalendarFault :=
  if year < 1 || 9999 < year then some (.year year)
  else if month < 1 || 12 < month then some .month
  else if day < 1 || daysOfMonth year month < day then some .day
  else none

def timeFault? (hour minute second : Nat) : Option CalendarFault :=
  if 23 < hour then some .hour
  else if 59 < minute then some .minute
  else if 59 < second then some .second
  else none

/-- The numeral of `n` with zeros in front up to the given width. -/
def padded (width n : Nat) : List Char :=
  List.replicate (width - (decimal n).length) '0' ++ decimal n

def writtenDate (year month day : Nat) : List Char :=
  padded 4 year ++ '-' :: padded 2 month ++ '-' :: padded 2 day

/-- A time of day as it is written; a fraction of zero is left out. -/
def writtenTime (hour minute second microsecond : Nat) : List Char :=
  padded 2 hour ++ ':' :: padded 2 minute ++ ':' :: padded 2 second
    ++ if microsecond = 0 then [] else '.' :: padded 6 microsecond

def writtenZone (minutes : Int) : List Char :=
  (if minutes < 0 then '-' else '+') :: padded 2 (minutes.natAbs / 60) ++ ':' ::
    padded 2 (minutes.natAbs % 60)

end Coinage
