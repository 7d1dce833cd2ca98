/-!
# Points in time

An instant is a whole number of milliseconds before or after the start of 1970, at most a hundred
million days away. Its text is the date and time in UTC with three places of a second; a year
outside 0 to 9999 has a sign and six digits.
-/

namespace ClassCohesion

/-- A point in time, in milliseconds since the start of 1970. -/
structure Instant where
  ms : Int
  bounded : ms.natAbs ≤ 8640000000000000

namespace Instant

def epoch : Instant := ⟨0, by decide⟩

/-- The instant at a number of milliseconds, if it is near enough. -/
def ofMs? (ms : Int) : Option Instant :=
  if h : ms.natAbs ≤ 8640000000000000 then some ⟨ms, h⟩ else none

structure Date where
  year : Int
  month : Nat
  day : Nat
deriving Repr, DecidableEq

/-- The date a number of days after the start of 1970. Years are counted from March, so that the day
that is sometimes missing comes last, and in cycles of four hundred, which all have one length. -/
def dateOfDays (days : Int) : Date :=
  let shifted := days + 719468
  let era := shifted.fdiv 146097
  let dayOfEra := (shifted.fmod 146097).toNat
  let yearOfEra :=
    (dayOfEra - dayOfEra / 1460 + dayOfEra / 36524 - dayOfEra / 146096) / 365
  let dayOfYear := dayOfEra - (365 * yearOfEra + yearOfEra / 4 - yearOfEra / 100)
  let fromMarch := (5 * dayOfYear + 2) / 153
  let day := dayOfYear - (153 * fromMarch + 2) / 5 + 1
  let month := if fromMarch < 10 then fromMarch + 3 else fromMarch - 9
  let year := (yearOfEra : Int) + era * 400
  ⟨if month ≤ 2 then year + 1 else year, month, day⟩

def padded (digits n : Nat) : String :=
  let ds := Nat.toDigits 10 n
  String.ofList (List.replicate (digits - ds.length) '0' ++ ds)

def yearText (year : Int) : String :=
  if 0 ≤ year ∧ year ≤ 9999 then padded 4 year.toNat
  else (if year < 0 then "-" else "+") ++ padded 6 year.natAbs

def text (i : Instant) : String :=
  let days := i.ms.fdiv 86400000
  let rest := (i.ms.fmod 86400000).toNat
  let date := dateOfDays days
  yearText date.year ++ "-" ++ padded 2 date.month ++ "-" ++ padded 2 date.day ++ "T" ++
    padded 2 (rest / 3600000) ++ ":" ++ padded 2 (rest / 60000 % 60) ++ ":" ++
    padded 2 (rest / 1000 % 60) ++ "." ++ padded 3 (rest % 1000) ++ "Z"

end Instant

end ClassCohesion
