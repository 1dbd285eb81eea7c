import Extraction.Text.Decimal

/-!
# Points in time

A day, written as year, month and day, and a time of day after it, with a time zone or after blanks
without one.
-/

namespace Extraction.Yaml

/-- A time zone: the common one, or its distance from it in minutes. -/
inductive Zone where
  | common
  | distant (minutes : Int)
deriving DecidableEq, Repr

structure Timestamp where
  year : Nat
  month : Nat
  day : Nat
  hour : Nat := 0
  minute : Nat := 0
  second : Nat := 0
  nanosecond : Nat := 0
  zone : Zone := .common
deriving DecidableEq, Repr

namespace Timestamp

def daysIn (year month : Nat) : Nat :=
  if month = 2 then if year % 4 = 0 ∧ (year % 100 ≠ 0 ∨ year % 400 = 0) then 29 else 28
  else if month ∈ [4, 6, 9, 11] then 30
  else 31

def number? : List Char → Option (Nat × List Char)
  | a :: b :: rest =>
    if !a.isDigit then none
    else if b.isDigit then some (Decimal.natural [a, b], rest)
    else some (Decimal.natural [a], b :: rest)
  | [a] => if a.isDigit then some (Decimal.natural [a], []) else none
  | [] => none

def after? (c : Char) : List Char → Option (List Char)
  | d :: rest => if d = c then some rest else none
  | [] => none

/-- The fraction of a second, which may be missing, in nanoseconds, and what follows it. -/
def fraction (cs : List Char) : Nat × List Char :=
  match cs with
  | mark :: d :: rest =>
    if (mark = '.' ∨ mark = ',') ∧ d.isDigit then
      let digits := (d :: rest.takeWhile Char.isDigit).take 9
      (Decimal.natural (digits ++ List.replicate (9 - digits.length) '0'),
        rest.dropWhile Char.isDigit)
    else (0, cs)
  | _ => (0, cs)

def clock? (day : Timestamp) (cs : List Char) : Option (Timestamp × List Char) := do
  let (hour, cs) ← number? cs
  let (minute, cs) ← number? (← after? ':' cs)
  let (second, cs) ← number? (← after? ':' cs)
  let (nanosecond, cs) := fraction cs
  if hour < 24 ∧ minute < 60 ∧ second < 60 then
    some ({ day with hour, minute, second, nanosecond }, cs)
  else none

def zone? : List Char → Option Zone
  | ['Z'] => some .common
  | [sign, a, b, ':', c, d] =>
    let hours := Decimal.natural [a, b]
    let minutes := Decimal.natural [c, d]
    if (sign = '+' ∨ sign = '-') ∧ [a, b, c, d].all Char.isDigit ∧ hours ≤ 24 ∧ minutes ≤ 60 then
      let distance : Int := 60 * hours + minutes
      some (.distant (if sign = '-' then -distance else distance))
    else none
  | _ => none

/-- A day with what may follow it: nothing, or a time of day. -/
def withTime? (day : Timestamp) : List Char → Option Timestamp
  | [] => some day
  | mark :: rest =>
    if mark = 'T' ∨ mark = 't' then do
      let (t, rest) ← clock? day rest
      let zone ← zone? rest
      some { t with zone }
    else if mark = ' ' then do
      let (t, rest) ← clock? day (rest.dropWhile (· == ' '))
      if rest.isEmpty then some t else none
    else none

def read? (cs : List Char) : Option Timestamp := do
  if (cs.takeWhile Char.isDigit).length ≠ 4 then none
  let year := Decimal.natural (cs.take 4)
  let (month, rest) ← number? (← after? '-' (cs.drop 4))
  let (day, rest) ← number? (← after? '-' rest)
  if 1 ≤ month ∧ month ≤ 12 ∧ 1 ≤ day ∧ day ≤ daysIn year month then
    withTime? { year, month, day } rest
  else none

def monthNames : List String :=
  ["January", "February", "March", "April", "May", "June", "July", "August", "September", "October",
    "November", "December"]

/-- A zone as shown in messages.  One at no distance is the local one. -/
def describeZone : Zone → String
  | .common => "time.UTC"
  | .distant 0 => "time.Local"
  | .distant _ => "time.Location(\"\")"

def describe (t : Timestamp) : String :=
  let month := "time." ++ monthNames.getD (t.month - 1) ""
  let rest := [t.day, t.hour, t.minute, t.second, t.nanosecond].map toString
  "time.Date(" ++ ", ".intercalate (toString t.year :: month :: (rest ++ [describeZone t.zone])) ++
    ")"

end Timestamp

end Extraction.Yaml
