import TypedRecords.Number.Numeral
import TypedRecords.Text.Reader

/-!
# Dates and times of TOML

Dates, times of day, and both together with or without an offset from universal time. They are read
and written back in one normal form: a `T` between date and time, no final zeros in a fraction of a
second, which has nine digits at most, and an offset with hours and minutes unless it is `Z`.
-/

namespace TypedRecords.Toml

open Reader

/-- A day of the calendar. -/
structure Date where
  year : Nat
  month : Nat
  day : Nat

/-- A time of day. -/
structure Time where
  hour : Nat
  minute : Nat
  second : Nat
  /-- The digits of the fraction of a second. -/
  fraction : List Char

/-- An offset from universal time. -/
inductive Offset where
  | universal
  /-- Hours and minutes ahead, or behind. -/
  | shifted (behind : Bool) (hours minutes : Nat)

namespace Moment

/-- Exactly `count` digits that write a number up to `limit`. -/
def number (count limit : Nat) : Reader Nat := do
  let digits ← exactly count Char.isDigit
  let n := Numeral.ofDigits 0 digits
  if n ≤ limit then pure n else failure

/-- The number of days of a month. -/
def daysIn (year month : Nat) : Nat :=
  if month = 2 then
    if year % 4 = 0 && (year % 100 ≠ 0 || year % 400 = 0) then 29 else 28
  else if month ∈ [4, 6, 9, 11] then 30
  else 31

/-- A date that is in the calendar. -/
def date : Reader Date := do
  let year ← number 4 9999
  char '-'
  let month ← number 2 12
  char '-'
  let day ← number 2 31
  if 1 ≤ month && 1 ≤ day && day ≤ daysIn year month then pure { year, month, day } else failure

/-- A fraction of a second, if there is one. -/
def fraction : Reader (List Char) := do
  if ← skipChar '.' then
    let digits ← run1 Char.isDigit
    pure ((digits.take 9).reverse.dropWhile (· == '0')).reverse
  else pure []

/-- A time of day; a minute may have a leap second. -/
def time : Reader Time := do
  let hour ← number 2 23
  char ':'
  let minute ← number 2 59
  char ':'
  let second ← number 2 60
  let fraction ← fraction
  pure { hour, minute, second, fraction }

/-- An offset, if there is one. -/
def offset : Reader (Option Offset) := do
  match ← peek? with
  | some 'Z' | some 'z' =>
    let _ ← next
    pure (some .universal)
  | some '+' => shifted false
  | some '-' => shifted true
  | _ => pure none
where
  shifted (behind : Bool) : Reader (Option Offset) := do
    let _ ← next
    let hours ← number 2 23
    char ':'
    let minutes ← number 2 59
    pure (some (.shifted behind hours minutes))

/-! ## Normal form -/

/-- A number with zeros in front, up to `width` digits. -/
def padded (width n : Nat) : String :=
  let digits := toString n
  String.ofList (List.replicate (width - digits.length) '0') ++ digits

/-- A date with a year of four digits. -/
def dateText (date : Date) : String :=
  padded 4 date.year ++ "-" ++ padded 2 date.month ++ "-" ++ padded 2 date.day

/-- A time with seconds, and with a fraction only if there is one. -/
def timeText (time : Time) : String :=
  let fraction := if time.fraction.isEmpty then "" else "." ++ String.ofList time.fraction
  padded 2 time.hour ++ ":" ++ padded 2 time.minute ++ ":" ++ padded 2 time.second ++ fraction

/-- An offset; a zero one that is not `Z` is ahead. -/
def offsetText : Offset → String
  | .universal => "Z"
  | .shifted behind hours minutes =>
    let sign := if behind && (0 < hours || 0 < minutes) then "-" else "+"
    sign ++ padded 2 hours ++ ":" ++ padded 2 minutes

/-- A time after a date, with its offset. A blank that no time follows is not part of the date. -/
def timeAfterDate : Reader String := fun text =>
  match text with
  | c :: rest =>
    if c = 'T' || c = 't' || c = ' ' then
      match (number 2 23 <* char ':' : Reader Nat) rest with
      | none => some ("", text)
      | some _ => (do
          let time ← time
          let offset ← offset
          pure ("T" ++ timeText time ++ offset.elim "" offsetText) : Reader String) rest
    else some ("", text)
  | [] => some ("", [])

/-- Whether a text begins like a date. -/
def looksLikeDate (text : List Char) : Bool :=
  (text.take 4).length = 4 && (text.take 4).all Char.isDigit && text[4]? = some '-'

/-- Whether a text begins like a time. -/
def looksLikeTime (text : List Char) : Bool :=
  (text.take 2).length = 2 && (text.take 2).all Char.isDigit && text[2]? = some ':'

/-- A date, a time, or both, in normal form. -/
def text : Reader String := fun input =>
  if looksLikeDate input then
    (do
      let date ← date
      let rest ← timeAfterDate
      pure (dateText date ++ rest) : Reader String) input
  else (timeText <$> time) input

end Moment

end TypedRecords.Toml
