import FieldCatalog.Decimal.Numeral

/-!
# TOML dates and times

A moment is a date, a time, or a date and a time with or without an offset from universal time. Its
normal spelling has a capital `T` between date and time and a capital `Z` where it names universal
time. A fraction of a second has at most nine digits and no zeros at its end, but at least one
digit; an offset of nothing carries a plus sign. Seconds may be left out, and then stay left out.

## Main definitions

* `Toml.moment?`: the normal spelling of a moment
-/

namespace FieldCatalog.Toml

open Decimal (natural?)

/-- The number written by exactly `count` digits at the front of a text, and the rest. -/
def fixedDigits (count : Nat) (cs : List Char) : Option (Nat × List Char) :=
  let front := cs.take count
  if front.length = count then (natural? front).map fun n => (n, cs.drop count) else none

/-- Whether a year has a day more. -/
def isLeapYear (year : Nat) : Bool :=
  year % 4 = 0 && (year % 100 ≠ 0 || year % 400 = 0)

/-- The number of days of a month. -/
def daysOf (year month : Nat) : Nat :=
  if month = 2 then if isLeapYear year then 29 else 28
  else if month = 4 ∨ month = 6 ∨ month = 9 ∨ month = 11 then 30
  else 31

/-- A date at the front of a text, in its normal spelling, and the rest. -/
def date (cs : List Char) : Option (List Char × List Char) := do
  let (year, rest) ← fixedDigits 4 cs
  match rest with
  | '-' :: rest =>
    let (month, rest) ← fixedDigits 2 rest
    match rest with
    | '-' :: rest =>
      let (day, rest) ← fixedDigits 2 rest
      if 1 ≤ month ∧ month ≤ 12 ∧ 1 ≤ day ∧ day ≤ daysOf year month then some (cs.take 10, rest)
      else none
    | _ => none
  | _ => none

/-- The normal spelling of a fraction of a second: nine digits at most, without zeros at the end
unless there is nothing else. -/
def fraction (digits : List Char) : List Char :=
  let kept := ((digits.take 9).reverse.dropWhile (· == '0')).reverse
  '.' :: if kept.isEmpty then ['0'] else kept

/-- The seconds of a time at the front of a text, in their normal spelling, and the rest. They may
be left out. -/
def seconds (cs : List Char) : Option (List Char × List Char) :=
  match cs with
  | ':' :: cs => do
    let (second, rest) ← fixedDigits 2 cs
    if 60 < second then none
    else
      let spelled := ':' :: cs.take 2
      match rest with
      | '.' :: rest =>
        let digits := rest.takeWhile Char.isDigit
        if digits.isEmpty then none
        else some (spelled ++ fraction digits, rest.dropWhile Char.isDigit)
      | rest => some (spelled, rest)
  | cs => some ([], cs)

/-- A time at the front of a text, in its normal spelling, and the rest. -/
def time (cs : List Char) : Option (List Char × List Char) := do
  let (hour, rest) ← fixedDigits 2 cs
  match rest with
  | ':' :: rest =>
    let (minute, rest) ← fixedDigits 2 rest
    if 23 < hour ∨ 59 < minute then none
    else
      let (spelled, rest) ← seconds rest
      some (cs.take 5 ++ spelled, rest)
  | _ => none

/-- An offset at the front of a text, in its normal spelling, and the rest. -/
def offset (cs : List Char) : Option (List Char × List Char) :=
  match cs with
  | 'Z' :: rest | 'z' :: rest => some (['Z'], rest)
  | sign :: rest =>
    if sign = '+' ∨ sign = '-' then do
      let (hour, after) ← fixedDigits 2 rest
      match after with
      | ':' :: after =>
        let (minute, after) ← fixedDigits 2 after
        if 23 < hour ∨ 59 < minute then none
        else some ((if hour = 0 ∧ minute = 0 then '+' else sign) :: rest.take 5, after)
      | _ => none
    else none
  | [] => none

/-- The whole of a text that has been read to its end. -/
def complete (read : Option (List Char × List Char)) : Option (List Char) :=
  match read with
  | some (spelled, []) => some spelled
  | _ => none

/-- What may follow a date: nothing, or a separator, a time and perhaps an offset. -/
def afterDate (cs : List Char) : Option (List Char) :=
  match cs with
  | [] => some []
  | separator :: rest =>
    if separator = 'T' ∨ separator = 't' ∨ separator = ' ' then do
      let (spelled, rest) ← time rest
      let zone ← if rest.isEmpty then some [] else complete (offset rest)
      some ('T' :: (spelled ++ zone))
    else none

/-- The normal spelling of the moment that a text writes. -/
def moment? (cs : List Char) : Option String :=
  match date cs with
  | some (spelled, rest) => (afterDate rest).map fun more => String.ofList (spelled ++ more)
  | none => (complete (time cs)).map String.ofList

end FieldCatalog.Toml
