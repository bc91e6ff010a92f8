/-!
# Dates in YAML

Plain scalars that look like a date, or like a date with a time of day, stand for a moment in time
and not for text. Only the form matters here: which moment it is, is never asked.
-/

namespace ShapeCheck.Yaml.Moment

/-- A number of one or two digits in front, and what follows it. -/
def short? : List Char → Option (Nat × List Char)
  | a :: b :: rest =>
    if !a.isDigit then none
    else if b.isDigit then
      some (10 * (a.toNat - '0'.toNat) + (b.toNat - '0'.toNat), rest)
    else some (a.toNat - '0'.toNat, b :: rest)
  | [a] => if a.isDigit then some (a.toNat - '0'.toNat, []) else none
  | [] => none

/-- A short number in a range in front, and what follows it. -/
def within? (low high : Nat) (cs : List Char) : Option (List Char) := do
  let (n, rest) ← short? cs
  if low ≤ n ∧ n ≤ high then some rest else none

/-- A given character in front. -/
def after? (c : Char) : List Char → Option (List Char)
  | d :: rest => if c = d then some rest else none
  | [] => none

/-- How many days a month has. -/
def daysIn (year month : Nat) : Nat :=
  if month = 2 then
    if year % 4 = 0 ∧ (year % 100 ≠ 0 ∨ year % 400 = 0) then 29 else 28
  else if [4, 6, 9, 11].contains month then 30
  else 31

/-- A date in front: a year of four digits, month and day. -/
def date? (cs : List Char) : Option (List Char) := do
  let year := cs.takeWhile Char.isDigit
  if year.length ≠ 4 then none
  let (month, rest) ← short? (← after? '-' (cs.drop 4))
  if month < 1 ∨ 12 < month then none
  let (day, rest) ← short? (← after? '-' rest)
  let y := year.foldl (fun n d => 10 * n + (d.toNat - '0'.toNat)) 0
  if day < 1 ∨ daysIn y month < day then none
  return rest

/-- A time of day in front: hour, minute and second, and a part of a second. -/
def clock? (cs : List Char) : Option (List Char) := do
  let rest ← within? 0 59 (← after? ':' (← within? 0 59 (← after? ':' (← within? 0 23 cs))))
  match rest with
  | '.' :: d :: more => if d.isDigit then some (more.dropWhile Char.isDigit) else some rest
  | _ => some rest

/-- Whether the text is a distance from universal time. -/
def isZone : List Char → Bool
  | ['Z'] => true
  | [sign, a, b, ':', c, d] =>
    (sign = '+' || sign = '-') && [a, b, c, d].all Char.isDigit
  | _ => false

/-- Whether a text is a date or a date with a time of day. -/
def isMoment (text : String) : Bool :=
  match date? text.toList with
  | none => false
  | some [] => true
  | some (c :: rest) =>
    match clock? rest with
    | none => false
    | some zone => if c = 'T' || c = 't' then isZone zone else c = ' ' && zone.isEmpty

end ShapeCheck.Yaml.Moment
