import FeatureGate.Text.Bytes

/-!
The dates that a YAML scalar may be: a year of four digits, month and day, and
if need be a time of day. After the letter T a time has a zone, after blanks it
has none.
-/

namespace FeatureGate

namespace Yaml

namespace Timestamp

/-- Read one or two digits as a number from `low` to `high`. -/
def number? (low high : Nat) (text : List Char) : Option (Nat × List Char) :=
  let digits := (text.takeWhile Char.isDigit).take 2
  let n := digits.foldl (fun n d => 10 * n + (d.toNat - 48)) 0
  if digits.isEmpty || n < low || high < n then none
  else some (n, text.drop digits.length)

def mark? (c : Char) : List Char → Option (List Char)
  | [] => none
  | d :: rest => if d = c then some rest else none

def daysIn (year month : Nat) : Nat :=
  if month = 2 then
    if year % 4 = 0 && (year % 100 ≠ 0 || year % 400 = 0) then 29 else 28
  else if [4, 6, 9, 11].contains month then 30
  else 31

def date? (text : List Char) : Option (List Char) := do
  let digits := text.takeWhile Char.isDigit
  if digits.length ≠ 4 then none
  let year := digits.foldl (fun n d => 10 * n + (d.toNat - 48)) 0
  let rest ← mark? '-' (text.drop 4)
  let (month, rest) ← number? 1 12 rest
  let rest ← mark? '-' rest
  let (_, rest) ← number? 1 (daysIn year month) rest
  some rest

/-- Skip the fraction of a second, if there is one. -/
def skipFraction (text : List Char) : List Char :=
  match text with
  | mark :: digit :: rest =>
      if (mark = '.' || mark = ',') && digit.isDigit then
        rest.dropWhile Char.isDigit
      else text
  | _ => text

def time? (text : List Char) : Option (List Char) := do
  let (_, rest) ← number? 0 23 text
  let rest ← mark? ':' rest
  let (_, rest) ← number? 0 59 rest
  let rest ← mark? ':' rest
  let (_, rest) ← number? 0 59 rest
  some (skipFraction rest)

/-- Whether the text is a number of two digits up to `high`. -/
def isTwoDigits (high : Nat) (text : List Char) : Bool :=
  text.length = 2 && (number? 0 high text).any fun (_, rest) => rest.isEmpty

/-- Whether the text is a zone: the letter Z, or a sign with hours and
minutes. -/
def isZone (text : List Char) : Bool :=
  text = ['Z'] ||
    ((text.head? = some '+' || text.head? = some '-') &&
      isTwoDigits 24 ((text.drop 1).take 2) &&
      text[3]? = some ':' && isTwoDigits 60 (text.drop 4))

end Timestamp

/-- Whether a scalar is a date, with or without a time of day. -/
def isTimestamp (text : List Char) : Bool :=
  match Timestamp.date? text with
  | none => false
  | some [] => true
  | some (c :: rest) =>
      if c = 'T' || c = 't' then (Timestamp.time? rest).any Timestamp.isZone
      else if c = ' ' then Timestamp.time? (rest.dropWhile (· = ' ')) = some []
      else false

example : isTimestamp "2001-12-14t21:59:43.10-05:00".toList = true := by decide
example : isTimestamp "2001-02-29".toList = false := by decide

end Yaml

end FeatureGate
