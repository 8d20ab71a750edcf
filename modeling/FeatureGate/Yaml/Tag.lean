import FeatureGate.Yaml.Timestamp

/-!
What a scalar is. A plain scalar without a tag is null, a truth value, a number,
a date or a text by its spelling; a quoted one is a text; a tag says it
outright, and must fit the spelling.
-/

namespace FeatureGate

namespace Yaml

inductive Tag where
  | text
  | bool
  | int
  | float
  | null
  | timestamp
  | binary
  | merge
  | other
deriving DecidableEq, Repr

namespace Tag

/-- The common beginning of the standard tags. -/
def standard : List Char := "tag:yaml.org,2002:".toList

/-- The kind that a tag names, in its full or its short spelling. -/
def ofName (name : String) : Tag :=
  let short :=
    if standard.isPrefixOf name.toList then
      some (name.toList.drop standard.length)
    else if ['!', '!'].isPrefixOf name.toList then some (name.toList.drop 2)
    else none
  match short.map String.ofList with
  | some "str" => .text
  | some "bool" => .bool
  | some "int" => .int
  | some "float" => .float
  | some "null" => .null
  | some "timestamp" => .timestamp
  | some "binary" => .binary
  | some "merge" => .merge
  | _ => .other

/-- The value of a letter or digit as a digit. -/
def digitValue (c : Char) : Nat :=
  if c.isDigit then c.toNat - 48
  else if c.isLower then c.toNat - 87
  else if c.isUpper then c.toNat - 55
  else 36

/-- The number written in a base, if all characters are digits of it. -/
def natIn? (base : Nat) (digits : List Char) : Option Nat :=
  if digits.isEmpty || digits.any (fun c => base ≤ digitValue c) then none
  else some (digits.foldl (fun n c => base * n + digitValue c) 0)

/-- The number whose base shows in its first characters: `0x`, `0b`, `0o`, or
`0` alone. -/
def natAnyBase? (text : List Char) : Option Nat :=
  match text with
  | '0' :: 'x' :: rest => natIn? 16 rest
  | '0' :: 'X' :: rest => natIn? 16 rest
  | '0' :: 'b' :: rest => natIn? 2 rest
  | '0' :: 'B' :: rest => natIn? 2 rest
  | '0' :: 'o' :: rest => natIn? 8 rest
  | '0' :: 'O' :: rest => natIn? 8 rest
  | '0' :: c :: rest => natIn? 8 (c :: rest)
  | _ => natIn? 10 text

/-- Whether a text without underscores is an integer of 64 bits, unsigned ones
included. -/
def isInt (text : List Char) : Bool :=
  match text with
  | '-' :: rest => (natAnyBase? rest).any (· ≤ Nat.pow 2 63)
  | '+' :: rest => (natAnyBase? rest).any (· < Nat.pow 2 63)
  | _ => (natAnyBase? text).any (· < Nat.pow 2 64)

/-- The parts of a decimal number: the digits with the point left out, how many
stand behind the point, and the exponent. -/
def decimalParts? (text : List Char) : Option (List Char × Nat × Int) :=
  let body := match text with
    | '-' :: rest => rest
    | '+' :: rest => rest
    | _ => text
  let whole := body.takeWhile Char.isDigit
  let rest := body.drop whole.length
  let fraction := match rest with
    | '.' :: rest => rest.takeWhile Char.isDigit
    | _ => []
  let rest := match rest with
    | '.' :: rest => rest.drop fraction.length
    | _ => rest
  if whole.isEmpty && fraction.isEmpty then none
  else
    match rest with
    | [] => some (whole ++ fraction, fraction.length, 0)
    | e :: rest =>
        if e = 'e' || e = 'E' then
          let negative := rest.head? = some '-'
          let digits :=
            if negative || rest.head? = some '+' then rest.tail else rest
          (natIn? 10 digits).map fun n =>
            (whole ++ fraction, fraction.length,
              if negative then -(n : Int) else n)
        else none

/-- Whether a decimal number is below the least one that is too large for 64
bits. -/
def inRange (digits : List Char) (places : Nat) (exponent : Int) : Bool :=
  let digits := digits.dropWhile (· = '0')
  let scale : Int := exponent - places
  if digits.isEmpty || scale + digits.length < 309 then true
  else if 310 < scale + digits.length then false
  else
    let n := (natIn? 10 digits).getD 0
    let bound := Nat.pow 2 1024 - Nat.pow 2 970
    if 0 ≤ scale then n * Nat.pow 10 scale.toNat < bound
    else n < bound * Nat.pow 10 (-scale).toNat

/-- Whether a text without underscores is a floating-point number. -/
def isFloat (text : List Char) : Bool :=
  match decimalParts? text with
  | some (digits, places, exponent) => inRange digits places exponent
  | none => false

/-- The kind of a spelling. Dates are looked for only where `dates` says so. -/
def ofSpelling (dates : Bool) (text : String) : Tag :=
  if ["true", "True", "TRUE", "false", "False", "FALSE"].contains text then
    .bool
  else if ["", "~", "null", "Null", "NULL"].contains text then .null
  else if [".nan", ".NaN", ".NAN", ".inf", ".Inf", ".INF", "+.inf", "+.Inf",
      "+.INF", "-.inf", "-.Inf", "-.INF"].contains text then .float
  else
    let cs := text.toList
    let bare := cs.filter (· ≠ '_')
    match cs.head? with
    | some '.' => if isFloat cs then .float else .text
    | some c =>
        if c.isDigit || c = '+' || c = '-' then
          if dates && isTimestamp cs then .timestamp
          else if isInt bare then .int
          else if isFloat bare then .float
          else .text
        else .text
    | none => .text

end Tag

end Yaml

end FeatureGate
