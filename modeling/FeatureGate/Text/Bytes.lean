/-!
Byte strings. Source text, names, values, paths and everything written are
sequences of bytes that need not be valid UTF-8, so the library computes on
`Bytes` and turns to characters only where a rule speaks of characters.
-/

namespace FeatureGate

/-- A string of the program: any sequence of bytes. -/
abbrev Bytes := List UInt8

/-- The UTF-8 bytes of a text. -/
def utf8 (s : String) : Bytes := s.toList.flatMap String.utf8EncodeChar

def byte (c : Char) : UInt8 := c.toUInt8

def decimal (n : Nat) : Bytes := utf8 (toString n)

namespace Bytes

def isLetter (b : UInt8) : Bool :=
  (97 ≤ b && b ≤ 122) || (65 ≤ b && b ≤ 90)

def isDigit (b : UInt8) : Bool := 48 ≤ b && b ≤ 57

/-- The lower-case form of an ASCII letter. -/
def toLower (b : UInt8) : UInt8 := if 65 ≤ b && b ≤ 90 then b + 32 else b

def isHexDigit (b : UInt8) : Bool :=
  isDigit b || (97 ≤ b && b ≤ 102) || (65 ≤ b && b ≤ 70)

/-- The value of a hexadecimal digit; zero for any other byte. -/
def hexValue (b : UInt8) : Nat :=
  if isDigit b then b.toNat - 48
  else if 97 ≤ b && b ≤ 102 then b.toNat - 87
  else if 65 ≤ b && b ≤ 70 then b.toNat - 55
  else 0

/-- The lower-case hexadecimal digit of a number below sixteen. -/
def hexDigit (n : Nat) : UInt8 :=
  if n < 10 then UInt8.ofNat (48 + n) else UInt8.ofNat (87 + n)

/-- The last `width` lower-case hexadecimal digits of a number. -/
def hexDigits : (width n : Nat) → Bytes
  | 0, _ => []
  | width + 1, n => hexDigits width (n / 16) ++ [hexDigit (n % 16)]

/-- The number written by a list of hexadecimal digits. -/
def ofHexDigits (digits : Bytes) : Nat :=
  digits.foldl (fun n d => 16 * n + hexValue d) 0

/-- The number written by a list of decimal digits. -/
def ofDigits (digits : Bytes) : Nat :=
  digits.foldl (fun n d => 10 * n + (d.toNat - 48)) 0

/-- The parts with a separator between each two. -/
def join (sep : Bytes) (parts : List Bytes) : Bytes := sep.intercalate parts

/-- What follows `lead`, when the bytes start with it. -/
def stripLead? : (lead bytes : Bytes) → Option Bytes
  | [], bytes => some bytes
  | _ :: _, [] => none
  | a :: lead, b :: bytes => if a = b then stripLead? lead bytes else none

/-- Cut at the first byte that satisfies the test; the byte itself is in the
second part. -/
def cutAt (p : UInt8 → Bool) (bytes : Bytes) : Bytes × Bytes :=
  bytes.span (fun b => !p b)

/-- Split at every occurrence of one byte; there is always at least one part. -/
def splitOn (sep : UInt8) : Bytes → List Bytes
  | [] => [[]]
  | b :: rest =>
      if b = sep then [] :: splitOn sep rest
      else
        match splitOn sep rest with
        | [] => [[b]]
        | part :: parts => (b :: part) :: parts

/-- Fill up with blanks on the right to at least `width` bytes. -/
def padRight (width : Nat) (bytes : Bytes) : Bytes :=
  bytes ++ List.replicate (width - bytes.length) 32

end Bytes

end FeatureGate
