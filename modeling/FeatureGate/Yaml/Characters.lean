import FeatureGate.Text.Utf8

/-!
The characters of a YAML stream. A stream is read as UTF-8, or as UTF-16 when it
begins with the byte order mark of that encoding; a byte order mark is not part
of the text. Bytes that are no characters, and control characters, are refused.

A reader that takes in a stream piece by piece may stop before it comes to such
bytes. Here the stream is checked as a whole, so that bad bytes behind the first
document are a fault too, although nothing else of what stands there is looked
at.
-/

namespace FeatureGate

namespace Yaml

/-- The characters that may stand in a stream. -/
def isAllowed (c : Char) : Bool :=
  let n := c.toNat
  n = 0x09 || n = 0x0A || n = 0x0D || (0x20 ≤ n && n ≤ 0x7E) || n = 0x85
    || (0xA0 ≤ n && n ≤ 0xD7FF) || (0xE000 ≤ n && n ≤ 0xFFFD) || 0x10000 ≤ n

/-- The 16-bit units of a byte string, with the bytes of each put in order by
`join`. -/
def units16? (join : UInt8 → UInt8 → Nat) : Bytes → Option (List Nat)
  | [] => some []
  | [_] => none
  | a :: b :: rest => (units16? join rest).map (join a b :: ·)

/-- The characters of 16-bit units; a surrogate needs the other half behind
it. -/
def charsOfUnits? : List Nat → Option (List Char)
  | [] => some []
  | u :: rest =>
      if 0xD800 ≤ u && u < 0xDC00 then
        match rest with
        | v :: rest' =>
            if 0xDC00 ≤ v && v < 0xE000 then
              (charsOfUnits? rest').map
                (Char.ofNat
                  (0x10000 + (u - 0xD800) * 0x400 + (v - 0xDC00)) :: ·)
            else none
        | [] => none
      else if 0xDC00 ≤ u && u < 0xE000 then none
      else (charsOfUnits? rest).map (Char.ofNat u :: ·)

def charsOfUtf8? (bytes : Bytes) : Option (List Char) :=
  if Utf8.isValid bytes then some (Utf8.chars bytes) else none

/-- The characters of a stream in any of the encodings. -/
def decode? (bytes : Bytes) : Option (List Char) :=
  match bytes with
  | 0xFF :: 0xFE :: rest =>
      (units16? (fun a b => a.toNat + 256 * b.toNat) rest).bind charsOfUnits?
  | 0xFE :: 0xFF :: rest =>
      (units16? (fun a b => 256 * a.toNat + b.toNat) rest).bind charsOfUnits?
  | 0xEF :: 0xBB :: 0xBF :: rest => charsOfUtf8? rest
  | _ => charsOfUtf8? bytes

/-- The text of a stream, if all its characters are allowed, also those that
nobody would come to. -/
def text? (bytes : Bytes) : Option (List Char) :=
  match decode? bytes with
  | some cs => if cs.all isAllowed then some cs else none
  | none => none

/-- A line break: line feed, carriage return, next line, line and paragraph
separator. -/
def isBreak (c : Char) : Bool :=
  c = '\n' || c = '\r' || c.toNat = 0x85 || c.toNat = 0x2028 || c.toNat = 0x2029

def isBlank (c : Char) : Bool := c = ' ' || c = '\t'

/-- Letters, digits, the hyphen and the underscore. -/
def isWordChar (c : Char) : Bool := c.isAlphanum || c = '_' || c = '-'

/-- Whether a word ends here: before a blank, a break or the end of the
stream. -/
def endsWord : List Char → Bool
  | [] => true
  | c :: _ => isBlank c || isBreak c

def endsLine : List Char → Bool
  | [] => true
  | c :: _ => isBreak c

/-- What is left of a line break in a folded text: most breaks are written as a
line feed. -/
def normalBreak (c : Char) : Char :=
  if c.toNat = 0x2028 || c.toNat = 0x2029 then c else '\n'

end Yaml

end FeatureGate
