import FeatureGate.Text.Utf8

/-!
JSON as it is written. Every text is valid: a stray byte becomes the replacement
character. The characters that mean something in markup, and the two line
separators, are escaped.
-/

namespace FeatureGate

/-- A value to be written as JSON. -/
inductive JsonOutput where
  | null
  | bool (value : Bool)
  | number (value : Nat)
  | text (value : Bytes)
  | list (elements : List JsonOutput)
  | record (fields : List (String × JsonOutput))
deriving Repr

namespace JsonOutput

def shortEscape? (c : Char) : Option Char :=
  match c.toNat with
  | 0x08 => some 'b'
  | 0x09 => some 't'
  | 0x0A => some 'n'
  | 0x0C => some 'f'
  | 0x0D => some 'r'
  | 0x22 => some '"'
  | 0x5C => some '\\'
  | _ => none

/-- Whether a character is written by its number. -/
def isEscaped (c : Char) : Bool :=
  c.toNat < 0x20 || c = '<' || c = '>' || c = '&' || c.toNat = 0x2028 ||
    c.toNat = 0x2029

def escapeChar (c : Char) : Bytes :=
  match shortEscape? c with
  | some letter => [byte '\\', byte letter]
  | none =>
      if isEscaped c then utf8 "\\u" ++ Bytes.hexDigits 4 c.toNat
      else Utf8.encode c

def quoted (value : Bytes) : Bytes :=
  [byte '"'] ++ (Utf8.chars value).flatMap escapeChar ++ [byte '"']

/-- A list without elements has no value of its own in some outputs. -/
def listOrNull (elements : List JsonOutput) : JsonOutput :=
  if elements.isEmpty then .null else .list elements

def newline (depth : Nat) : Bytes :=
  byte '\n' :: List.replicate (2 * depth) (byte ' ')

mutual

/-- A value over several lines, two blanks for each level. -/
def render (depth : Nat) : JsonOutput → Bytes
  | .null => utf8 "null"
  | .bool true => utf8 "true"
  | .bool false => utf8 "false"
  | .number n => decimal n
  | .text value => quoted value
  | .list [] => utf8 "[]"
  | .list (x :: xs) =>
      [byte '['] ++ newline (depth + 1) ++ render (depth + 1) x ++ renderRest
        (depth + 1) xs
        ++ newline depth ++ [byte ']']
  | .record [] => utf8 "\x7b\x7d"
  | .record ((name, x) :: fields) =>
      [byte '\x7b'] ++ newline (depth + 1) ++ quoted (utf8 name) ++ utf8 ": "
        ++ render (depth + 1) x ++ renderFields (depth + 1) fields ++
          newline depth ++ [byte '\x7d']

def renderRest (depth : Nat) : List JsonOutput → Bytes
  | [] => []
  | x :: xs =>
      [byte ','] ++ newline depth ++ render depth x ++ renderRest depth xs

def renderFields (depth : Nat) : List (String × JsonOutput) → Bytes
  | [] => []
  | (name, x) :: fields =>
      [byte ','] ++ newline depth ++ quoted (utf8 name) ++ utf8 ": " ++
        render depth x
        ++ renderFields depth fields

end

mutual

def line : JsonOutput → Bytes
  | .null => utf8 "null"
  | .bool true => utf8 "true"
  | .bool false => utf8 "false"
  | .number n => decimal n
  | .text value => quoted value
  | .list elements => [byte '['] ++ lineOfList true elements ++ [byte ']']
  | .record fields => [byte '\x7b'] ++ lineOfFields true fields ++ [byte '\x7d']

/-- The elements of a list in one line. -/
def lineOfList (first : Bool) : List JsonOutput → Bytes
  | [] => []
  | x :: xs =>
      (if first then [] else [byte ',']) ++ line x ++ lineOfList false xs

/-- The fields of a record in one line. -/
def lineOfFields (first : Bool) : List (String × JsonOutput) → Bytes
  | [] => []
  | (name, x) :: fields =>
      (if first then [] else [byte ',']) ++ quoted (utf8 name) ++
        [byte ':'] ++ line x
        ++ lineOfFields false fields

end

end JsonOutput

end FeatureGate
