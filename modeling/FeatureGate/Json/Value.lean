import FeatureGate.Text.Quoted

/-!
JSON texts. A value keeps the bytes it was written with: numbers and the insides
of strings as they stand, arrays and objects with their whole text, members in
the order of the text and duplicates included. What escapes in a string mean is
left to those who read it.
-/

namespace FeatureGate

/-- A JSON value as it is written. -/
inductive Json where
  | null
  | bool (value : Bool)
  | number (text : Bytes)
  | string (body : Bytes)
  | array (elements : List Json) (text : Bytes)
  | object (members : List (Bytes × Json)) (text : Bytes)
deriving Repr

namespace Json

def raw : Json → Bytes
  | .null => utf8 "null"
  | .bool true => utf8 "true"
  | .bool false => utf8 "false"
  | .number text => text
  | .string body => [byte '"'] ++ body ++ [byte '"']
  | .array _ text => text
  | .object _ text => text

/-- An array of values, written without blanks. -/
def ofElements (elements : List Json) : Json :=
  .array elements
    (utf8 "[" ++ Bytes.join (utf8 ",") (elements.map raw) ++ utf8 "]")

/-- An object of members, written without blanks. -/
def ofMembers (members : List (Bytes × Json)) : Json :=
  let text (m : Bytes × Json) : Bytes :=
    raw (.string m.1) ++ utf8 ":" ++ m.2.raw
  .object members (utf8 "\x7b" ++ Bytes.join (utf8 ",") (members.map text) ++
    utf8 "\x7d")

/-- Blank, tab, line feed and carriage return. -/
def isSpace (b : UInt8) : Bool := b = 32 || b = 9 || b = 10 || b = 13

/-- What follows the blanks at the front. -/
def skipSpace (src : Bytes) : Bytes := src.dropWhile isSpace

/-- The inside of a string whose opening quote has been read, and what follows
the closing one. Control characters and unknown escapes are refused. -/
def stringBody? : Bytes → Option (Bytes × Bytes)
  | [] => none
  | b :: rest =>
      if b = byte '"' then some ([], rest)
      else if b < 32 then none
      else if b = byte '\\' then
        match rest with
        | [] => none
        | kind :: rest' =>
            if kind = byte 'u' then
              match rest' with
              | h₁ :: h₂ :: h₃ :: h₄ :: rest'' =>
                  if [h₁, h₂, h₃, h₄].all Bytes.isHexDigit then
                    (stringBody? rest'').map fun (body, left) =>
                      (b :: kind :: h₁ :: h₂ :: h₃ :: h₄ :: body, left)
                  else none
              | _ => none
            else if (utf8 "\"\\/bfnrt").contains kind then
              (stringBody? rest').map fun (body, left) =>
                (b :: kind :: body, left)
            else none
      else (stringBody? rest).map fun (body, left) => (b :: body, left)

/-- The digits at the front, at least one, and what follows them. -/
def digits? (src : Bytes) : Option (Bytes × Bytes) :=
  match src.span Bytes.isDigit with
  | ([], _) => none
  | found => some found

/-- The whole part of a number: zero, or digits that do not start with zero. -/
def wholePart? : Bytes → Option (Bytes × Bytes)
  | [] => none
  | b :: rest => if b = byte '0' then some ([b], rest) else digits? (b :: rest)

/-- A part of a number that begins with one of the given marks: absent, or read
with its digits. -/
def markedDigits? (marks signs : Bytes) (src : Bytes) :
    Option (Bytes × Bytes) :=
  match src with
  | b :: rest =>
      if marks.contains b then
        match rest with
        | s :: rest' =>
            if signs.contains s then
              (digits? rest').map fun (ds, left) => (b :: s :: ds, left)
            else (digits? rest).map fun (ds, left) => (b :: ds, left)
        | [] => none
      else some ([], src)
  | [] => some ([], src)

def number? (src : Bytes) : Option (Bytes × Bytes) := do
  let (sign, rest) :=
    if src.head? = some (byte '-') then (src.take 1, src.drop 1) else ([], src)
  let (whole, rest) ← wholePart? rest
  let (fraction, rest) ← markedDigits? (utf8 ".") [] rest
  let (exponent, rest) ← markedDigits? (utf8 "eE") (utf8 "+-") rest
  return (sign ++ whole ++ fraction ++ exponent, rest)

mutual

/-- Read a value at the front, nested at most `levels` deep. -/
def readValue (levels : Nat) : (fuel : Nat) → Bytes → Option (Json × Bytes)
  | 0, _ => none
  | fuel + 1, src =>
      match src with
      | [] => none
      | b :: rest =>
          if b = byte '"' then
            (stringBody? rest).map fun (body, left) => (.string body, left)
          else if b = byte '[' then
            match levels with
            | 0 => none
            | levels + 1 =>
                let close (elements : List Json) (left : Bytes) :
                    Json × Bytes :=
                  (.array elements (src.take (src.length - left.length)), left)
                match skipSpace rest with
                | c :: rest' =>
                    if c = byte ']' then some (close [] rest')
                    else
                      (readElements levels fuel (c :: rest')).map
                        fun (es, left) => close es left
                | [] => none
          else if b = 0x7B then
            match levels with
            | 0 => none
            | levels + 1 =>
                let close (members : List (Bytes × Json)) (left : Bytes) :
                    Json × Bytes :=
                  (.object members (src.take (src.length - left.length)), left)
                match skipSpace rest with
                | c :: rest' =>
                    if c = 0x7D then some (close [] rest')
                    else
                      (readMembers levels fuel (c :: rest')).map
                        fun (ms, left) => close ms left
                | [] => none
          else if b = byte '-' || Bytes.isDigit b then
            (number? src).map fun (text, left) => (.number text, left)
          else
            match Bytes.stripLead? (utf8 "null") src with
            | some left => some (.null, left)
            | none =>
                match Bytes.stripLead? (utf8 "true") src with
                | some left => some (.bool true, left)
                | none =>
                    (Bytes.stripLead? (utf8 "false") src).map fun left =>
                      (.bool false, left)

/-- Read the elements of an array that has some, with the closing bracket. -/
def readElements (levels : Nat) :
    (fuel : Nat) → Bytes → Option (List Json × Bytes)
  | 0, _ => none
  | fuel + 1, src =>
      match readValue levels fuel src with
      | none => none
      | some (element, rest) =>
          match skipSpace rest with
          | b :: rest' =>
              if b = byte ']' then some ([element], rest')
              else if b = byte ',' then
                (readElements levels fuel (skipSpace rest')).map
                  fun (elements, left) => (element :: elements, left)
              else none
          | [] => none

/-- Read the members of an object that has some, with the closing brace. -/
def readMembers (levels : Nat) :
    (fuel : Nat) → Bytes → Option (List (Bytes × Json) × Bytes)
  | 0, _ => none
  | fuel + 1, src =>
      match src with
      | [] => none
      | q :: rest =>
          if q = byte '"' then
            match stringBody? rest with
            | none => none
            | some (key, rest) =>
                match skipSpace rest with
                | [] => none
                | c :: rest =>
                    if c = byte ':' then
                      match readValue levels fuel (skipSpace rest) with
                      | none => none
                      | some (value, rest) =>
                          match skipSpace rest with
                          | b :: rest' =>
                              if b = 0x7D then some ([(key, value)], rest')
                              else if b = byte ',' then
                                (readMembers levels fuel (skipSpace rest')).map
                                  fun (members, left) =>
                                    ((key, value) :: members, left)
                              else none
                          | [] => none
                    else none
          else none

end

/-- The value of a text that holds one value, nested at most `levels` deep, and
blanks. -/
def parse? (levels : Nat) (src : Bytes) : Option Json :=
  match readValue levels (2 * src.length + 2) (skipSpace src) with
  | some (value, rest) => if (skipSpace rest).isEmpty then some value else none
  | none => none

end Json

end FeatureGate
