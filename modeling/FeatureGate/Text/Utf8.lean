import FeatureGate.Text.Bytes

/-!
Reading bytes as characters. A well-formed UTF-8 sequence is one character; a
byte that starts no well-formed sequence stands alone as a stray byte. Overlong
forms, surrogates and numbers beyond the last code point are not well formed.
-/

namespace FeatureGate

/-- One unit of a byte string: a character, or a byte that belongs to none. -/
inductive Utf8Unit where
  | char (c : Char)
  | stray (b : UInt8)
deriving DecidableEq, Repr

namespace Utf8

/-- A byte that continues a sequence. -/
def isContinuation (b : UInt8) : Bool := 0x80 ≤ b && b ≤ 0xBF

def payload (b : UInt8) : Nat := b.toNat % 64

/-- Read the unit that starts with `lead`, and give what is left. -/
def unitOf (lead : UInt8) (rest : Bytes) : Utf8Unit × Bytes :=
  if lead < 0x80 then (.char (Char.ofNat lead.toNat), rest)
  else if 0xC2 ≤ lead && lead ≤ 0xDF then
    match rest with
    | b :: rest' =>
        if isContinuation b then
          (.char (Char.ofNat ((lead.toNat % 32) * 64 + payload b)), rest')
        else (.stray lead, rest)
    | [] => (.stray lead, rest)
  else if 0xE0 ≤ lead && lead ≤ 0xEF then
    match rest with
    | b :: b' :: rest' =>
        if isContinuation b && isContinuation b' && (lead != 0xE0 || 0xA0 ≤ b)
            && (lead != 0xED || b ≤ 0x9F) then
          (.char (Char.ofNat
            ((lead.toNat % 16) * 4096 + payload b * 64 + payload b')), rest')
        else (.stray lead, rest)
    | _ => (.stray lead, rest)
  else if 0xF0 ≤ lead && lead ≤ 0xF4 then
    match rest with
    | b :: b' :: b'' :: rest' =>
        if isContinuation b && isContinuation b' && isContinuation b''
            && (lead != 0xF0 || 0x90 ≤ b) && (lead != 0xF4 || b ≤ 0x8F) then
          (.char (Char.ofNat
            ((lead.toNat % 8) * 262144 + payload b * 4096 + payload b' * 64
            + payload b'')), rest')
        else (.stray lead, rest)
    | _ => (.stray lead, rest)
  else (.stray lead, rest)

/-- Reading a unit never gives back more than followed its first byte. -/
theorem length_unitOf_le (lead : UInt8) (rest : Bytes) :
    (unitOf lead rest).2.length ≤ rest.length := by
  unfold unitOf
  repeat' split
  all_goals simp only [List.length_cons]; omega

def units : Bytes → List Utf8Unit
  | [] => []
  | lead :: rest => (unitOf lead rest).1 :: units (unitOf lead rest).2
termination_by bytes => bytes.length
decreasing_by
  have := length_unitOf_le lead rest
  simp only [List.length_cons]
  omega

/-- How many characters a byte string shows, a stray byte counting as one. -/
def count (bytes : Bytes) : Nat := (units bytes).length

def encode (c : Char) : Bytes := String.utf8EncodeChar c

/-- The character that stands for what cannot be read. -/
def replacement : Char := Char.ofNat 0xFFFD

/-- The character of a unit, with the replacement character for a stray byte. -/
def charOf : Utf8Unit → Char
  | .char c => c
  | .stray _ => replacement

/-- The characters of a byte string, each stray byte replaced. -/
def chars (bytes : Bytes) : List Char := (units bytes).map charOf

/-- The bytes of a list of characters. -/
def ofChars (cs : List Char) : Bytes := cs.flatMap encode

/-- Whether every byte belongs to a character. -/
def isValid (bytes : Bytes) : Bool :=
  (units bytes).all fun
    | .char _ => true
    | .stray _ => false

/-- The bytes with every stray byte replaced. -/
def repair (bytes : Bytes) : Bytes := ofChars (chars bytes)

end Utf8

/-- The blank characters: those with the white space property. -/
def isBlank (c : Char) : Bool :=
  let n := c.toNat
  (9 ≤ n && n ≤ 13) || n = 0x20 || n = 0x85 || n = 0xA0 || n = 0x1680
    || (0x2000 ≤ n && n ≤ 0x200A) || n = 0x2028 || n = 0x2029 || n = 0x202F ||
      n = 0x205F
    || n = 0x3000

/-- The lower-case form of a character, for every character whose lower-case
form is ASCII: the ASCII letters, the capital I with a dot and the Kelvin sign.
Any other character stays. -/
def lowerChar (c : Char) : Char :=
  if 'A' ≤ c && c ≤ 'Z' then Char.ofNat (c.toNat + 32)
  else if c.toNat = 0x130 then 'i'
  else if c.toNat = 0x212A then 'k'
  else c

/-- The characters without the blanks at both ends. -/
def trimBlanks (cs : List Char) : List Char :=
  ((cs.dropWhile isBlank).reverse.dropWhile isBlank).reverse

/-- The lower-case characters of a byte string. -/
def lowerChars (bytes : Bytes) : List Char := (Utf8.chars bytes).map lowerChar

end FeatureGate
