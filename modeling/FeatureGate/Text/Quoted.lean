import FeatureGate.Text.Utf8
import FeatureGate.Text.Printable

/-!
Quoted text. `quote` writes any byte string between double quotes so that only
printable characters appear in it; `unquote?` reads a quoted text back and
refuses a bad escape, a raw line break and anything after the closing quote.
-/

namespace FeatureGate

namespace Quoted

def letterOfControl? (c : Char) : Option Char :=
  match c.toNat with
  | 7 => some 'a'
  | 8 => some 'b'
  | 9 => some 't'
  | 10 => some 'n'
  | 11 => some 'v'
  | 12 => some 'f'
  | 13 => some 'r'
  | _ => none

/-- The control character of a one-letter escape. -/
def controlOfLetter? (b : UInt8) : Option UInt8 :=
  if b = byte 'a' then some 7
  else if b = byte 'b' then some 8
  else if b = byte 't' then some 9
  else if b = byte 'n' then some 10
  else if b = byte 'v' then some 11
  else if b = byte 'f' then some 12
  else if b = byte 'r' then some 13
  else none

/-- A character between the given quote marks: itself when printable, else its
escape. -/
def escapeChar (mark c : Char) : Bytes :=
  if c = mark || c = '\\' then [byte '\\', byte c]
  else if isPrintable c then Utf8.encode c
  else
    match letterOfControl? c with
    | some letter => [byte '\\', byte letter]
    | none =>
        if c.toNat < 0x20 || c.toNat = 0x7F then
          utf8 "\\x" ++ Bytes.hexDigits 2 c.toNat
        else if c.toNat < 0x10000 then utf8 "\\u" ++ Bytes.hexDigits 4 c.toNat
        else utf8 "\\U" ++ Bytes.hexDigits 8 c.toNat

/-- A unit between double quotes; a stray byte is written as the escape of that
byte. -/
def escapeUnit : Utf8Unit → Bytes
  | .char c => escapeChar '"' c
  | .stray b => utf8 "\\x" ++ Bytes.hexDigits 2 b.toNat

/-- The number of `width` hexadecimal digits at the front, and what follows
them. -/
def hexNumber? (width : Nat) (bytes : Bytes) : Option (Nat × Bytes) :=
  if (bytes.take width).length = width
      && (bytes.take width).all Bytes.isHexDigit then
    some (Bytes.ofHexDigits (bytes.take width), bytes.drop width)
  else none

theorem length_hexNumber?_le {width n : Nat} {bytes rest : Bytes}
    (h : hexNumber? width bytes = some (n, rest)) :
    rest.length ≤ bytes.length := by
  unfold hexNumber? at h
  split at h
  · simp only [Option.some.injEq, Prod.mk.injEq] at h
    simp [← h.2]
  · simp at h

/-- Read the escape that follows a backslash: the bytes it stands for, and what
is left. -/
def readEscape? : Bytes → Option (Bytes × Bytes)
  | [] => none
  | kind :: rest =>
      match controlOfLetter? kind with
      | some control => some ([control], rest)
      | none =>
          if kind = byte 'x' then
            (hexNumber? 2 rest).map fun (n, rest') => ([UInt8.ofNat n], rest')
          else if kind = byte 'u' || kind = byte 'U' then
            match hexNumber? (if kind = byte 'u' then 4 else 8) rest with
            | some (n, rest') =>
                if n.isValidChar then some (Utf8.encode (Char.ofNat n), rest')
                else none
            | none => none
          else if byte '0' ≤ kind && kind ≤ byte '7' then
            match rest with
            | d :: d' :: rest' =>
                let octal (b : UInt8) : Bool := byte '0' ≤ b && b ≤ byte '7'
                let n :=
                  (kind.toNat - 48) * 64 + (d.toNat - 48) * 8 + (d'.toNat - 48)
                if octal d && octal d' && n < 256 then
                  some ([UInt8.ofNat n], rest')
                else none
            | _ => none
          else if kind = byte '\\' || kind = byte '"' then some ([kind], rest)
          else none

/-- An escape takes at least the byte that names it. -/
theorem length_readEscape?_lt {bytes value rest : Bytes}
    (h : readEscape? bytes = some (value, rest)) :
    rest.length < bytes.length := by
  unfold readEscape? at h
  repeat' split at h
  all_goals simp_all only [Option.map_eq_some_iff, Prod.mk.injEq,
    Option.some.injEq, reduceCtorEq, List.length_cons]
  all_goals grind [→ length_hexNumber?_le]

/-- Read up to the closing quote, which has to be the last byte. -/
def readBody? : Bytes → Option Bytes
  | [] => none
  | b :: rest =>
      if b = byte '"' then
        if rest.isEmpty then some [] else none
      else if b = byte '\n' then none
      else if b = byte '\\' then
        match _h : readEscape? rest with
        | some (value, rest') => (readBody? rest').map (value ++ ·)
        | none => none
      else
        (readBody? (Utf8.unitOf b rest).2).map
          (Utf8.encode (Utf8.charOf (Utf8.unitOf b rest).1) ++ ·)
termination_by bytes => bytes.length
decreasing_by
  · have := length_readEscape?_lt _h
    simp only [List.length_cons]
    omega
  · have := Utf8.length_unitOf_le b rest
    simp only [List.length_cons]
    omega

end Quoted

def quote (bytes : Bytes) : Bytes :=
  [byte '"'] ++ (Utf8.units bytes).flatMap Quoted.escapeUnit ++ [byte '"']

def quoteChar (c : Char) : Bytes :=
  [byte '\''] ++ Quoted.escapeChar '\'' c ++ [byte '\'']

/-- The byte string that a text in double quotes stands for. -/
def unquote? : Bytes → Option Bytes
  | [] => none
  | b :: rest => if b = byte '"' then Quoted.readBody? rest else none

end FeatureGate
