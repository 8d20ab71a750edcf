import FeatureGate.Json.Value

/-!
What the inside of a JSON string stands for. Two readings are in use. Config
files are read so that every result is valid text: stray bytes and broken
surrogates become replacement characters. Manifests are read as they stand:
bytes are kept, and a broken surrogate takes the escape after it along.
-/

namespace FeatureGate

namespace Json

/-- Whether a code unit is half of a pair. -/
def isSurrogate (n : Nat) : Bool := 0xD800 ≤ n && n < 0xE000

/-- The character of a code unit, with the rest of the text after it. A
surrogate needs the other half right behind it; without it, a greedy reading
drops any escape that stands there. -/
def joinUnits (greedy : Bool) (unit : Nat) (rest : Bytes) : Char × Bytes :=
  if isSurrogate unit then
    match (Bytes.stripLead? (utf8 "\\u") rest).bind (Quoted.hexNumber? 4) with
    | some (low, rest') =>
        if unit < 0xDC00 && 0xDC00 ≤ low && low < 0xE000 then
          (Char.ofNat (0x10000 + (unit - 0xD800) * 0x400 + (low - 0xDC00)),
            rest')
        else (Utf8.replacement, if greedy then rest' else rest)
    | none => (Utf8.replacement, rest)
  else (Char.ofNat unit, rest)

def letterEscape (kind : UInt8) : UInt8 :=
  if kind = byte 'b' then 8
  else if kind = byte 'f' then 12
  else if kind = byte 'n' then 10
  else if kind = byte 'r' then 13
  else if kind = byte 't' then 9
  else kind

/-- The bytes of a string body, escapes resolved; `limit` bounds the number of
steps. -/
def unescapeUpTo (greedy : Bool) : (limit : Nat) → Bytes → Bytes
  | 0, _ => []
  | _, [] => []
  | limit + 1, b :: rest =>
      if b = byte '\\' then
        match rest with
        | [] => []
        | kind :: rest' =>
            if kind = byte 'u' then
              match Quoted.hexNumber? 4 rest' with
              | some (unit, rest'') =>
                  let (c, left) := joinUnits greedy unit rest''
                  Utf8.encode c ++ unescapeUpTo greedy limit left
              | none => []
            else letterEscape kind :: unescapeUpTo greedy limit rest'
      else b :: unescapeUpTo greedy limit rest

/-- The text of a string body as it stands. -/
def verbatimText (body : Bytes) : Bytes := unescapeUpTo true body.length body

/-- The valid text that a string body stands for. -/
def validText (body : Bytes) : Bytes :=
  Utf8.repair (unescapeUpTo false body.length body)

end Json

end FeatureGate
