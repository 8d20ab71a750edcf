import FeatureGate.Text.Bytes

/-!
Base64 text: groups of four letters for three bytes, the last group filled up
with equals signs. Line breaks between the letters do not count.
-/

namespace FeatureGate

namespace Base64

def value? (b : UInt8) : Option Nat :=
  if 65 ≤ b && b ≤ 90 then some (b.toNat - 65)
  else if 97 ≤ b && b ≤ 122 then some (b.toNat - 71)
  else if Bytes.isDigit b then some (b.toNat + 4)
  else if b = byte '+' then some 62
  else if b = byte '/' then some 63
  else none

/-- The bytes of letters without line breaks. Only the last group may be filled
up. -/
def decodeGroups? : Bytes → Option Bytes
  | [] => some []
  | a :: b :: c :: d :: rest =>
      match value? a, value? b with
      | some a, some b =>
          let first := (4 * a + b / 16).toUInt8
          if c = byte '=' then
            if d = byte '=' && rest.isEmpty then some [first] else none
          else
            match value? c with
            | none => none
            | some c =>
                let second := (16 * b + c / 4).toUInt8
                if d = byte '=' then
                  if rest.isEmpty then some [first, second] else none
                else
                  match value? d with
                  | none => none
                  | some d =>
                      (decodeGroups? rest).map
                        ([first, second, (64 * c + d).toUInt8] ++ ·)
      | _, _ => none
  | _ => none

def decode? (text : Bytes) : Option Bytes :=
  decodeGroups? (text.filter fun b => b ≠ 10 && b ≠ 13)

example : decode? (utf8 "TWFu\nTQ==") = some (utf8 "ManM") := by decide
example : decode? (utf8 "TQ=") = none := by decide

end Base64

end FeatureGate
