import FeatureGate.Text.Utf8

/-!
Places in a source text. The offset counts bytes from zero; lines and columns
count from one, and a column counts characters since the last line break, a
stray byte being one character.
-/

namespace FeatureGate

structure Position where
  offset : Nat
  line : Nat
  column : Nat
deriving DecidableEq, Repr

namespace Position

def start : Position := ⟨0, 1, 1⟩

/-- The bytes after the last line break. -/
def lastLine (text : Bytes) : Bytes := (text.reverse.takeWhile (· ≠ 10)).reverse

/-- The place after a text that begins at this place. -/
def advance (pos : Position) (text : Bytes) : Position where
  offset := pos.offset + text.length
  line := pos.line + text.count 10
  column :=
    if text.contains 10 then 1 + Utf8.count (lastLine text)
    else pos.column + Utf8.count text

end Position

end FeatureGate
