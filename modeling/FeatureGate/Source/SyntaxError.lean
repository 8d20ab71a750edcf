import FeatureGate.Source.Token
import FeatureGate.Text.Quoted

/-!
What can be wrong with a source text, and how it is told.
-/

namespace FeatureGate

inductive SyntaxFault where
  /-- No kind of token fits the rest of the text. -/
  | invalidText (rest : Bytes)
  /-- A token, or the end of the text, stands where something else was
  expected. -/
  | unexpected (found : Option Token) (expected : Option String)
deriving DecidableEq, Repr

/-- A fault and where it was found. -/
structure SyntaxError where
  pos : Position
  fault : SyntaxFault
deriving DecidableEq, Repr

namespace SyntaxFault

/-- The first sixteen characters of a text, with three dots if there are
more. -/
def sample (rest : Bytes) : Bytes :=
  let chars := Utf8.chars rest
  if chars.length > 16 then Utf8.ofChars (chars.take 16) ++ utf8 "..."
  else Utf8.ofChars chars

/-- A found token, or the end of the text, as it is shown. -/
def foundText : Option Token → Bytes
  | some token => token.text
  | none => utf8 "<EOF>"

def message : SyntaxFault → Bytes
  | .invalidText rest =>
      utf8 "lexer: invalid input text " ++ quote (sample rest)
  | .unexpected found none =>
      utf8 "unexpected token " ++ quote (foundText found)
  | .unexpected found (some expected) =>
      utf8 "unexpected token " ++ quote (foundText found)
        ++ utf8 " (expected " ++ utf8 expected ++ utf8 ")"

end SyntaxFault

namespace SyntaxError

/-- The fault with its place in the named file; an empty name is left out. -/
def located (file : Bytes) (error : SyntaxError) : Bytes :=
  (if file.isEmpty then [] else file ++ utf8 ":")
    ++ decimal error.pos.line ++ utf8 ":" ++
      decimal error.pos.column ++ utf8 ": "
    ++ error.fault.message

def message (file : Bytes) (error : SyntaxError) : Bytes :=
  utf8 "parse error: " ++ error.located file

end SyntaxError

end FeatureGate
