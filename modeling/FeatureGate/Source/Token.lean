import FeatureGate.Source.Position

/-!
Tokens of the source text. At each place the kinds are tried in the order
comment, white space, string, identifier, punctuation, and the first that fits
is taken. Comments and white space are tokens too; readers of the token list
leave them out.
-/

namespace FeatureGate

/-- The kinds of token, in the order in which they are tried. -/
inductive TokenKind where
  | comment
  | whitespace
  | string
  | ident
  | punct
deriving DecidableEq, Repr

/-- A token: its kind, the bytes it covers, and where it begins. -/
structure Token where
  kind : TokenKind
  text : Bytes
  pos : Position
deriving DecidableEq, Repr

/-- How a scan ends: after the last byte, or where no kind of token fits. -/
inductive ScanEnd where
  | finished (pos : Position)
  | stuck (pos : Position) (rest : Bytes)
deriving DecidableEq, Repr

namespace Token

def stop (token : Token) : Nat := token.pos.offset + token.text.length

/-- Layout separates tokens and has no meaning of its own. -/
def isLayout (token : Token) : Bool :=
  token.kind = .comment || token.kind = .whitespace

/-- Blank, tab, line break, form feed and carriage return. -/
def isSpace (b : UInt8) : Bool := b = 32 || b = 9 || b = 10 || b = 12 || b = 13

def isIdentStart (b : UInt8) : Bool := Bytes.isLetter b || b = byte '_'

/-- The bytes an identifier goes on with. -/
def isIdentPart (b : UInt8) : Bool := isIdentStart b || Bytes.isDigit b

/-- The marks that are tokens by themselves. -/
def isPunct (b : UInt8) : Bool := (utf8 "#[](),=;").contains b

/-- The end of a string whose opening quote has been read, when every backslash
is taken together with the byte after it, a line break excepted: the number of
bytes up to and with the first quote outside such a pair. -/
def pairedEnd? : Bytes → Option Nat
  | [] => none
  | b :: rest =>
      if b = byte '"' then some 1
      else if b = byte '\\' then
        match rest with
        | [] => none
        | c :: rest' =>
            if c = byte '\n' then (pairedEnd? (c :: rest')).map (· + 1)
            else (pairedEnd? rest').map (· + 2)
      else (pairedEnd? rest).map (· + 1)

/-- The number of bytes up to and with the very last quote. -/
def lastQuoteEnd? (body : Bytes) : Option Nat :=
  if body.contains (byte '"') then
    some (body.length - (body.reverse.takeWhile (· ≠ byte '"')).length)
  else none

/-- The end of a string whose opening quote has been read. When all later quotes
are escaped the last of them closes the string. -/
def stringEnd? (body : Bytes) : Option Nat :=
  match pairedEnd? body with
  | some n => some n
  | none => lastQuoteEnd? body

/-- The kind and length of the token at the front. -/
def lexeme? : Bytes → Option (TokenKind × Nat)
  | [] => none
  | b :: rest =>
      if b = byte '/' && rest.head? = some (byte '/') then
        some (.comment, ((b :: rest).takeWhile (· ≠ 10)).length)
      else if isSpace b then
        some (.whitespace, ((b :: rest).takeWhile isSpace).length)
      else if b = byte '"' then (stringEnd? rest).map fun n => (.string, n + 1)
      else if isIdentStart b then
        some (.ident, ((b :: rest).takeWhile isIdentPart).length)
      else if isPunct b then some (.punct, 1)
      else none

/-- A token takes at least one byte. -/
theorem lexeme?_pos {src : Bytes} {kind : TokenKind} {n : Nat}
    (h : lexeme? src = some (kind, n)) : 0 < n := by
  cases src with
  | nil => simp [lexeme?] at h
  | cons b rest =>
      simp only [lexeme?] at h
      split at h
      · rename_i hb
        have : b ≠ 10 := by
          intro e
          have : (10 : UInt8) ≠ byte '/' := by decide
          simp_all
        simp [this] at h
        omega
      · split at h
        · rename_i hb
          simp [hb] at h
          omega
        · split at h
          · simp only [Option.map_eq_some_iff] at h
            grind
          · split at h
            · rename_i hb
              simp [isIdentPart, hb] at h
              omega
            · split at h <;> simp at h
              omega

/-- The tokens of a text that begins at `pos`, and how the scan ends. -/
def scan (pos : Position) (src : Bytes) : List Token × ScanEnd :=
  match src with
  | [] => ([], .finished pos)
  | b :: rest =>
      match _h : lexeme? (b :: rest) with
      | none => ([], .stuck pos (b :: rest))
      | some (kind, n) =>
          let text := (b :: rest).take n
          let (tokens, last) := scan (pos.advance text) ((b :: rest).drop n)
          (⟨kind, text, pos⟩ :: tokens, last)
termination_by src.length
decreasing_by
  have := lexeme?_pos _h
  simp only [List.length_drop, List.length_cons]
  omega

end Token

end FeatureGate
