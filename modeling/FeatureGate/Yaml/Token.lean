import FeatureGate.Yaml.Characters

/-!
Tokens of a YAML stream. Indentation and the keys of block mappings are made
visible: a block collection begins with a start token and ends with `blockEnd`,
and each key is preceded by `key`, also when the text has no mark for it.
-/

namespace FeatureGate

namespace Yaml

inductive Token where
  | streamStart
  | streamEnd
  | version (major minor : Nat)
  | tagHandle (handle lead : String)
  | documentStart
  | documentEnd
  | blockSequenceStart
  | blockMappingStart
  | blockEnd
  | flowSequenceStart
  | flowSequenceEnd
  | flowMappingStart
  | flowMappingEnd
  | blockEntry
  | flowEntry
  | key
  | value
  | reference (name : String)
  | anchor (name : String)
  | tag (handle suffix : String)
  | scalar (text : String) (plain : Bool)
deriving DecidableEq, Repr

/-- A place in the stream, counted in characters from zero. -/
structure Place where
  index : Nat := 0
  line : Nat := 0
  column : Nat := 0
deriving DecidableEq, Repr

/-- The text that is still to be read, and where it begins. -/
structure Cursor where
  rest : List Char
  place : Place := {}
deriving Repr

namespace Cursor

/-- Go past one character. A carriage return with a line feed behind it does not
end the line. -/
def skip (c : Cursor) : Cursor :=
  match c.rest with
  | [] => c
  | ch :: rest =>
      let p := c.place
      if isBreak ch && !(ch = '\r' && rest.head? = some '\n') then
        ⟨rest, ⟨p.index + 1, p.line + 1, 0⟩⟩
      else ⟨rest, ⟨p.index + 1, p.line, p.column + 1⟩⟩

def skipMany : (count : Nat) → Cursor → Cursor
  | 0, c => c
  | count + 1, c => skipMany count c.skip

/-- Go past the line break at the cursor. -/
def skipBreak (c : Cursor) : Cursor :=
  match c.rest with
  | '\r' :: '\n' :: _ => c.skip.skip
  | _ => c.skip

/-- Go past the characters that satisfy the test. -/
def skipWhile (p : Char → Bool) (c : Cursor) : Cursor :=
  skipMany (c.rest.takeWhile p).length c

/-- The characters at the cursor that satisfy the test. -/
def takeWhile (p : Char → Bool) (c : Cursor) : List Char := c.rest.takeWhile p

def peek? (c : Cursor) : Option Char := c.rest.head?

/-- Go to the end of the line. -/
def skipLine (c : Cursor) : Cursor := c.skipWhile fun ch => !isBreak ch

/-- Whether the three characters that open or close a document stand at the
start of a line. -/
def atDocumentMark (c : Cursor) : Bool :=
  c.place.column = 0 &&
    match c.rest with
    | '-' :: '-' :: '-' :: rest => endsWord rest
    | '.' :: '.' :: '.' :: rest => endsWord rest
    | _ => false

/-- Blanks and line breaks between two parts of a text. -/
structure Gap where
  /-- The blanks, as long as there is no line break. -/
  blanks : List Char := []
  /-- The first line break, if any. -/
  first : Option Char := none
  /-- The line breaks after the first. -/
  more : List Char := []
  /-- Whether the text goes on in another line. -/
  folded : Bool := false
deriving Repr

namespace Gap

/-- What a gap contributes to the text: its blanks, or a folded line break. -/
def text (g : Gap) : List Char :=
  if g.folded then
    match g.first with
    | some '\n' => if g.more.isEmpty then [' '] else g.more
    | some c => c :: g.more
    | none => g.more
  else g.blanks

/-- Put a blank into the gap; after a line break blanks are dropped. -/
def addBlank (g : Gap) (c : Char) : Gap :=
  if g.folded then g else { g with blanks := g.blanks ++ [c] }

/-- Put a line break into the gap. -/
def addBreak (g : Gap) (c : Char) : Gap :=
  if g.folded then { g with more := g.more ++ [normalBreak c] }
  else { g with blanks := [], first := some (normalBreak c), folded := true }

end Gap

/-- Read the blanks and breaks at the cursor; a tab is refused where `tabFault`
says so. -/
def readGap? (tabFault : Gap → Place → Bool) :
    (limit : Nat) → Gap → Cursor → Option (Gap × Cursor)
  | 0, g, c => some (g, c)
  | limit + 1, g, c =>
      match c.rest with
      | [] => some (g, c)
      | ch :: _ =>
          if isBlank ch then
            if ch = '\t' && tabFault g c.place then none
            else readGap? tabFault limit (g.addBlank ch) c.skip
          else if isBreak ch then readGap? tabFault limit
            (g.addBreak ch) c.skipBreak
          else some (g, c)

end Cursor

end Yaml

end FeatureGate
