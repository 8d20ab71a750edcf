import FeatureGate.Yaml.Scalars

/-!
The tokens of a YAML text. A text is read token by token. Whether a token begins
a mapping key shows only at the colon behind it, so each token that may be one
is remembered, and the tokens that open the mapping and mark the key are put in
front of it afterwards.
-/

namespace FeatureGate

namespace Yaml

/-- A token that becomes a key if a colon follows it soon enough. -/
structure PendingKey where
  /-- How many tokens stand before it. -/
  position : Nat
  place : Place
  /-- Whether only a key may stand there. -/
  required : Bool
deriving Repr

/-- The tokens read so far, and what is needed to read on. -/
structure Scan where
  cursor : Cursor
  tokens : Array Token := #[.streamStart]
  /-- The indentation of the innermost block collection, or `-1` outside of
  all. -/
  indent : Int := -1
  /-- The indentations around it, innermost first. -/
  outer : List Int := []
  /-- One entry for the block level, and one for each open bracket, innermost
  first. -/
  keys : List (Option PendingKey) := [none]
  /-- Whether a key may begin here. -/
  keyAllowed : Bool := true
deriving Repr

namespace Scan

/-- How far bracketed and indented collections may be nested. -/
def deepest : Nat := 10000

/-- Whether a bracket is open. -/
def inFlow (s : Scan) : Bool := 1 < s.keys.length

def push (s : Scan) (t : Token) : Scan := { s with tokens := s.tokens.push t }

/-- Put a token in front of those from `position` on. -/
def insertAt (s : Scan) (position : Nat) (t : Token) : Scan :=
  { s with
    tokens := s.tokens.extract 0 position ++ #[t] ++ s.tokens.extract position
      s.tokens.size }

/-- Close the block collections that are indented more than `column`. -/
def closeTo (column : Int) : (outer : List Int) → (indent : Int) → Array Token →
    Array Token × Int × List Int
  | [], indent, tokens => (tokens, indent, [])
  | next :: outer, indent, tokens =>
      if column < indent then closeTo column outer next (tokens.push .blockEnd)
      else (tokens, indent, next :: outer)

/-- Leave the block collections that are indented more than `column`; brackets
hold them open. -/
def dedent (s : Scan) (column : Int) : Scan :=
  if s.inFlow then s
  else
    match closeTo column s.outer s.indent s.tokens with
    | (tokens, indent, outer) =>
        { s with tokens := tokens, indent := indent, outer := outer }

/-- Enter a block collection at `column`, unless there is one, with its start
token at `position`. -/
def indentTo? (s : Scan) (column position : Nat) (start : Token) :
    Option Scan :=
  if s.inFlow || (column : Int) ≤ s.indent then some s
  else if deepest ≤ s.outer.length then none
  else
    some ({ s with indent := column, outer := s.indent :: s.outer }.insertAt
      position start)

/-- The token that may become a key at this level. -/
def pending? (s : Scan) : Option PendingKey := s.keys.head?.join

/-- Set the token that may become a key at this level. -/
def setPending (s : Scan) (key : Option PendingKey) : Scan :=
  { s with keys := key :: s.keys.tail }

/-- Give up the pending key, which is a fault if it had to be one. -/
def dropKey? (s : Scan) : Option Scan :=
  match s.pending? with
  | some key => if key.required then none else some (s.setPending none)
  | none => some s

/-- Remember that the next token may be a key. -/
def noteKey? (s : Scan) : Option Scan :=
  if s.keyAllowed then
    let place := s.cursor.place
    let required := !s.inFlow && s.indent = place.column
    s.dropKey?.map (·.setPending (some ⟨s.tokens.size, place, required⟩))
  else some s

/-- A key and its colon stand in one line, at most this many characters
apart. -/
def keyReach : Nat := 1024

/-- Whether the colon at the cursor makes the token a key. -/
def reaches (s : Scan) (key : PendingKey) : Bool :=
  key.place.line = s.cursor.place.line && s.cursor.place.index ≤
    key.place.index + keyReach

/-- Take `count` characters as the token `t`. -/
def take (s : Scan) (count : Nat) (t : Token) : Scan :=
  { s with cursor := s.cursor.skipMany count }.push t

/-- Skip a comment and those that follow it with nothing but blanks and breaks
between. -/
def skipComments : (limit : Nat) → Cursor → Cursor
  | 0, c => c
  | limit + 1, c =>
      let c := c.skipLine
      let next := c.skipWhile fun ch => isBlank ch || ch = '\n' || ch = '\r'
      if next.peek? = some '#' then skipComments limit next else c

/-- Skip blanks, comments and line breaks up to the next token. Tabs are skipped
only where no key may begin. A new line outside of brackets may begin with a
key. -/
def skipToToken : (limit : Nat) → Scan → Scan
  | 0, s => s
  | limit + 1, s =>
      let c := s.cursor
      let c :=
        if c.place.column = 0 && c.peek? = some (Char.ofNat 0xFEFF) then c.skip
        else c
      let tabs := s.inFlow || !s.keyAllowed
      let c := c.skipWhile fun ch => ch = ' ' || (tabs && ch = '\t')
      let c := if c.peek? = some '#' then skipComments c.rest.length c else c
      if c.peek?.any isBreak then
        skipToToken limit { s with cursor := c.skipBreak,
                                   keyAllowed := s.keyAllowed || !s.inFlow }
      else { s with cursor := c }

/-- Skip a comment that stands behind a token in its line. -/
def skipTrailingComment (before : Cursor) (s : Scan) : Scan :=
  let taken := before.rest.take (before.rest.length - s.cursor.rest.length)
  let newLine :=
    (taken.reverse.takeWhile fun ch => isBlank ch || isBreak ch).any isBreak
  if newLine || s.tokens.back? = some .blockEntry then s
  else
    let c := s.cursor.skipWhile isBlank
    if c.peek? = some '#' then { s with cursor := c.skipLine } else s

def openFlow? (s : Scan) (t : Token) : Option Scan :=
  if deepest < s.keys.length then none
  else
    s.noteKey?.map fun s => { s with keys := none :: s.keys,
                                     keyAllowed := true }.take 1 t

def closeFlow? (s : Scan) (t : Token) : Option Scan :=
  s.dropKey?.map fun s =>
    { s with keys := if s.inFlow then s.keys.tail else s.keys,
             keyAllowed := false }.take 1 t

def comma? (s : Scan) : Option Scan :=
  s.dropKey?.map fun s => { s with keyAllowed := true }.take 1 .flowEntry

/-- The hyphen in front of an element of a block sequence. -/
def hyphen? (s : Scan) : Option Scan :=
  if !s.inFlow && !s.keyAllowed then none
  else
    match s.indentTo? s.cursor.place.column s.tokens.size
        .blockSequenceStart with
    | some s =>
        s.dropKey?.map fun s => { s with keyAllowed := true }.take 1 .blockEntry
    | none => none

/-- The question mark in front of a key. -/
def explicitKey? (s : Scan) : Option Scan :=
  if !s.inFlow && !s.keyAllowed then none
  else
    match s.indentTo? s.cursor.place.column s.tokens.size
        .blockMappingStart with
    | some s =>
        s.dropKey?.map fun s => { s with keyAllowed := !s.inFlow }.take 1 .key
    | none => none

/-- A colon that has no pending key. -/
def valueAlone? (s : Scan) : Option Scan :=
  if !s.inFlow && !s.keyAllowed then none
  else
    (s.indentTo? s.cursor.place.column s.tokens.size .blockMappingStart).map
      fun s => { s with keyAllowed := !s.inFlow }.take 1 .value

/-- The colon in front of a value. -/
def value? (s : Scan) : Option Scan :=
  match s.pending? with
  | some key =>
      if s.reaches key then
        let s := (s.insertAt key.position .key).setPending none
        (s.indentTo? key.place.column key.position .blockMappingStart).map
          fun s => { s with keyAllowed := false }.take 1 .value
      else if key.required then none
      else (s.setPending none).valueAlone?
  | none => s.valueAlone?

/-- The marks that may follow the name of an anchor. -/
def endsName (rest : List Char) : Bool :=
  endsWord rest || rest.head?.any fun c =>
    ['?', ':', ',', ']', '\x7d', '%', '@', '\x60'].contains c

/-- An anchor or an alias, with its name. -/
def name? (s : Scan) (make : String → Token) : Option Scan :=
  match s.noteKey? with
  | none => none
  | some s =>
      let name := s.cursor.skip.takeWhile isWordChar
      let s := { s with keyAllowed := false }.take (name.length + 1)
        (make (String.ofList name))
      if name.isEmpty || !endsName s.cursor.rest then none else some s

/-- The characters that may stand in a tag. -/
def isTagChar (c : Char) : Bool :=
  isWordChar c || [';', '/', '?', ':', '@', '&', '=', '+', '$', ',', '.', '!',
    '~', '*', '\'', '(', ')', '[', ']', '%'].contains c

/-- How many bytes a character has that begins with this one. -/
def charWidth? (first : UInt8) : Option Nat :=
  if first < 0x80 then some 1
  else if 0xC0 ≤ first && first < 0xE0 then some 2
  else if 0xE0 ≤ first && first < 0xF0 then some 3
  else if 0xF0 ≤ first && first < 0xF8 then some 4
  else none

/-- One escaped byte: a percent sign and two hexadecimal digits. -/
def escapedByte? : List Char → Option (UInt8 × List Char)
  | '%' :: a :: b :: rest =>
      (Cursor.hexValue? [a, b]).map fun n => (n.toUInt8, rest)
  | _ => none

def escapedBytes? : (count : Nat) → List Char → Option (Bytes × List Char)
  | 0, rest => some ([], rest)
  | count + 1, rest =>
      match escapedByte? rest with
      | some (b, rest) =>
          if 0x80 ≤ b && b < 0xC0 then
            (escapedBytes? count rest).map fun (bs, rest) => (b :: bs, rest)
          else none
      | none => none

/-- The text of a tag in which escaped bytes stand for themselves. -/
def unescapeTag? : (limit : Nat) → List Char → Option (List Char)
  | 0, _ => some []
  | limit + 1, cs =>
      match cs with
      | [] => some []
      | '%' :: _ =>
          match escapedByte? cs with
          | none => none
          | some (first, rest) =>
              match charWidth? first with
              | none => none
              | some width =>
                  match escapedBytes? (width - 1) rest with
                  | none => none
                  | some (bytes, rest) =>
                      (unescapeTag? limit rest).map
                        (Utf8.chars (first :: bytes) ++ ·)
      | c :: rest => (unescapeTag? limit rest).map (c :: ·)

/-- The rest of a tag at the cursor: its text, and the cursor behind it. -/
def tagText? (c : Cursor) : Option (List Char × Cursor) :=
  let raw := c.takeWhile isTagChar
  (unescapeTag? raw.length raw).map fun text => (text, c.skipMany raw.length)

/-- The handle at the cursor: an exclamation mark, and if there is another
behind a name, both. -/
def tagHandle (c : Cursor) : List Char × Cursor :=
  let name := c.skip.takeWhile isWordChar
  let c := c.skipMany (name.length + 1)
  if c.peek? = some '!' then ('!' :: name ++ ['!'], c.skip)
  else ('!' :: name, c)

/-- A tag at the cursor, as a handle and a suffix. -/
def tagParts? (c : Cursor) : Option (List Char × List Char × Cursor) :=
  if c.skip.peek? = some '<' then
    match tagText? c.skip.skip with
    | some (text, c) =>
        if text.isEmpty || c.peek? ≠ some '>' then none
        else some ([], text, c.skip)
    | none => none
  else
    match tagHandle c with
    | (handle, c) =>
        match tagText? c with
        | none => none
        | some (text, c) =>
            if 1 < handle.length && handle.getLast? = some '!' then
              if text.isEmpty then none else some (handle, text, c)
            else
              let suffix := handle.tail ++ text
              if suffix.isEmpty then some ([], handle, c)
              else some (['!'], suffix, c)

def tag? (s : Scan) : Option Scan :=
  match s.noteKey? with
  | none => none
  | some s =>
      match tagParts? s.cursor with
      | none => none
      | some (handle, suffix, c) =>
          if !endsWord c.rest then none
          else
            some ({ s with cursor := c, keyAllowed := false }.push
              (.tag (String.ofList handle) (String.ofList suffix)))

/-- A number of a version: one or two digits. -/
def versionNumber? (c : Cursor) : Option (Nat × Cursor) :=
  let digits := c.takeWhile Char.isDigit
  if digits.isEmpty || 2 < digits.length then none
  else
    some (digits.foldl (fun n d => 10 * n + (d.toNat - 48)) 0,
      c.skipMany digits.length)

def version? (c : Cursor) : Option (Token × Cursor) :=
  match versionNumber? c with
  | none => none
  | some (major, c) =>
      if c.peek? ≠ some '.' then none
      else
        (versionNumber? c.skip).map fun (minor, c) => (.version major minor, c)

/-- The handle that a directive declares, and what it stands for. -/
def handleDeclaration? (c : Cursor) : Option (Token × Cursor) :=
  if c.peek? ≠ some '!' then none
  else
    match tagHandle c with
    | (handle, c) =>
        if handle ≠ ['!']
            && (handle.length < 2 || handle.getLast? ≠ some '!') then none
        else if !c.peek?.any isBlank then none
        else
          match tagText? (c.skipWhile isBlank) with
          | none => none
          | some (lead, c) =>
              if lead.isEmpty || !endsWord c.rest then none
              else
                some (.tagHandle (String.ofList handle) (String.ofList lead), c)

/-- The token of a directive with this name. -/
def directiveBody? (name : String) (c : Cursor) : Option (Token × Cursor) :=
  if name = "YAML" then version? c
  else if name = "TAG" then handleDeclaration? c
  else none

/-- Skip blanks and a comment to the end of the line, and the break; anything
else is a fault. -/
def skipRestOfLine? (c : Cursor) : Option Cursor :=
  let c := c.skipWhile isBlank
  let c := if c.peek? = some '#' then c.skipLine else c
  if endsLine c.rest then some c.skipBreak else none

/-- Close what is open before a directive or a mark of the document. -/
def closeAll? (s : Scan) : Option Scan :=
  (s.dedent (-1)).dropKey?.map fun s => { s with keyAllowed := false }

/-- A line that begins with a percent sign. -/
def directive? (s : Scan) : Option Scan :=
  match s.closeAll? with
  | none => none
  | some s =>
      let name := s.cursor.skip.takeWhile isWordChar
      let c := s.cursor.skipMany (name.length + 1)
      if name.isEmpty || !endsWord c.rest then none
      else
        match directiveBody? (String.ofList name) (c.skipWhile isBlank) with
        | none => none
        | some (token, c) =>
            (skipRestOfLine? c).map fun c => { s with cursor := c }.push token

/-- The mark that begins or ends a document. -/
def documentMark? (s : Scan) : Option Scan :=
  s.closeAll?.map (·.take 3
    (if s.cursor.peek? = some '-' then .documentStart else .documentEnd))

def finish? (s : Scan) : Option Scan := s.closeAll?.map (·.push .streamEnd)

def quoted? (s : Scan) (single : Bool) : Option Scan :=
  match s.noteKey? with
  | none => none
  | some s =>
      (Cursor.readQuoted? single (s.cursor.rest.length + 1)
        [] s.cursor.skip).map
        fun (text, c) =>
          { s with cursor := c, keyAllowed := false }.push
            (.scalar (String.ofList text) false)

/-- A scalar whose lines are kept or folded by their indentation. -/
def block? (s : Scan) (literal : Bool) : Option Scan :=
  match s.dropKey? with
  | none => none
  | some s =>
      (Cursor.readBlock? literal s.indent s.cursor.skip).map fun (text, c) =>
        { s with cursor := c,
                 keyAllowed := true }.push (.scalar (String.ofList text) false)

/-- A scalar without quotes. A key may follow it if it ended on a later line. -/
def plain? (s : Scan) : Option Scan :=
  match s.noteKey? with
  | none => none
  | some s =>
      (Cursor.readPlain? s.inFlow (s.indent + 1) (s.cursor.rest.length + 1)
        [] {} s.cursor).map
        fun (text, newLine, c) =>
          { s with cursor := c, keyAllowed := newLine }.push
            (.scalar (String.ofList text) true)

/-- The characters that cannot begin a plain scalar. -/
def isIndicator (c : Char) : Bool :=
  ['-', '?', ':', ',', '[', ']', '\x7b', '\x7d', '#', '&', '*', '!', '|', '>',
    '\'', '"', '%', '@', '\x60'].contains c

/-- Whether a plain scalar begins here: a hyphen, and outside of brackets also a
question mark or a colon, may begin one if no blank follows. -/
def beginsPlain (inFlow : Bool) (c : Char) (rest : List Char) : Bool :=
  !(isBlank c || isBreak c || isIndicator c)
    || (c = '-' && !rest.head?.any isBlank)
    || (!inFlow && (c = '?' || c = ':') && !endsWord rest)

/-- Read the token that begins with `c`. -/
def token? (s : Scan) (c : Char) (rest : List Char) : Option Scan :=
  if c = '[' then s.openFlow? .flowSequenceStart
  else if c = '\x7b' then s.openFlow? .flowMappingStart
  else if c = ']' then s.closeFlow? .flowSequenceEnd
  else if c = '\x7d' then s.closeFlow? .flowMappingEnd
  else if c = ',' then s.comma?
  else if c = '-' && endsWord rest then s.hyphen?
  else if c = '?' && (s.inFlow || endsWord rest) then s.explicitKey?
  else if c = ':' && (s.inFlow || endsWord rest) then s.value?
  else if c = '*' then s.name? .reference
  else if c = '&' then s.name? .anchor
  else if c = '!' then s.tag?
  else if c = '|' && !s.inFlow then s.block? true
  else if c = '>' && !s.inFlow then s.block? false
  else if c = '\'' then s.quoted? true
  else if c = '"' then s.quoted? false
  else if beginsPlain s.inFlow c rest then s.plain?
  else none

/-- Read the next token, with the tokens that end block collections before
it. -/
def step? (s : Scan) : Option Scan :=
  let s := skipToToken (s.cursor.rest.length + 1) s
  let s := s.dedent s.cursor.place.column
  match s.cursor.rest with
  | [] => s.finish?
  | c :: rest =>
      if s.cursor.place.column = 0 && c = '%' then s.directive?
      else if s.cursor.atDocumentMark then s.documentMark?
      else (s.token? c rest).map (skipTrailingComment s.cursor)

/-- Reading looks ahead by this many tokens, so a fault hides the last tokens
before it. -/
def lookahead : Nat := 2

/-- Read tokens to the end of the stream or up to a fault. -/
def run : (limit : Nat) → Scan → List Token
  | 0, s => s.tokens.toList
  | limit + 1, s =>
      match s.step? with
      | none => (s.tokens.extract 0 (s.tokens.size - lookahead)).toList
      | some next =>
          if next.tokens.back? = some .streamEnd then next.tokens.toList
          else run limit next

end Scan

/-- The tokens of a text, up to the first fault. -/
def tokens (text : List Char) : List Token :=
  Scan.run (text.length + 1) { cursor := { rest := text } }

end Yaml

end FeatureGate
