import FeatureGate.Yaml.Token

/-!
The texts of scalars. Plain and quoted scalars may go over several lines: a
single line break becomes a blank, and of several the first is dropped. Block
scalars keep their lines, or fold them, and end according to their chomping
mark.
-/

namespace FeatureGate

namespace Yaml

namespace Cursor

/-- The marks that end a plain scalar inside brackets. -/
def isFlowMark (c : Char) : Bool :=
  [',', '?', '[', ']', '\x7b', '\x7d'].contains c

/-- The characters of a plain scalar up to a blank, a break or a mark that ends
it. -/
def plainRun (inFlow : Bool) : List Char → List Char
  | [] => []
  | c :: rest =>
      if isBlank c || isBreak c || (c = ':' && endsWord rest)
          || (inFlow && isFlowMark c) then []
      else c :: plainRun inFlow rest

/-- Read a plain scalar: its text, whether it ended on a later line, and the
cursor behind it. A line that is indented less than `indent` is not part of
it. -/
def readPlain? (inFlow : Bool) (indent : Int) :
    (limit : Nat) → (text : List Char) → Gap → Cursor →
      Option (List Char × Bool × Cursor)
  | 0, text, gap, c => some (text, gap.folded, c)
  | limit + 1, text, gap, c =>
      if c.atDocumentMark || c.peek? = some '#' then some (text, gap.folded, c)
      else
        let run := plainRun inFlow c.rest
        let c' := c.skipMany run.length
        let (text, gap) :=
          if run.isEmpty then (text, gap) else (text ++ gap.text ++ run, {})
        if !endsWord c'.rest || c'.rest.isEmpty then some (text, gap.folded, c')
        else
          let tabFault (g : Gap) (p : Place) : Bool :=
            g.folded && (p.column : Int) < indent
          match readGap? tabFault c'.rest.length gap c' with
          | none => none
          | some (gap, c'') =>
              if !inFlow && (c''.place.column : Int) < indent then
                some (text, gap.folded, c'')
              else readPlain? inFlow indent limit text gap c''

/-- The character of a one-letter escape in double quotes. -/
def escapedChar? (c : Char) : Option Char :=
  match c with
  | '0' => some (Char.ofNat 0)
  | 'a' => some (Char.ofNat 7)
  | 'b' => some (Char.ofNat 8)
  | 't' => some '\t'
  | '\t' => some '\t'
  | 'n' => some '\n'
  | 'v' => some (Char.ofNat 11)
  | 'f' => some (Char.ofNat 12)
  | 'r' => some '\r'
  | 'e' => some (Char.ofNat 27)
  | ' ' => some ' '
  | '"' => some '"'
  | '\'' => some '\''
  | '\\' => some '\\'
  | 'N' => some (Char.ofNat 0x85)
  | '_' => some (Char.ofNat 0xA0)
  | 'L' => some (Char.ofNat 0x2028)
  | 'P' => some (Char.ofNat 0x2029)
  | _ => none

/-- How many hexadecimal digits an escape has. -/
def escapeWidth? (c : Char) : Option Nat :=
  match c with
  | 'x' => some 2
  | 'u' => some 4
  | 'U' => some 8
  | _ => none

def hexValue? (digits : List Char) : Option Nat :=
  if digits.all fun d => d.toNat < 128 && Bytes.isHexDigit (byte d) then
    some (digits.foldl (fun n d => 16 * n + Bytes.hexValue (byte d)) 0)
  else none

/-- Read the escape behind a backslash: the character and how many characters
were taken. -/
def readEscape? : List Char → Option (Char × Nat)
  | [] => none
  | kind :: rest =>
      match escapedChar? kind with
      | some c => some (c, 1)
      | none =>
          match escapeWidth? kind with
          | none => none
          | some width =>
              if (rest.take width).length < width then none
              else
                match hexValue? (rest.take width) with
                | some n =>
                    if n.isValidChar then some (Char.ofNat n, width + 1)
                    else none
                | none => none

/-- Read the characters of a quoted scalar up to a blank, a break or the closing
quote. The answer tells whether the run ended in an escaped line break. -/
def readQuotedRun? (single : Bool) :
    (limit : Nat) → (text : List Char) → Cursor →
      Option (List Char × Bool × Cursor)
  | 0, text, c => some (text, false, c)
  | limit + 1, text, c =>
      match c.rest with
      | [] => some (text, false, c)
      | ch :: rest =>
          if isBlank ch || isBreak ch then some (text, false, c)
          else if single && ch = '\'' then
            if rest.head? = some '\'' then
              readQuotedRun? single limit (text ++ ['\'']) c.skip.skip
            else some (text, false, c)
          else if !single && ch = '"' then some (text, false, c)
          else if !single && ch = '\\' then
            if rest.head?.any isBreak then some (text, true, c.skip.skipBreak)
            else
              match readEscape? rest with
              | some (value, width) =>
                  readQuotedRun? single limit (text ++ [value])
                    (c.skipMany (width + 1))
              | none => none
          else readQuotedRun? single limit (text ++ [ch]) c.skip

/-- Read a quoted scalar whose opening quote has been passed. -/
def readQuoted? (single : Bool) :
    (limit : Nat) → (text : List Char) → Cursor → Option (List Char × Cursor)
  | 0, _, _ => none
  | limit + 1, text, c =>
      if c.atDocumentMark || c.rest.isEmpty then none
      else
        match readQuotedRun? single c.rest.length text c with
        | none => none
        | some (text, escapedBreak, c) =>
            if c.peek? = some (if single then '\'' else '"') then
              some (text, c.skip)
            else
              match readGap? (fun _ _ => false) c.rest.length
                { folded := escapedBreak } c with
              | none => none
              | some (gap, c) => readQuoted? single limit (text ++ gap.text) c

/-- What happens to the line breaks at the end of a block scalar. -/
inductive Chomping where
  | strip
  | clip
  | keep
deriving DecidableEq, Repr

def chomping? (c : Char) : Option Chomping :=
  if c = '+' then some .keep else if c = '-' then some .strip else none

/-- The indentation of a digit; zero is refused. -/
def increment? (c : Char) : Option (Option Nat) :=
  if c.isDigit then some (if c = '0' then none else some (c.toNat - 48))
  else none

/-- Read the marks behind the opening of a block scalar: chomping and
indentation, in either order. -/
def readBlockMarks? (c : Cursor) : Option (Chomping × Nat × Cursor) :=
  match c.peek?.bind chomping? with
  | some chomp =>
      match c.skip.peek?.bind increment? with
      | some (some n) => some (chomp, n, c.skip.skip)
      | some none => none
      | none => some (chomp, 0, c.skip)
  | none =>
      match c.peek?.bind increment? with
      | some (some n) =>
          match c.skip.peek?.bind chomping? with
          | some chomp => some (chomp, n, c.skip.skip)
          | none => some (.clip, n, c.skip)
      | some none => none
      | none => some (.clip, 0, c)

/-- Read the indentation and the empty lines at the cursor: the breaks, the
widest indentation seen, and the cursor at the first text. With `indent` zero
any indentation is taken. -/
def readIndent? (indent : Nat) :
    (limit : Nat) → (breaks : List Char) → (widest : Nat) → Cursor →
      Option (List Char × Nat × Cursor)
  | 0, breaks, widest, c => some (breaks, widest, c)
  | limit + 1, breaks, widest, c =>
      let blanks := (c.takeWhile (· = ' ')).length
      let count :=
        if indent = 0 then blanks else min blanks (indent - c.place.column)
      let c := c.skipMany count
      let widest := max widest c.place.column
      match c.rest with
      | [] => some (breaks, widest, c)
      | ch :: _ =>
          if ch = '\t' && (indent = 0 || c.place.column < indent) then none
          else if isBreak ch then
            readIndent? indent limit (breaks ++ [normalBreak ch]) widest
              c.skipBreak
          else some (breaks, widest, c)

/-- The lines of a block scalar as they are read. -/
structure BlockText where
  text : List Char := []
  /-- The break that ended the last line. -/
  lead : List Char := []
  /-- The breaks of the empty lines after it. -/
  trail : List Char := []
  /-- Whether the last line began with a blank. -/
  blankLine : Bool := false
deriving Repr

/-- Put a line to a block scalar. Folding joins two lines that do not begin with
a blank. -/
def BlockText.addLine (literal : Bool) (b : BlockText)
    (line lead : List Char) : BlockText :=
  let blank := line.head?.any isBlank
  let joint :=
    if !literal && !b.blankLine && !blank && b.lead.head? = some '\n' then
      if b.trail.isEmpty then [' '] else []
    else b.lead
  { text := b.text ++ joint ++ b.trail ++ line, lead := lead, trail := [],
    blankLine := blank }

/-- Read the lines of a block scalar that is indented by `indent`. -/
def readBlockLines? (literal : Bool) (indent : Nat) :
    (limit : Nat) → BlockText → Cursor → Option (BlockText × Cursor)
  | 0, b, c => some (b, c)
  | limit + 1, b, c =>
      if c.place.column = indent && !c.rest.isEmpty then
        let line := c.takeWhile fun ch => !isBreak ch
        let c := c.skipMany line.length
        let lead := (c.peek?.map normalBreak).toList
        match readIndent? indent (c.rest.length + 1) [] 0 c.skipBreak with
        | none => none
        | some (breaks, _, c) =>
            let b := b.addLine literal line lead
            readBlockLines? literal indent limit { b with trail := breaks } c
      else some (b, c)

/-- Read a block scalar whose opening mark has been passed, inside a collection
indented by `parent`. -/
def readBlock? (literal : Bool) (parent : Int) (c : Cursor) :
    Option (List Char × Cursor) :=
  match readBlockMarks? c with
  | none => none
  | some (chomp, increment, c) =>
      let c := c.skipWhile isBlank
      let c := if c.peek? = some '#' then c.skipLine else c
      if !endsLine c.rest then none
      else
        let c := if c.rest.isEmpty then c else c.skipBreak
        let given :=
          if increment = 0 then 0 else (max parent 0).toNat + increment
        match readIndent? given (c.rest.length + 1) [] 0 c with
        | none => none
        | some (breaks, widest, c) =>
            let indent :=
              if given = 0 then max (max widest (parent + 1).toNat) 1 else given
            match readBlockLines? literal indent
              (c.rest.length + 1) { trail := breaks } c with
            | none => none
            | some (b, c) =>
                let ending :=
                  match chomp with
                  | .strip => []
                  | .clip => b.lead
                  | .keep => b.lead ++ b.trail
                some (b.text ++ ending, c)

end Cursor

end Yaml

end FeatureGate
