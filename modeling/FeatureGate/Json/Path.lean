import FeatureGate.Json.Text

/-!
The paths that select a part of a JSON value. A path is a row of steps divided
by `.`; a `|` starts a new path on what was found before it, and so does a `.`
in front of a modifier. In a step for an object `*` and `?` are wild, and `\`
takes the character after it literally. A step for an array is an index, `#` for
the number of elements or for a path into each of them, or a condition
`#(path op value)`, for all elements that meet it with another `#` behind it.

Not all paths of this language are known here. Several paths in brackets or
braces, a literal behind `!`, and modifiers other than those of `Modifier` are
left out: what would begin one of them is read as a key.
-/

namespace FeatureGate

namespace Json

/-- What turns one value into another inside a path. -/
inductive Modifier where
  | this
  | reverse
  | keys
  | values
deriving DecidableEq, Repr

/-- What comes after a step: nothing, more steps, or a new path on the
result. -/
inductive Continuation where
  | stop
  | more (path : Bytes)
  | pipe (path : Bytes)
deriving DecidableEq, Repr

structure KeyStep where
  key : Bytes
  wild : Bool
  next : Continuation
deriving DecidableEq, Repr

inductive Comparison where
  | exists
  | equal
  | notEqual
  | less
  | lessEqual
  | greater
  | greaterEqual
  | like
  | unlike
  /-- A mark that no value meets. -/
  | never
deriving DecidableEq, Repr

/-- A condition on the elements of an array. -/
structure Condition where
  path : Bytes := []
  comparison : Comparison := .exists
  value : Bytes := []
deriving DecidableEq, Repr

/-- What a step into an array asks for. -/
inductive ElementStep where
  /-- The element with this index, or none if the step is no number. -/
  | index (n : Option Nat) (next : Continuation)
  /-- The number of elements. -/
  | count (next : Continuation)
  /-- A path into every element. -/
  | each (path : Bytes)
  /-- The first element, or all elements, that meet a condition. -/
  | filter (condition : Condition) (all : Bool) (next : Continuation)
  /-- A step that nothing matches. -/
  | nothing (next : Continuation)
deriving DecidableEq, Repr

namespace Modifier

def ofName? (name : Bytes) : Option Modifier :=
  if name = utf8 "this" then some .this
  else if name = utf8 "reverse" then some .reverse
  else if name = utf8 "keys" then some .keys
  else if name = utf8 "values" then some .values
  else none

/-- The bytes that end the name of a modifier. -/
def endsName (b : UInt8) : Bool := b = byte '.' || b = byte '|' || b = byte ':'

/-- Split a path that begins with a modifier: the modifier and what follows its
name. An argument after a colon reaches to the next pipe and has no effect. -/
def split? : Bytes → Option (Modifier × Bytes)
  | [] => none
  | b :: rest =>
      if b = byte '@' then
        let (name, after) := Bytes.cutAt endsName rest
        (ofName? name).map fun m =>
          match after with
          | c :: args =>
              if c = byte ':' then (m, (Bytes.cutAt (· = byte '|') args).2)
              else (m, after)
          | [] => (m, [])
      else none

/-- Whether a path begins with a modifier. -/
def begins (path : Bytes) : Bool := (split? path).isSome

end Modifier

namespace Continuation

/-- What comes after a step that ends at a dot: before a modifier the dot acts
as a pipe. -/
def afterDot (path : Bytes) : Continuation :=
  if Modifier.begins path then .pipe path else .more path

end Continuation

namespace KeyStep

/-- Read the step at the front of a path. -/
def ofPath : Bytes → KeyStep
  | [] => ⟨[], false, .stop⟩
  | b :: rest =>
      if b = byte '|' then ⟨[], false, .pipe rest⟩
      else if b = byte '.' then ⟨[], false, .afterDot rest⟩
      else if b = byte '\\' then
        match rest with
        | [] => ⟨[], false, .stop⟩
        | c :: rest' =>
            let step := ofPath rest'
            { step with key := c :: step.key }
      else
        let step := ofPath rest
        { step with key := b :: step.key,
                    wild := step.wild || b = byte '*' || b = byte '?' }

end KeyStep

namespace Condition

def beginsComparison (b : UInt8) : Bool := (utf8 "!=<>%").contains b

/-- Without the blanks and control characters at both ends. -/
def trim (bytes : Bytes) : Bytes :=
  ((bytes.dropWhile (· ≤ 32)).reverse.dropWhile (· ≤ 32)).reverse

/-- What lies between the brackets of a condition: the path, the text of the
comparison from its first mark on, whether the quoted parts hold escapes, and
what follows the closing bracket. -/
structure Parts where
  path : Bytes := []
  comparison : Bytes := []
  escaped : Bool := false
  rest : Bytes := []
deriving Repr

/-- Where a scan through the brackets stands. -/
structure ScanState where
  depth : Nat := 1
  inComparison : Bool := false
  inQuotes : Bool := false
deriving Repr

namespace Parts

/-- Put a byte in front of the path or the comparison, as the scan stands. -/
def push (state : ScanState) (bytes : Bytes) (parts : Parts) : Parts :=
  if state.inComparison then
    { parts with comparison := bytes ++ parts.comparison }
  else { parts with path := bytes ++ parts.path }

end Parts

/-- Read up to the closing bracket. Brackets nest, quoted parts and escaped
bytes do not count. -/
def split? (state : ScanState) : Bytes → Option Parts
  | [] => none
  | b :: rest =>
      if state.inQuotes then
        if b = byte '\\' then
          match rest with
          | [] => none
          | c :: rest' =>
              (split? state rest').map fun p =>
                { p.push state [b, c] with escaped := true }
        else if b = byte '"' then
          (split? { state with inQuotes := false } rest).map (·.push state [b])
        else (split? state rest).map (·.push state [b])
      else if state.depth = 1 && !state.inComparison && beginsComparison b then
        let state' := { state with inComparison := true }
        (split? state' rest).map (·.push state' [b])
      else if b = byte '\\' then
        match rest with
        | [] => none
        | c :: rest' => (split? state rest').map (·.push state [b, c])
      else if b = byte '[' || b = byte '(' then
        (split? { state with depth := state.depth + 1 } rest).map
          (·.push state [b])
      else if b = byte ']' || b = byte ')' then
        if state.depth = 1 then some { rest := rest }
        else (split? { state with depth := state.depth - 1 } rest).map
          (·.push state [b])
      else if b = byte '"' then
        (split? { state with inQuotes := true } rest).map (·.push state [b])
      else (split? state rest).map (·.push state [b])

/-- The comparison at the front of a text, and the value after it. -/
def readComparison (text : Bytes) : Comparison × Bytes :=
  let tries : List (String × Comparison) :=
    [("!=", .notEqual), ("!%", .unlike), ("<=", .lessEqual),
      (">=", .greaterEqual), ("==", .equal), ("<", .less), (">", .greater),
      ("=", .equal), ("%", .like)]
  let found := tries.findSome? fun (mark, c) =>
    (Bytes.stripLead? (utf8 mark) text).map fun rest => (c, trim rest)
  found.getD (if text = utf8 "!" then .never else .exists, trim text)

/-- The value of a comparison, without its quotes. -/
def unquoted (escaped : Bool) (value : Bytes) : Bytes :=
  if 2 ≤ value.length && value.head? = some (byte '"')
      && value.getLast? = some (byte '"') then
    let inside := (value.drop 1).dropLast
    if escaped then verbatimText inside else inside
  else value

def ofParts (parts : Parts) : Condition :=
  let text := trim parts.comparison
  if text.isEmpty then { path := trim parts.path }
  else
    let (op, value) := readComparison text
    { path := trim parts.path, comparison := op,
      value := unquoted parts.escaped value }

end Condition

namespace ElementStep

/-- The number that a step writes; leading zeros are allowed. -/
def indexOf? (part : Bytes) : Option Nat :=
  if !part.isEmpty && part.all Bytes.isDigit then
    some (Bytes.ofDigits part % Nat.pow 2 64)
  else none

/-- The text of a step and what comes after it. A step with a `#` in it never
acts as a pipe in front of a modifier. -/
def cut : Bytes → Bytes × Continuation
  | [] => ([], .stop)
  | b :: rest =>
      if b = byte '|' then ([], .pipe rest)
      else if b = byte '.' then ([], .more rest)
      else
        let (part, next) := cut rest
        (b :: part, next)

/-- Read the step at the front of a path. -/
def ofPath (path : Bytes) : ElementStep :=
  match path with
  | hash :: mark :: rest =>
      if hash = byte '#' && mark = byte '.' then .each rest
      else if hash = byte '#' && (mark = byte '(' || mark = byte '[') then
        match Condition.split? {} rest with
        | none => .filter {} false .stop
        | some parts =>
            let all := parts.rest.head? = some (byte '#')
            .filter (.ofParts parts) all (cut parts.rest).2
      else plain path
  | _ => plain path
where
  /-- A step without a condition. -/
  plain (path : Bytes) : ElementStep :=
    let (part, next) := cut path
    if part = utf8 "#" then .count next
    else if part.contains (byte '#') then .nothing next
    else
      let next :=
        match next with
        | .more rest => .afterDot rest
        | other => other
      .index (indexOf? part) next

end ElementStep

/-- The rest of a quoted part, and what follows its closing quote. -/
def takeQuoted : Bytes → Bytes × Bytes
  | [] => ([], [])
  | b :: rest =>
      if b = byte '"' then ([b], rest)
      else if b = byte '\\' then
        match rest with
        | [] => ([b], [])
        | c :: rest' =>
            let (taken, left) := takeQuoted rest'
            (b :: c :: taken, left)
      else
        let (taken, left) := takeQuoted rest
        (b :: taken, left)

/-- The rest of a condition, and what follows its closing bracket; `limit`
bounds the steps. -/
def takeCondition (opening closing : UInt8) :
    (limit depth : Nat) → Bytes → Bytes × Bytes
  | 0, _, rest => ([], rest)
  | _, _, [] => ([], [])
  | limit + 1, depth, b :: rest =>
      let go (depth : Nat) (taken rest : Bytes) : Bytes × Bytes :=
        let (taken', left) := takeCondition opening closing limit depth rest
        (taken ++ taken', left)
      if b = byte '\\' then go depth (b :: rest.take 1) (rest.drop 1)
      else if b = opening then go (depth + 1) [b] rest
      else if b = closing then
        if depth ≤ 1 then ([b], rest) else go (depth - 1) [b] rest
      else if b = byte '"' then
        let (quoted, left) := takeQuoted rest
        go depth (b :: quoted) left
      else go depth [b] rest

/-- Cut a path at the first pipe outside the conditions in it; `limit` bounds
the steps. The byte after a `.#` belongs to that step, whatever it is. -/
def splitPipeUpTo? : (limit : Nat) → Bytes → Option (Bytes × Bytes)
  | 0, _ => none
  | _, [] => none
  | limit + 1, b :: rest =>
      let go (taken rest : Bytes) : Option (Bytes × Bytes) :=
        (splitPipeUpTo? limit rest).map fun (left, right) =>
          (taken ++ left, right)
      if b = byte '\\' then go (b :: rest.take 1) (rest.drop 1)
      else if b = byte '|' then some ([], rest)
      else if b = byte '.' then
        match rest with
        | hash :: mark :: rest' =>
            if hash = byte '#' then
              let closing := if mark = byte '[' then byte ']' else byte ')'
              if mark = byte '[' || mark = byte '(' then
                let (taken, left) :=
                  takeCondition mark closing rest'.length 1 rest'
                go (b :: hash :: mark :: taken) left
              else go [b, hash, mark] rest'
            else go [b] rest
        | _ => go [b] rest
      else go [b] rest

/-- Cut a path at the first pipe outside the conditions in it. -/
def splitPipe? (path : Bytes) : Option (Bytes × Bytes) :=
  splitPipeUpTo? path.length path

end Json

end FeatureGate
