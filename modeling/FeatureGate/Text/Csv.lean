import FeatureGate.Text.Bytes

/-!
The first record of comma-separated values. Fields may stand in double quotes,
where a quote is written twice and commas and line breaks are part of the field.
Empty lines before the record are skipped.
-/

namespace FeatureGate

namespace Csv

inductive QuoteFault where
  /-- A quote inside of a field without quotes. -/
  | bare
  /-- A quote that does not end its field, or is missing at the end. -/
  | extraneous
deriving DecidableEq, Repr

inductive Fault where
  | empty
  /-- A fault in the record that began at line `start`. -/
  | quote (start line column : Nat) (fault : QuoteFault)
deriving DecidableEq, Repr

def Fault.message : Fault → Bytes
  | .empty => utf8 "EOF"
  | .quote start line column fault =>
      let place := utf8 "parse error on line " ++ decimal line ++
        utf8 ", column " ++ decimal column
      let lead := if start = line then [] else utf8 "record on line " ++
        decimal start ++ utf8 "; "
      let text := match fault with
        | .bare => utf8 ": bare \" in non-quoted-field"
        | .extraneous => utf8 ": extraneous or missing \" in quoted-field"
      lead ++ place ++ text

def newline : UInt8 := 10

/-- A line in its normal form: a carriage return before the line feed or at the
end of the text does not count. -/
def normalLine (line : Bytes) : Bytes :=
  match line.reverse with
  | 10 :: 13 :: before => before.reverse ++ [newline]
  | 13 :: before => before.reverse
  | _ => line

/-- The lines of a text, each with its line feed. -/
def lines : Bytes → List Bytes
  | [] => []
  | b :: rest =>
      if b = newline then [b] :: lines rest
      else
        match rest, lines rest with
        | [], _ => [[b]]
        | _, line :: more => (b :: line) :: more
        | _, [] => [[b]]

/-- Where in the text the reading stands. -/
structure Spot where
  /-- The rest of the current line. -/
  line : Bytes
  later : List Bytes
  /-- The line that the record began on. -/
  start : Nat
  /-- How many lines have been asked for. -/
  asked : Nat
  lineNumber : Nat
  column : Nat
deriving Repr

/-- Go on to the next line, from the end of the current one. -/
def Spot.nextLine (s : Spot) : Spot :=
  match s.later with
  | next :: later =>
      if next.isEmpty then
        { s with line := [], later := later, asked := s.asked + 1,
                 column := s.column + s.line.length }
      else
        { s with line := next, later := later, asked := s.asked + 1,
                 lineNumber := s.lineNumber + 1, column := 1 }
  | [] => { s with line := [], asked := s.asked + 1,
                   column := s.column + s.line.length }

/-- Read a field in quotes whose opening quote has been passed. The answer holds
the spot behind the comma, if the record goes on. -/
def quotedField :
    (limit : Nat) → (field : Bytes) → Spot → Except Fault (Bytes × Option Spot)
  | 0, field, _ => .ok (field, none)
  | limit + 1, field, s =>
      match Bytes.cutAt (· = byte '"') s.line with
      | (before, _ :: after) =>
          let field := field ++ before
          let column := s.column + before.length + 1
          match after with
          | [] => .ok (field, none)
          | b :: rest =>
              if b = byte '"' then
                quotedField limit (field ++ [b]) { s with line := rest,
                                                          column := column + 1 }
              else if b = byte ',' then
                .ok (field, some { s with line := rest, column := column + 1 })
              else if b = newline && rest.isEmpty then .ok (field, none)
              else .error (.quote s.start s.asked (column - 1) .extraneous)
      | (before, []) =>
          if before.isEmpty then
            .error (.quote s.start s.lineNumber s.column .extraneous)
          else quotedField limit (field ++ before) s.nextLine

def plainField (s : Spot) : Except Fault (Bytes × Option Spot) :=
  let (before, after) := Bytes.cutAt (· = byte ',') s.line
  let field :=
    if after.isEmpty && before.getLast? = some newline then before.dropLast
    else before
  match Bytes.cutAt (· = byte '"') field with
  | (part, _ :: _) =>
      .error (.quote s.start s.asked (s.column + part.length) .bare)
  | (_, []) =>
      match after with
      | [] => .ok (field, none)
      | _ :: rest =>
          .ok (field, some
            { s with line := rest, column := s.column + before.length + 1 })

def fields : (limit : Nat) → Spot → Except Fault (List Bytes)
  | 0, _ => .ok []
  | limit + 1, s =>
      let read :=
        match s.line with
        | b :: rest =>
            if b = byte '"' then
              quotedField limit [] { s with line := rest,
                                            column := s.column + 1 }
            else plainField s
        | [] => plainField s
      match read with
      | .error fault => .error fault
      | .ok (field, none) => .ok [field]
      | .ok (field, some s) => (fields limit s).map (field :: ·)

/-- Read the first record, which begins on the first line that is not empty. -/
def recordOf (limit : Nat) :
    (asked : Nat) → List Bytes → Except Fault (List Bytes)
  | _, [] => .error .empty
  | asked, line :: later =>
      if line.isEmpty || line = [newline] then recordOf limit (asked + 1) later
      else fields limit ⟨line, later, asked + 1, asked + 1, asked + 1, 1⟩

/-- The fields of the first record of a text. -/
def record (text : Bytes) : Except Fault (List Bytes) :=
  recordOf (2 * text.length + 2) 0 ((lines text).map normalLine)

example : record (utf8 "\"a,b\",c\nd") = .ok [utf8 "a,b", utf8 "c"] := by rfl
example : record (utf8 "a\"b") = .error (.quote 1 1 2 .bare) := by rfl
example : record (utf8 "\n\n") = .error .empty := by rfl

end Csv

end FeatureGate
