import FeatureGate.Json.Path
import FeatureGate.Text.Utf8

/-!
Selecting a part of a JSON value by a path. Members are tried in the order of
the text, and of several members with a matching key the first from which the
path leads to a result is taken. What a path may hold is in
`FeatureGate.Json.Path`, with what is left out there; a modifier's argument is
passed over.
-/

namespace FeatureGate

namespace Json

/-- Whether a text matches a pattern in which `*` stands for any characters and
`?` for one; `limit` bounds the steps. -/
def wildMatchUpTo : (limit : Nat) → (pattern text : List Char) → Bool
  | 0, _, _ => false
  | _, [], text => text.isEmpty
  | limit + 1, p :: pattern, text =>
      if p = '*' then
        wildMatchUpTo limit pattern text
          || (!text.isEmpty && wildMatchUpTo limit (p :: pattern) text.tail)
      else
        match text with
        | [] => false
        | c :: text' =>
            if p = '?' then wildMatchUpTo limit pattern text'
            else if p = '\\' then
              match pattern with
              | [] => false
              | q :: pattern' => q = c && wildMatchUpTo limit pattern' text'
            else p = c && wildMatchUpTo limit pattern text'

/-- Whether a text matches a pattern with wild characters. -/
def wildMatch (pattern text : Bytes) : Bool :=
  let pattern := Utf8.chars pattern
  let text := Utf8.chars text
  wildMatchUpTo (pattern.length + text.length + 1) pattern text

/-- Whether a key is meant by a step. -/
def KeyStep.accepts (step : KeyStep) (key : Bytes) : Bool :=
  if step.wild then wildMatch step.key (verbatimText key)
  else step.key = verbatimText key

/-- The number that a decimal text writes. Exponents beyond the range of numbers
are cut down to its border; a text that is no number counts as zero. -/
def numberOf (text : Bytes) : Float :=
  let (negative, text) :=
    match text with
    | b :: rest =>
        if b = byte '-' then (true, rest)
        else if b = byte '+' then (false, rest)
        else (false, text)
    | [] => (false, [])
  let (whole, text) := text.span Bytes.isDigit
  let (fraction, text) :=
    match text with
    | b :: rest => if b = byte '.' then rest.span Bytes.isDigit else ([], text)
    | [] => ([], [])
  let exponent? : Option Int :=
    match text with
    | [] => some 0
    | e :: rest =>
        if e = byte 'e' || e = byte 'E' then
          let (negative, ds) :=
            match rest with
            | s :: ds =>
                if s = byte '-' then (true, ds)
                else if s = byte '+' then (false, ds)
                else (false, rest)
            | [] => (false, [])
          if ds.isEmpty || !ds.all Bytes.isDigit then none
          else some
            (if negative then -(Bytes.ofDigits ds : Int) else Bytes.ofDigits ds)
        else none
  match exponent? with
  | none => 0
  | some e =>
      if (whole ++ fraction).isEmpty then 0
      else
        let mantissa := Bytes.ofDigits (whole ++ fraction)
        let scale : Int := max (-2000) (min 2000 (e - fraction.length))
        let size := Float.ofScientific mantissa (scale < 0) scale.natAbs
        if negative then -size else size

/-- Whether a truth value in words is meant, in any case. -/
def truthOf? (text : Bytes) : Option Bool :=
  match String.ofList (lowerChars text) with
  | "1" | "t" | "true" => some true
  | "0" | "f" | "false" => some false
  | _ => none

def isTrueish : Option Json → Bool
  | some (.bool b) => b
  | some (.string body) => truthOf? (verbatimText body) = some true
  | some (.number text) => numberOf text != 0
  | _ => false

def isFalseish : Option Json → Bool
  | none => true
  | some .null => true
  | some (.bool b) => !b
  | some (.string body) => truthOf? (verbatimText body) = some false
  | some (.number text) => numberOf text == 0
  | _ => false

def isNullish : Option Json → Bool
  | none => true
  | some .null => true
  | _ => false

namespace Condition

/-- The value to compare and the text to compare it with; a text that begins
with a tilde asks what kind of value it is instead. -/
def subject (condition : Condition) (value : Option Json) :
    Option Json × Bytes :=
  match condition.value with
  | b :: kind =>
      if b = byte '~' then
        let answer (b : Bool) : Option Json × Bytes :=
          (some (.bool b), utf8 "true")
        if kind = utf8 "*" then answer value.isSome
        else if kind = utf8 "null" then answer (isNullish value)
        else if kind = utf8 "true" then answer (isTrueish value)
        else if kind = utf8 "false" then answer (isFalseish value)
        else (none, [])
      else (value, condition.value)
  | [] => (value, [])

def compareText (c : Comparison) (a b : Bytes) : Bool :=
  match c with
  | .exists => true
  | .equal => a = b
  | .notEqual => a ≠ b
  | .less => a < b
  | .lessEqual => ¬ b < a
  | .greater => b < a
  | .greaterEqual => ¬ a < b
  | .like => wildMatch b a
  | .unlike => !wildMatch b a
  | .never => false

def compareNumber (c : Comparison) (a b : Float) : Bool :=
  match c with
  | .exists => true
  | .equal => a == b
  | .notEqual => a != b
  | .less => a < b
  | .lessEqual => a ≤ b
  | .greater => b < a
  | .greaterEqual => b ≤ a
  | _ => false

/-- Compare a truth value with a word. -/
def compareBool (c : Comparison) (a : Bool) (word : Bytes) : Bool :=
  match c with
  | .exists => true
  | .equal => word = utf8 (toString a)
  | .notEqual => word ≠ utf8 (toString a)
  | .less => !a && word = utf8 "true"
  | .lessEqual => !a
  | .greater => a && word = utf8 "false"
  | .greaterEqual => a
  | _ => false

def holds (condition : Condition) (value : Option Json) : Bool :=
  let (value, text) := condition.subject value
  match value with
  | none => false
  | some (.string body) =>
      compareText condition.comparison (verbatimText body) text
  | some (.number n) =>
      compareNumber condition.comparison (numberOf n) (numberOf text)
  | some (.bool b) => compareBool condition.comparison b text
  | some _ => condition.comparison = .exists

end Condition

namespace Modifier

/-- Apply a modifier. Where there is no value, keys and values are empty
lists. -/
def apply : Modifier → Option Json → Option Json
  | .this, value => value
  | .reverse, some (.array elements _) => some (.ofElements elements.reverse)
  | .reverse, some (.object members _) => some (.ofMembers members.reverse)
  | .reverse, value => value
  | .keys, some (.object members _) =>
      some (.ofElements (members.map fun m => .string m.1))
  | .keys, _ => some (.ofElements [])
  | .values, some (.object members _) => some (.ofElements (members.map (·.2)))
  | .values, some (.array elements text) => some (.array elements text)
  | .values, some value => some (.ofElements [value])
  | .values, none => some (.ofElements [])

end Modifier

/-- What a selection has found: a value, and a path still to be followed on
it. -/
structure Selection where
  value : Option Json := none
  pipe : Option Bytes := none
deriving Repr

namespace Selection

/-- Keep the path that follows a pipe. -/
def follow (s : Selection) : Continuation → Selection
  | .pipe path => { s with pipe := some path }
  | _ => s

/-- Keep a value unless there is one. -/
def orElse (s : Selection) (value : Json) : Selection :=
  match s.value with
  | some _ => s
  | none => { s with value := some value }

end Selection

def isContainer : Json → Bool
  | .array _ _ => true
  | .object _ _ => true
  | _ => false

/-- Try the parts of a container in order until one is a hit. -/
def firstHit {α : Type} (attempt : Selection → α → Selection × Bool)
    (s : Selection) (parts : List α) :
    Selection × Bool :=
  parts.foldl (fun (s, hit) part => if hit then (s, hit) else attempt s part)
    (s, false)

mutual

/-- Follow a path into a container; `limit` bounds its steps. The answer tells
whether the search is over. -/
def selectUpTo :
    (limit : Nat) → (path : Bytes) → Selection → Json → Selection × Bool
  | 0, _, s, _ => (s, false)
  | limit + 1, path, s, .object members _ =>
      let step := KeyStep.ofPath path
      firstHit (fun s (key, value) =>
        if step.accepts key then
          match step.next with
          | .more rest =>
              if value.isContainer then selectUpTo limit rest s value
              else (s, false)
          | _ => ({ s with value := some value }, true)
        else (s, false)) (s.follow step.next) members
  | limit + 1, path, s, .array elements _ =>
      selectElementsUpTo limit path s elements
  | _, _, s, _ => (s, false)

/-- Follow a path into the elements of an array. -/
def selectElementsUpTo :
    (limit : Nat) → (path : Bytes) → Selection → List Json → Selection × Bool
  | 0, _, s, _ => (s, false)
  | limit + 1, path, s, elements =>
      match ElementStep.ofPath path with
      | .nothing next => (s.follow next, false)
      | .count next =>
          ({ s.follow next with
              value := some (.number (decimal elements.length)) }, true)
      | .index n next =>
          let s := s.follow next
          match n.bind (elements[·]?) with
          | none => (s, false)
          | some value =>
              match next with
              | .more rest =>
                  if value.isContainer then selectUpTo limit rest s value
                  else (s, false)
              | _ => ({ s with value := some value }, true)
      | .each rest =>
          let (rest, s) :=
            match splitPipe? rest with
            | some (left, right) => (left, { s with pipe := some right })
            | none => (rest, s)
          let found := elements.filterMap fun e => getUpTo limit rest (some e)
          ({ s with value := some (.ofElements found) }, true)
      | .filter condition all next =>
          let s := s.follow next
          let meets (e : Json) : Bool :=
            if e.isContainer then
              condition.holds (getUpTo limit condition.path (some e))
            else condition.path.isEmpty && condition.holds (some e)
          let (s, target) :=
            match next with
            | .more rest =>
                match splitPipe? rest with
                | some (left, right) =>
                    (if elements.any meets then { s with pipe := some right }
                      else s,
                      fun e => getUpTo limit left (some e))
                | none => (s, fun e => getUpTo limit rest (some e))
            | _ => (s, some)
          if all then
            (s.orElse (.ofElements ((elements.filter meets).filterMap target)),
              false)
          else
            match elements.find? meets with
            | none => (s, false)
            | some e => ({ s with value := target e }, true)

/-- The part of a value that a path selects; `limit` bounds the steps of the
path. -/
def getUpTo : (limit : Nat) → (path : Bytes) → Option Json → Option Json
  | 0, _, _ => none
  | limit + 1, path, value =>
      match Modifier.split? path with
      | some (modifier, rest) =>
          let value := modifier.apply value
          match rest with
          | [] => value
          | _ :: rest => getUpTo limit rest value
      | none =>
          match value with
          | none => none
          | some value =>
              let (s, _) :=
                match Bytes.stripLead? (utf8 "..") path with
                | some rest => selectElementsUpTo limit rest {} [value]
                | none => selectUpTo limit path {} value
              match s.pipe with
              | none => s.value
              | some pipe => getUpTo limit pipe s.value

end

/-- The part of a value that a path selects. -/
def get? (value : Json) (path : Bytes) : Option Json :=
  getUpTo (3 * path.length + 3) path (some value)

end Json

end FeatureGate
