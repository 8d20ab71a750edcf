import FeatureGate.Yaml.Node
import FeatureGate.Text.Base64
import FeatureGate.Config

/-!
Config files in YAML. Keys match exactly, and no key may occur twice in a
mapping that is read. Keys that mean nothing here are passed over with their
values. A text is taken as it is written, whatever it would be by its spelling;
null leaves a value as it is, empties the feature list, and is dropped from it
as an element. The key `<<` brings in the pairs of other mappings for keys that
are not there.

This is the part of the format that a config needs: only the first document is
read, and only texts, truth values, lists of texts and mappings with known keys
come out of it. Values of other kinds are checked for fitting their tags where
they are read, and never made. A stream is checked as in
`FeatureGate.Yaml.Characters`.
-/

namespace FeatureGate

namespace Yaml

inductive ScalarValue where
  | null
  | bool (value : Bool)
  | text (value : Bytes)
  /-- A number or a date, which is used only as it is written. -/
  | literal
deriving DecidableEq, Repr

/-- What a scalar stands for; its spelling has to fit its tag, and an integer is
a float too. -/
def scalarValue? (tag : Tag) (text : String) : Option ScalarValue :=
  match tag with
  | .text | .merge | .other => some (.text (utf8 text))
  | .binary => (Base64.decode? (utf8 text)).map .text
  | _ =>
      let kind := Tag.ofSpelling (tag = .timestamp) text
      if kind = tag || (tag = .float && kind = .int) then
        match kind with
        | .null => some .null
        | .bool =>
            some (.bool (text = "true" || text = "True" || text = "TRUE"))
        | _ => some .literal
      else none

def yesWords : List Bytes :=
  ["y", "Y", "yes", "Yes", "YES", "on", "On", "ON"].map utf8

def noWords : List Bytes :=
  ["n", "N", "no", "No", "NO", "off", "Off", "OFF"].map utf8

/-- Whether a node is the key that brings in other mappings. -/
def Node.isMerge : Node → Bool
  | .scalar .merge "<<" => true
  | _ => false

/-- Whether two keys count as the same: scalars by their text, aliases by their
name, sequences and mappings always. -/
def Node.sameKey : Node → Node → Bool
  | .scalar _ a, .scalar _ b => a = b
  | .sequence _, .sequence _ => true
  | .mapping _, .mapping _ => true
  | .reference _ a _, .reference _ b _ => a = b
  | _, _ => false

/-- Whether no key of a mapping occurs twice. -/
def uniqueKeys : List (Node × Node) → Bool
  | [] => true
  | (key, _) :: rest =>
      rest.all (fun (other, _) => !key.sameKey other) && uniqueKeys rest

/-- How much of a document has been read. -/
structure Progress where
  /-- The nodes visited. -/
  steps : Nat := 0
  /-- Those of them visited through an alias. -/
  aliased : Nat := 0
  /-- The aliases being followed. -/
  following : List Nat := []
deriving Repr

/-- A step in reading values from a document; `none` is a fault. -/
abbrev Decode := StateT Progress Option

/-- How many of a number of visits may go through aliases, in parts of
`ratioUnit`: 99 of 100 in a small document, 1 of 10 in a very large one, and
evenly less between. -/
def allowedRatio (steps : Nat) : Nat :=
  if steps ≤ 400000 then 99 * 3600000
  else if 4000000 ≤ steps then 10 * 3600000
  else 99 * 3600000 - 89 * (steps - 400000)

def ratioUnit : Nat := 100 * 3600000

/-- Whether too much has been visited through aliases. -/
def Progress.isExcessive (p : Progress) : Bool :=
  100 < p.aliased && 1000 < p.steps
    && allowedRatio p.steps * p.steps < ratioUnit * p.aliased

/-- Count a visit; a document that is mostly aliases is refused. -/
def visit : Decode Unit := do
  modify fun p =>
    { p with steps := p.steps + 1,
             aliased := p.aliased + if p.following.isEmpty then 0 else 1 }
  if (← get).isExcessive then failure

variable {α σ : Type}

/-- Read a node, through an alias if it is one. An alias cannot be followed
inside of itself. -/
def enter (d : Document) (node : Node) (read : Node → Decode α) : Decode α := do
  visit
  match node with
  | .reference number _ anchor =>
      if (← get).following.contains number then failure
      match d.anchored? anchor with
      | none => failure
      | some target =>
          modify fun p => { p with following := number :: p.following }
          visit
          let result ← read target
          modify fun p => { p with following := p.following.tail }
          return result
  | node => read node

/-- The text of a scalar, if it is not null. -/
def decodeText (d : Document) (node : Node) : Decode (Option Bytes) :=
  enter d node fun node => do
    match node with
    | .scalar tag text =>
        match scalarValue? tag text with
        | some .null => return none
        | some (.text value) => return some value
        | some _ => return some (utf8 text)
        | none => failure
    | _ => failure

/-- The truth value of a scalar, if it is not null. -/
def decodeBool (d : Document) (node : Node) : Decode (Option Bool) :=
  enter d node fun node => do
    match node with
    | .scalar tag text =>
        match scalarValue? tag text with
        | some .null => return none
        | some (.bool b) => return some b
        | some (.text word) =>
            if yesWords.contains word then return some true
            else if noWords.contains word then return some false
            else failure
        | _ => failure
    | _ => failure

/-- The texts of a sequence without its nulls; null itself is the empty list. -/
def decodeTexts (d : Document) (node : Node) : Decode (List Bytes) :=
  enter d node fun node => do
    match node with
    | .scalar tag text =>
        match scalarValue? tag text with
        | some .null => return []
        | _ => failure
    | .sequence items => return (← items.mapM (decodeText d)).filterMap id
    | _ => failure

/-- How the fields of a value are set by name. -/
abbrev Fields (σ : Type) := Bytes → Option (Node → σ → Decode σ)

/-- A value whose fields are being set from the pairs of a mapping. -/
structure Filling (σ : Type) where
  value : σ
  /-- The fields set from this mapping. -/
  done : List Bytes := []
  /-- The keys that are taken, where mappings are brought together. -/
  seen : Option (List Bytes)
  /-- What the key `<<` brings in. -/
  source : Option Node := none

def fillPair (d : Document) (fields : Fields σ) (f : Filling σ)
    (pair : Node × Node) :
    Decode (Filling σ) := do
  if pair.1.isMerge then return { f with source := some pair.2 }
  match ← decodeText d pair.1 with
  | none => return f
  | some name =>
      if f.seen.any (·.contains name) then return f
      let f := { f with seen := f.seen.map (name :: ·) }
      match fields name with
      | none => return f
      | some set =>
          if f.done.contains name then failure
          return { f with value := ← set pair.2 f.value,
                          done := name :: f.done }

def sources : Node → List Node
  | .sequence items => items
  | node => [node]

/-- Set fields from the pairs of a mapping and of those it brings in. Its own
keys come first, then those of each mapping brought in; `seen` are the keys that
are taken already. -/
def fill (d : Document) (fields : Fields σ) :
    (limit : Nat) → (pairs : List (Node × Node)) →
    (seen : Option (List Bytes)) → σ → Decode (σ × Option (List Bytes))
  | 0, _, _, _ => failure
  | limit + 1, pairs, seen, value => do
      unless uniqueKeys pairs do failure
      let f ← pairs.foldlM (fillPair d fields) { value := value, seen := seen }
      match f.source with
      | none => return (f.value, f.seen)
      | some source =>
          let taken ←
            match f.seen with
            | some names => pure names
            | none => do
                pure ((← pairs.mapM fun pair =>
                  decodeText d pair.1).filterMap id)
          let (value, taken) ←
              (sources source).foldlM (bringIn limit) (f.value, taken)
          return (value, f.seen.map fun _ => taken)
where
  /-- Set fields from one mapping that is brought in. -/
  bringIn (limit : Nat) (acc : σ × List Bytes) (node : Node) : Decode
    (σ × List Bytes) :=
    enter d node fun node => do
      match node with
      | .mapping pairs =>
          let (value, seen) ← fill d fields limit pairs (some acc.2) acc.1
          return (value, seen.getD acc.2)
      | _ => failure

/-- Set fields from a mapping; null sets none. -/
def decodeFields (d : Document) (fields : Fields σ) (node : Node)
    (value : σ) : Decode σ :=
  enter d node fun node => do
    match node with
    | .scalar tag text =>
        match scalarValue? tag text with
        | some .null => return value
        | _ => failure
    | .mapping pairs =>
        let limit := (d.size + 1) * (d.size + 1)
        return (← fill d fields limit pairs none value).1
    | _ => failure

end Yaml

namespace Config

open Yaml

def manifestFields (d : Document) : Fields ManifestRef := fun name =>
  if name = utf8 "path" then
    some fun node m =>
      return { m with path := (← decodeText d node).getD m.path }
  else if name = utf8 "query" then
    some fun node m =>
      return { m with query := (← decodeText d node).getD m.query }
  else none

def yamlFields (d : Document) : Fields Config := fun name =>
  if name = utf8 "test" then
    some fun node c =>
      return { c with test := (← decodeBool d node).getD c.test }
  else if name = utf8 "features" then
    some fun node c => return { c with features := ← decodeTexts d node }
  else if name = utf8 "manifest" then
    some fun node c => return { c with
      manifest := ← decodeFields d (manifestFields d) node c.manifest }
  else none

/-- The config of a YAML text; only the first document counts. -/
def ofYaml? (text : Bytes) : Option Config :=
  match document? text with
  | none => none
  | some none => some {}
  | some (some d) =>
      ((decodeFields d (yamlFields d) d.root {}).run { steps := 1 }).map (·.1)

end Config

end FeatureGate
