import FeatureGate.Evaluation
import FeatureGate.Text.Utf8

/-!
Reports on conditions that can never hold and on `cfg` attributes that hold no
conditions. Reports never change how conditions are decided.
-/

namespace FeatureGate

namespace Lint

/-- How conditions that are always false are reported. -/
inductive Mode where
  | ignore
  | warn
  | error
deriving DecidableEq, Repr

inductive Severity where
  | warning
  | error
deriving DecidableEq, Repr

inductive Finding where
  | unknownPredicate (name : Bytes)
  | unknownKey (key : Bytes)
  | unknownFunction (name : Bytes)
  | notArity (count : Nat)
  | emptyAny
  | emptyCfg
  | malformedCfg (attr : Attribute)
deriving DecidableEq, Repr

/-- A finding at its place in a file. -/
structure Issue where
  file : Bytes
  span : Span
  severity : Severity
  finding : Finding
deriving DecidableEq, Repr

namespace Mode

/-- The mode with exactly this name; any other name means warn. -/
def ofName (name : Bytes) : Mode :=
  if name = utf8 "ignore" then .ignore
  else if name = utf8 "error" then .error
  else .warn

/-- The mode that a word stands for, in any case and with blanks around it. -/
def parse? (raw : Bytes) : Option Mode :=
  match String.ofList (trimBlanks (lowerChars raw)) with
  | "" | "warn" | "warning" => some .warn
  | "error" | "err" => some .error
  | "ignore" | "off" | "none" => some .ignore
  | _ => none

/-- The complaint about a word that names no mode. -/
def unknownMessage (raw : Bytes) : Bytes :=
  utf8 "unknown malformed mode: " ++ raw

def name : Mode → String
  | .ignore => "ignore"
  | .warn => "warn"
  | .error => "error"

/-- The severity of conditions that are always false. -/
def severity : Mode → Severity
  | .error => .error
  | _ => .warning

end Mode

namespace Severity

def name : Severity → String
  | .warning => "warning"
  | .error => "error"

end Severity

namespace Finding

def code : Finding → String
  | .unknownPredicate _ => "unknown-predicate"
  | .unknownKey _ => "unknown-key"
  | .unknownFunction _ => "unknown-function"
  | .notArity _ => "not-arity"
  | .emptyAny => "empty-any"
  | .emptyCfg => "empty-cfg"
  | .malformedCfg _ => "malformed-cfg"

def message : Finding → Bytes
  | .unknownPredicate name =>
      utf8 "unknown cfg predicate " ++ quote name ++ utf8 " is always false"
  | .unknownKey key =>
      utf8 "unknown cfg key " ++ quote key ++ utf8 " is always false"
  | .unknownFunction name =>
      utf8 "unknown cfg function " ++ quote name ++ utf8 " is always false"
  | .notArity count =>
      utf8 "not() takes exactly one condition, got " ++ decimal count ++
        utf8 "; always false"
  | .emptyAny => utf8 "any() with no conditions is always false"
  | .emptyCfg => utf8 "cfg() has no conditions and always includes the item"
  | .malformedCfg attr =>
      attr.render ++
        utf8 " is not a cfg predicate list and always includes the item"

end Finding

namespace Issue

/-- The line that tells of an issue. -/
def text (issue : Issue) : Bytes :=
  issue.file ++ utf8 ":" ++ decimal issue.span.line ++ utf8 ":" ++
    decimal issue.span.column
    ++ utf8 ": " ++ utf8 issue.severity.name ++ utf8 " [" ++
      utf8 issue.finding.code
    ++ utf8 "] " ++ issue.finding.message

end Issue

mutual

/-- The findings in a condition. Nothing is reported below a condition that is
itself at fault. -/
def termFindings : Term → List Finding
  | .ident name =>
      if name = Vocabulary.test then [] else [.unknownPredicate name]
  | .keyValue key _ =>
      if key = Vocabulary.feature then [] else [.unknownKey key]
  | .call name args =>
      if name = Vocabulary.not then
        if args.length = 1 then termsFindings args else [.notArity args.length]
      else if name = Vocabulary.all then termsFindings args
      else if name = Vocabulary.any then
        if args.isEmpty then [.emptyAny] else termsFindings args
      else [.unknownFunction name]
  | .hole => []

/-- The findings in a list of conditions. -/
def termsFindings : List Term → List Finding
  | [] => []
  | t :: ts => termFindings t ++ termsFindings ts

end

/-- The issues of one attribute: always warnings for an attribute without
conditions, and of the severity of the mode for conditions that are always
false. -/
def attributeIssues (file : Bytes) (severity : Severity) (attr : Attribute) :
    List Issue :=
  if attr.isCfg then
    match attr.args with
    | .paren [] => [⟨file, attr.span, .warning, .emptyCfg⟩]
    | .paren terms =>
        (termsFindings terms).map fun f => ⟨file, attr.span, severity, f⟩
    | _ => [⟨file, attr.span, .warning, .malformedCfg attr⟩]
  else []

/-- The issues of a list of attributes. -/
def lintAttributes (file : Bytes) (mode : Mode) (attrs : List Attribute) :
    List Issue :=
  match mode with
  | .ignore => []
  | _ => attrs.flatMap (attributeIssues file mode.severity)

/-- The issues of a list of items. -/
def lintItems (file : Bytes) (mode : Mode) (items : List Item) : List Issue :=
  items.flatMap fun item => lintAttributes file mode item.attrs

def hasErrors (issues : List Issue) : Bool :=
  issues.any fun i => decide (i.severity = .error)

end Lint

end FeatureGate
