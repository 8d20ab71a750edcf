import FeatureGate.Attribute
import FeatureGate.CompileOptions

/-!
Deciding conditions. Evaluation is total: a term that is not understood is
false, and a `cfg` attribute without a list of conditions always holds.
-/

namespace FeatureGate

namespace Vocabulary

def cfg : Bytes := utf8 "cfg"

/-- The predicate of a test build, and the attribute of a test. -/
def test : Bytes := utf8 "test"

/-- The key whose value names a feature. -/
def feature : Bytes := utf8 "feature"

def not : Bytes := utf8 "not"

def all : Bytes := utf8 "all"

def any : Bytes := utf8 "any"

end Vocabulary

namespace Term

mutual

/-- Whether a condition holds under the options. -/
def eval (o : CompileOptions) : Term → Bool
  | .ident name => decide (name = Vocabulary.test) && o.test
  | .keyValue key value =>
      decide (key = Vocabulary.feature) && o.hasFeature value
  | .call name args =>
      if name = Vocabulary.not then
        match args with
        | [arg] => !eval o arg
        | _ => false
      else if name = Vocabulary.all then evalAll o args
      else if name = Vocabulary.any then evalAny o args
      else false
  | .hole => false

def evalAll (o : CompileOptions) : List Term → Bool
  | [] => true
  | t :: ts => eval o t && evalAll o ts

def evalAny (o : CompileOptions) : List Term → Bool
  | [] => false
  | t :: ts => eval o t || evalAny o ts

end

end Term

namespace Attribute

/-- Whether the conditions of an attribute hold, whatever its name. -/
def eval (o : CompileOptions) (attr : Attribute) : Bool :=
  match attr.args with
  | .paren terms => Term.evalAll o terms
  | _ => true

/-- Attributes named `cfg` hold conditions. -/
def isCfg (attr : Attribute) : Bool := decide (attr.name = Vocabulary.cfg)

/-- The conditions of an attribute; only `cfg` attributes have some. -/
def conditions (attr : Attribute) : List Term :=
  if attr.isCfg then
    match attr.args with
    | .paren terms => terms
    | _ => []
  else []

/-- The attribute `#[cfg(test)]`, with nothing else in its list. -/
def isCfgTest (attr : Attribute) : Bool :=
  attr.isCfg &&
    match attr.args with
    | .paren [.ident name] => decide (name = Vocabulary.test)
    | _ => false

end Attribute

/-- An item survives when all its `cfg` attributes hold. -/
def shouldInclude (attrs : List Attribute) (o : CompileOptions) : Bool :=
  attrs.all fun attr => !attr.isCfg || attr.eval o

/-- A test carries an attribute named `test`. -/
def isTest (attrs : List Attribute) : Bool :=
  attrs.any fun attr => decide (attr.name = Vocabulary.test)

/-- An item only for tests carries exactly `#[cfg(test)]`; options play no part
in this. -/
def isCfgTest (attrs : List Attribute) : Bool := attrs.any Attribute.isCfgTest

end FeatureGate
