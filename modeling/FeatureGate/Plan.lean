import FeatureGate.Evaluation
import FeatureGate.Log

/-!
The plan of a compilation: a decision for every item, and the items sorted by
it. All lists keep the order of the items.
-/

namespace FeatureGate

/-- What is decided about an item. -/
structure Decision where
  item : Item
  included : Bool
  test : Bool
  testOnly : Bool
deriving DecidableEq, Repr

/-- The decisions on a list of items. -/
structure Plan where
  decisions : List Decision
deriving DecidableEq, Repr

/-- The only way in which planning fails. -/
inductive PlanError where
  | cancelled
deriving DecidableEq, Repr

def PlanError.message : PlanError → Bytes
  | .cancelled => utf8 "plan cancelled: context canceled"

namespace Decision

def make (o : CompileOptions) (item : Item) : Decision where
  item := item
  included := shouldInclude item.attrs o
  test := isTest item.attrs
  testOnly := isCfgTest item.attrs

end Decision

namespace Plan

/-- The plan for a list of items. -/
def make (items : List Item) (o : CompileOptions) : Plan :=
  ⟨items.map (Decision.make o)⟩

/-- Planning that may have been cancelled before it began; an empty plan is
never cancelled. -/
def makeUnless (cancelled : Bool) (items : List Item) (o : CompileOptions) :
    Except PlanError Plan :=
  if cancelled && !items.isEmpty then .error .cancelled else .ok (make items o)

/-- The items with a certain decision, in order. -/
def select (plan : Plan) (p : Decision → Bool) : List Item :=
  (plan.decisions.filter p).map (·.item)

def included (plan : Plan) : List Item := plan.select (·.included)

def excluded (plan : Plan) : List Item := plan.select fun d => !d.included

def tests (plan : Plan) : List Item := plan.select (·.test)

def testOnly (plan : Plan) : List Item := plan.select (·.testOnly)

/-- An item with its kind and name. -/
def itemText (item : Item) : Bytes := item.kind ++ utf8 " " ++ item.name

def decisionLine (d : Decision) : Bytes :=
  Bytes.padRight 8 (if d.included then utf8 "include" else utf8 "exclude") ++
    utf8 " "
    ++ itemText d.item ++ utf8 "\n"

def text (plan : Plan) : Bytes := plan.decisions.flatMap decisionLine

/-- The tests, and after them the items only for tests. -/
def testsText (plan : Plan) : Bytes :=
  (plan.tests.flatMap fun item => utf8 "test      " ++ itemText item ++
    utf8 "\n")
    ++ plan.testOnly.flatMap fun item =>
      utf8 "cfg(test) " ++ itemText item ++ utf8 "\n"

/-- The log of planning: each item that is left out, and then the counts. -/
def log (plan : Plan) : List LogEntry :=
  (plan.excluded.map fun item =>
    { level := .debug, message := "Item excluded by cfg"
      fields := [("kind", .text item.kind), ("name", .text item.name),
        ("line", .number item.span.line)] })
  ++ [{ level := .info, message := "Conditional compilation planned"
        fields := [("items", .number plan.decisions.length),
          ("included", .number plan.included.length),
          ("excluded", .number plan.excluded.length),
          ("tests", .number plan.tests.length)] }]

end Plan

end FeatureGate
