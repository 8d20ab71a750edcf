import FeatureGate.Evaluation
import FeatureGate.Json.Printer

/-!
Which items mention which features, and how that compares with the enabled ones.
-/

namespace FeatureGate

/-- What an edge of the graph leads to. -/
inductive EdgeTarget where
  | feature (name : Bytes)
  | test
deriving DecidableEq, Repr

/-- An item, and a feature or the test predicate that its conditions mention. -/
structure Edge where
  item : Bytes
  target : EdgeTarget
deriving DecidableEq, Repr

/-- The mentioned features: all, those that are not enabled, and the enabled
ones that no item mentions. -/
structure Coverage where
  used : List Bytes
  disabled : List Bytes
  unreferenced : List Bytes
deriving DecidableEq, Repr

/-- The graph of items and features. -/
structure FeatureGraph where
  items : List Bytes
  features : List Bytes
  edges : List Edge
  coverage : Coverage
deriving DecidableEq, Repr

namespace EdgeTarget

/-- The node an edge leads to, as it is shown. -/
def text : EdgeTarget → Bytes
  | .feature name => utf8 "feature:" ++ name
  | .test => utf8 "test"

def kind : EdgeTarget → String
  | .feature _ => "feature"
  | .test => "test"

end EdgeTarget

namespace Term

mutual

/-- The features a term mentions, at any depth and under any function. -/
def features : Term → List Bytes
  | .keyValue key value => if key = Vocabulary.feature then [value] else []
  | .call _ args => featuresOfList args
  | _ => []

/-- The features mentioned in a list of terms. -/
def featuresOfList : List Term → List Bytes
  | [] => []
  | t :: ts => features t ++ featuresOfList ts

end

mutual

/-- Whether a term mentions the test predicate, at any depth. -/
def mentionsTest : Term → Bool
  | .ident name => decide (name = Vocabulary.test)
  | .call _ args => anyMentionsTest args
  | _ => false

/-- Whether one of the terms mentions the test predicate. -/
def anyMentionsTest : List Term → Bool
  | [] => false
  | t :: ts => mentionsTest t || anyMentionsTest ts

end

end Term

namespace Item

def conditions (item : Item) : List Term :=
  item.attrs.flatMap Attribute.conditions

/-- The name of an item in the graph. -/
def node (item : Item) : Bytes := item.kind ++ utf8 ":" ++ item.name

def features (item : Item) : FeatureSet :=
  .ofList (Term.featuresOfList item.conditions)

/-- Whether an item mentions the test predicate. -/
def mentionsTest (item : Item) : Bool := Term.anyMentionsTest item.conditions

/-- The edges from an item: to its features in order, and then to the test
predicate. -/
def edges (item : Item) : List Edge :=
  (item.features.names.map fun name => ⟨item.node, .feature name⟩)
    ++ if item.mentionsTest then [⟨item.node, .test⟩] else []

end Item

namespace FeatureGraph

def usedFeatures (items : List Item) : FeatureSet :=
  .ofList (items.flatMap fun item => item.features.names)

/-- The graph of a list of items, compared with the enabled features. -/
def build (items : List Item) (enabled : FeatureSet) : FeatureGraph :=
  let used := usedFeatures items
  { items := items.map Item.node
    features := used.names
    edges := items.flatMap Item.edges
    coverage :=
      { used := used.names
        disabled := used.names.filter fun name => decide (name ∉ enabled)
        unreferenced :=
          enabled.names.filter fun name => decide (name ∉ used) } }

/-- A list of names; without names it is null. -/
def namesOutput (names : List Bytes) : JsonOutput :=
  .listOrNull (names.map .text)

def edgeOutput (edge : Edge) : JsonOutput :=
  .record [("from", .text edge.item), ("to", .text edge.target.text),
    ("kind", .text (utf8 edge.target.kind))]

/-- The graph as JSON. Only the features are a list even if there are none. -/
def output (g : FeatureGraph) : JsonOutput :=
  .record [("items", namesOutput g.items),
    ("features", .list (g.features.map .text)),
    ("edges", .listOrNull (g.edges.map edgeOutput)),
    ("coverage", .record [("used_features", namesOutput g.coverage.used),
      ("disabled_features", namesOutput g.coverage.disabled),
      ("unreferenced_features", namesOutput g.coverage.unreferenced)])]

def text (g : FeatureGraph) : Bytes := g.output.render 0 ++ utf8 "\n"

end FeatureGraph

end FeatureGate
