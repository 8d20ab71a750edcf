import FeatureGate.FeatureSet

/-!
The options conditions are decided under: whether it is a test build, and which
features are enabled. Options are values; changing them gives new options.
-/

namespace FeatureGate

/-- Test mode and the enabled features. -/
@[ext]
structure CompileOptions where
  test : Bool := false
  features : FeatureSet := .empty
deriving DecidableEq, Repr

namespace CompileOptions

/-- The options with the listed features, outside test mode. -/
def withFeatures (names : List Bytes) : CompileOptions :=
  { features := .ofList names }

/-- The options with the listed features in test mode. -/
def forTesting (names : List Bytes) : CompileOptions :=
  { test := true, features := .ofList names }

/-- Whether a feature is enabled; names are compared byte by byte. -/
def hasFeature (o : CompileOptions) (name : Bytes) : Bool :=
  decide (name ∈ o.features)

/-- The options in or out of test mode. -/
def setTest (o : CompileOptions) (test : Bool) : CompileOptions :=
  { o with test := test }

def enable (o : CompileOptions) (name : Bytes) : CompileOptions :=
  { o with features := o.features.insert name }

def disable (o : CompileOptions) (name : Bytes) : CompileOptions :=
  { o with features := o.features.erase name }

@[simp] theorem hasFeature_enable (o : CompileOptions) (name other : Bytes) :
    (o.enable name).hasFeature other = (decide (other = name) ||
      o.hasFeature other) := by
  simp [hasFeature, enable]

@[simp] theorem hasFeature_disable (o : CompileOptions) (name other : Bytes) :
    (o.disable name).hasFeature other =
      (decide (other ≠ name) && o.hasFeature other) := by
  simp [hasFeature, disable]

end CompileOptions

end FeatureGate
