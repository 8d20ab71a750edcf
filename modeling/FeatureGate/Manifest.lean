import FeatureGate.Config
import FeatureGate.Files

/-!
Manifests: JSON files that list features. A query finds a name or a list of
names in the file.
-/

namespace FeatureGate

inductive ManifestFault where
  | unreadable (fault : FileFault)
  | invalidJson
  | nonString (query raw : Bytes)
  | notNames (query : Bytes)
deriving DecidableEq, Repr

structure ManifestError where
  path : Bytes
  fault : ManifestFault
deriving DecidableEq, Repr

def ManifestError.message (error : ManifestError) : Bytes :=
  let subject := utf8 "manifest " ++ error.path
  match error.fault with
  | .unreadable fault =>
      utf8 "reading manifest: " ++ fault.describe error.path
  | .invalidJson => subject ++ utf8 " is not valid json"
  | .nonString query raw =>
      subject ++ utf8 ": " ++ query ++ utf8 " contains non-string value " ++ raw
  | .notNames query =>
      subject ++ utf8 ": " ++ query
        ++ utf8 " is not a string or array of strings"

namespace Manifest

def defaultQuery : Bytes := utf8 "features.default"

/-- The names in a list; the first element that is no text is a fault. -/
def names (query : Bytes) : List Element → Except ManifestFault (List Bytes)
  | [] => .ok []
  | .text value :: rest => (names query rest).map (value :: ·)
  | .other raw :: _ => .error (.nonString query raw)

/-- The names that a query finds: none, one, or a list of them. -/
def found (query : Bytes) : Option Found → Except ManifestFault (List Bytes)
  | none => .ok []
  | some (.text value) => .ok [value]
  | some (.list elements) => names query elements
  | some .other => .error (.notNames query)

/-- The features that a query finds in the text of a manifest. -/
def featuresIn (d : Decoders) (text query : Bytes) :
    Except ManifestFault (List Bytes) :=
  if d.isJson text then
    let query := if query.isEmpty then defaultQuery else query
    found query (d.find? text query)
  else .error .invalidJson

/-- The features that a query finds in the file at a path. -/
def features (d : Decoders) (view : FileView) (path query : Bytes) :
    Except ManifestError (List Bytes) :=
  match view.read path with
  | .error fault => .error ⟨path, .unreadable fault⟩
  | .ok text => (featuresIn d text query).mapError (⟨path, ·⟩)

end Manifest

end FeatureGate
