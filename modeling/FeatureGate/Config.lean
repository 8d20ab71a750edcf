import FeatureGate.Text.Bytes

/-!
Config files and what is read from files at all. The formats of the files are
not of this library's making, so they are a parameter: `Decoders` says which
texts are configs, which are JSON, and what a query finds in them. Everything
else holds whatever the decoders are.
-/

namespace FeatureGate

/-- Where more features are listed: a file, and the query that finds them. -/
structure ManifestRef where
  path : Bytes := []
  query : Bytes := []
deriving DecidableEq, Repr

/-- The content of a config file. -/
structure Config where
  test : Bool := false
  /-- The features in the order of the file. -/
  features : List Bytes := []
  manifest : ManifestRef := {}
deriving DecidableEq, Repr

inductive ConfigFormat where
  | json
  | yaml
deriving DecidableEq, Repr

/-- An element of a list that a query finds. -/
inductive Element where
  | text (value : Bytes)
  /-- Anything but a text, as it is written. -/
  | other (raw : Bytes)
deriving DecidableEq, Repr

/-- What a query finds. -/
inductive Found where
  | text (value : Bytes)
  | list (elements : List Element)
  /-- A value that is neither a text nor a list; null is one too. -/
  | other
deriving DecidableEq, Repr

/-- How the files are understood. -/
structure Decoders where
  /-- The config that a text in some format stands for. -/
  config? : ConfigFormat → Bytes → Option Config
  isJson : Bytes → Bool
  /-- What a query finds in a JSON text, if anything. -/
  find? : (text query : Bytes) → Option Found

end FeatureGate
