import FeatureGate.Json.Text
import FeatureGate.Config

/-!
Config files in JSON. Members are taken in their order, and a later one goes
over an earlier one of the same name. Names match in any case, names that mean
nothing here are passed over, `null` leaves a value as it is, and a value of the
wrong type refuses the file.
-/

namespace FeatureGate

namespace Config

/-- A letter without its case. Two letters beyond ASCII are forms of `s` and
`k`. -/
def foldCase (c : Char) : Char :=
  if c.toNat = 0x017F then 's' else if c.toNat = 0x212A then 'k' else c.toLower

/-- Whether a member name stands for a field. -/
def namesField (name : Bytes) (field : String) : Bool :=
  (Utf8.chars (Json.validText name)).map foldCase = field.toList

/-- The values of a list that is being filled: those in use, and those left from
a longer list before, which a `null` brings back. -/
structure Slots where
  used : List Bytes := []
  spare : List Bytes := []
deriving Repr

/-- The elements of a list, where `null` stands for what was in its place
before. -/
def elements? : (old : List Bytes) → List Json → Option (List Bytes)
  | _, [] => some []
  | old, .string body :: rest =>
      (elements? old.tail rest).map (Json.validText body :: ·)
  | old, .null :: rest => (elements? old.tail rest).map (old.head?.getD [] :: ·)
  | _, _ :: _ => none

/-- Fill a list from a JSON value. -/
def slots? (old : Slots) : Json → Option Slots
  | .null => some {}
  | .array [] _ => some {}
  | .array items _ =>
      let before := old.used ++ old.spare
      (elements? before items).map fun now => ⟨now, before.drop now.length⟩
  | _ => none

def text? (old : Bytes) : Json → Option Bytes
  | .null => some old
  | .string body => some (Json.validText body)
  | _ => none

/-- A truth value from a JSON value. -/
def bool? (old : Bool) : Json → Option Bool
  | .null => some old
  | .bool b => some b
  | _ => none

def addManifestMember? (m : ManifestRef) : Bytes × Json → Option ManifestRef
  | (name, value) =>
      if namesField name "path" then
        (text? m.path value).map ({ m with path := · })
      else if namesField name "query" then (text? m.query value).map
        ({ m with query := · })
      else some m

/-- The manifest from a JSON value, over the one known so far. -/
def manifest? (old : ManifestRef) : Json → Option ManifestRef
  | .null => some old
  | .object members _ => members.foldlM addManifestMember? old
  | _ => none

/-- A config whose feature list is being filled. -/
structure Draft where
  test : Bool := false
  features : Slots := {}
  manifest : ManifestRef := {}
deriving Repr

def addMember? (d : Draft) : Bytes × Json → Option Draft
  | (name, value) =>
      if namesField name "test" then
        (bool? d.test value).map ({ d with test := · })
      else if namesField name "features" then
        (slots? d.features value).map ({ d with features := · })
      else if namesField name "manifest" then
        (manifest? d.manifest value).map ({ d with manifest := · })
      else some d

/-- How deep a config file may be nested. -/
def jsonLevels : Nat := 10000

def ofJson? (text : Bytes) : Option Config :=
  match Json.parse? jsonLevels text with
  | some .null => some {}
  | some (.object members _) =>
      (members.foldlM addMember? {}).map fun d =>
        ⟨d.test, d.features.used, d.manifest⟩
  | _ => none

end Config

end FeatureGate
