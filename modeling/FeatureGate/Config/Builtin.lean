import FeatureGate.Config.OfJson
import FeatureGate.Config.OfYaml
import FeatureGate.Json.Query

/-!
The decoders that the program is built with. They do not cover all that their
formats allow:

* a query knows the steps, conditions and modifiers of `FeatureGate.Json.Path`;
  several paths in brackets or braces, a literal behind `!` and any other
  modifier are taken for keys, so that they mostly find nothing;
* a YAML stream is refused for a bad character anywhere in it, also behind the
  first document, although only that one is read.

No statement about the program rests on these decoders: each holds of all.
-/

namespace FeatureGate

namespace Json

def element : Json → Element
  | .string body => .text (verbatimText body)
  | value => .other value.raw

def found : Json → Found
  | .string body => .text (verbatimText body)
  | .array elements _ => .list (elements.map element)
  | _ => .other

end Json

namespace Decoders

/-- A text nests at most as deep as it is long. -/
def json? (text : Bytes) : Option Json := Json.parse? text.length text

def builtin : Decoders where
  config?
    | .json => Config.ofJson?
    | .yaml => Config.ofYaml?
  isJson text := (json? text).isSome
  find? text query := ((json? text).bind (·.get? query)).map Json.found

end Decoders

end FeatureGate
