import FeatureGate.Attribute
import FeatureGate.Files
import FeatureGate.Grammar.Cursor

/-!
The grammar of attributes and item headers.

    attributes = attribute*
    items      = item*
    item       = attribute* ident ident ";"?
    attribute  = "#" "[" ident payload? "]"
    payload    = "=" string | list
    list       = "(" (term ("," term)* ","?)? ")"
    term       = ident payload?
-/

namespace FeatureGate

namespace Grammar

/-- One of the marks that are tokens by themselves. -/
def mark (c : Char) : Reader Token :=
  Reader.token fun t => t.kind = .punct && t.text = [byte c]

def ident : Reader Token := Reader.token fun t => t.kind = .ident

def string : Reader Token := Reader.token fun t => t.kind = .string

/-- The value of a string token; a text that cannot be unquoted stands for
itself. -/
def stringValue (t : Token) : Bytes := (unquote? t.text).getD t.text

/-- How the payload of an attribute or term is described. -/
def payloadText : String := "((\"=\" <string>) | ParenNode)?"

/-- A payload of the form `= "value"`. -/
def equals : Reader Bytes := do
  let _ ← mark '='
  let value ← Reader.require "<string>" string
  return stringValue value

/-- A further term of a list, behind its comma. -/
def nextTerm (term : Reader Term) : Reader Term := do
  let _ ← mark ','
  Reader.require "TermNode" term

/-- The inside of a list that is not empty. -/
def listItems (term : Reader Term) : Reader (List Term) := do
  let first ← term
  let others ← Reader.many (nextTerm term)
  let _ ← Reader.optional (mark ',')
  return first :: others

def list (term : Reader Term) : Reader (List Term) := Reader.construct do
  let _ ← mark '('
  let terms ← Reader.optional (listItems term)
  let _ ← Reader.require "\")\"" (mark ')')
  return terms.getD []

def payload (term : Reader Term) : Reader (Option Args) :=
  Reader.optional (Reader.either (Args.eq <$> equals)
    (Args.paren <$> list term))

/-- The term that a name and its payload make. -/
def termOf (name : Bytes) : Option Args → Term
  | some (.eq value) => .keyValue name value
  | some (.paren terms) => .call name terms
  | _ => .ident name

/-- A term nested less than `depth` times. -/
def term : (depth : Nat) → Reader Term
  | 0 => fun _ => .absent
  | depth + 1 => Reader.construct do
      let name ← ident
      let args ← payload (term depth)
      return termOf name.text args

/-- The part of the source from one token to another. -/
def spanOf (first last : Token) : Span :=
  ⟨first.pos.offset, last.stop, first.pos.line, first.pos.column⟩

/-- An attribute whose terms are nested less than `depth` times. -/
def attr (depth : Nat) : Reader Attribute := Reader.construct do
  let first ← mark '#'
  let _ ← Reader.require ("\"[\" <ident> " ++ payloadText ++ " \"]\"")
      (mark '[')
  let name ← Reader.require ("<ident> " ++ payloadText ++ " \"]\"") ident
  let args ← payload (term depth)
  let last ← Reader.require "\"]\"" (mark ']')
  return { name := name.text, args := args.getD .none,
           span := spanOf first last }

def item (depth : Nat) : Reader Item := Reader.construct do
  let attrs ← Reader.many (attr depth)
  let kind ← Reader.require "<ident> <ident> \";\"?" ident
  let name ← Reader.require "<ident> \";\"?" ident
  let semicolon ← Reader.optional (mark ';')
  let own := spanOf kind (semicolon.getD name)
  let span :=
    match attrs with
    | [] => own
    | first :: _ =>
        { own with
          start := first.span.start, line := first.span.line, column :=
            first.span.column }
  return { kind := kind.text, name := name.text, attrs := attrs, span := span }

/-- The tokens that are no layout. -/
def meaningful (tokens : List Token) : List Token :=
  tokens.filter fun t => !t.isLayout

/-- Read a whole source text. A place where no token fits is told before
anything else. -/
def readSource {α : Type} (reader : (depth : Nat) → Reader (List α))
    (src : Bytes) :
    Except SyntaxError (List α) :=
  match Token.scan .start src with
  | (_, .stuck pos rest) => .error ⟨pos, .invalidText rest⟩
  | (tokens, .finished stop) =>
      let ts := meaningful tokens
      match Reader.run (reader (ts.length + 1)) ts with
      | .ok values => .ok values
      | .error (found, expected) =>
          .error ⟨(found.map (·.pos)).getD stop, .unexpected found expected⟩

end Grammar

/-- The attributes of a source text that holds nothing else. -/
def parseAttributes (src : Bytes) : Except SyntaxError (List Attribute) :=
  Grammar.readSource (fun depth => Reader.many (Grammar.attr depth)) src

def parseItems (src : Bytes) : Except SyntaxError (List Item) :=
  Grammar.readSource (fun depth => Reader.many (Grammar.item depth)) src

/-- Why an item file gives no items. -/
inductive ItemFileFault where
  | unreadable (fault : FileFault)
  | malformed (error : SyntaxError)
deriving DecidableEq, Repr

namespace ItemFileFault

/-- The wording of a fault of the item file at a path. -/
def message (fault : ItemFileFault) (path : Bytes) : Bytes :=
  match fault with
  | .unreadable fault =>
      (if fault.afterOpen then utf8 "failed to read file: "
        else utf8 "failed to open file: ")
        ++ fault.describe path
  | .malformed error => error.message path

end ItemFileFault

/-- The items in the file at a path. -/
def loadItems (view : FileView) (path : Bytes) :
    Except ItemFileFault (List Item) :=
  match view.read path with
  | .error fault => .error (.unreadable fault)
  | .ok text => (parseItems text).mapError .malformed

end FeatureGate
