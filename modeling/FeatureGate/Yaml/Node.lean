import FeatureGate.Yaml.TokenStream
import FeatureGate.Yaml.Tag

/-!
The nodes of a YAML document. Only the first document of a stream is read. A
node may be given a name, and an alias stands for the node that was given its
name last; an alias may stand inside the node it refers to.
-/

namespace FeatureGate

namespace Yaml

inductive Node where
  | scalar (tag : Tag) (text : String)
  | sequence (items : List Node)
  | mapping (pairs : List (Node × Node))
  /-- The alias itself has a number, and the anchor it refers to. -/
  | reference (number : Nat) (name : String) (anchor : Nat)
deriving Repr, Inhabited

/-- A document: its outermost node, and the nodes with names by the number of
the anchor. -/
structure Document where
  root : Node
  anchored : List (Nat × Node)
  /-- How many tokens it was read from. -/
  size : Nat
deriving Repr

namespace Document

def anchored? (d : Document) (anchor : Nat) : Option Node :=
  d.anchored.lookup anchor

end Document

/-- The tokens that are left, and the names known so far. -/
structure Reading where
  tokens : List Token
  /-- What the handles of tags stand for. -/
  handles : List (String × String) := [("!", "!"), ("!!", "tag:yaml.org,2002:")]
  /-- The anchors by name, the last first. -/
  names : List (String × Nat) := []
  anchored : List (Nat × Node) := []
  aliases : Nat := 0
deriving Repr

/-- A step in reading a document; `none` is a fault. -/
abbrev Read := StateT Reading Option

namespace Read

def peek : Read Token := do
  match (← get).tokens with
  | t :: _ => return t
  | [] => failure

def skip : Read Unit := modify fun r => { r with tokens := r.tokens.tail }

/-- Whether the next token is one of these. -/
def peekIn (ts : List Token) : Read Bool := return ts.contains (← peek)

/-- What is written before a node: its tag and the name of its anchor. -/
structure Properties where
  tag : Option (String × String) := none
  anchor : Option String := none

/-- Read a tag, if there is one. -/
def tagProperty : Read (Option (String × String)) := do
  match ← peek with
  | .tag handle suffix =>
      skip
      return some (handle, suffix)
  | _ => return none

/-- Read an anchor, if there is one. -/
def anchorProperty : Read (Option String) := do
  match ← peek with
  | .anchor name =>
      skip
      return some name
  | _ => return none

/-- Read tag and anchor in either order. -/
def properties : Read Properties := do
  match ← anchorProperty with
  | some name => return { tag := ← tagProperty, anchor := some name }
  | none =>
      match ← tagProperty with
      | some tag => return { tag := some tag, anchor := ← anchorProperty }
      | none => return {}

/-- The full name of a tag; a handle has to be declared. -/
def tagName : Option (String × String) → Read (Option String)
  | none => return none
  | some (handle, suffix) => do
      if handle.isEmpty then return some suffix
      match (← get).handles.lookup handle with
      | some lead => return some (lead ++ suffix)
      | none => failure

/-- The kind of a scalar with a tag or without. The tag `!` is as good as
none. -/
def scalarTag (name : Option String) (text : String) (plain : Bool) : Tag :=
  match name with
  | some name => if name = "!" then untagged else Tag.ofName name
  | none => untagged
where
  /-- The kind of a scalar without a tag. -/
  untagged : Tag :=
    if !plain then .text
    else if text = "<<" then .merge else Tag.ofSpelling true text

/-- Give a new anchor to the name. -/
def declare (name : Option String) : Read (Option Nat) := do
  match name with
  | none => return none
  | some name =>
      let number := (← get).names.length
      modify fun r => { r with names := (name, number) :: r.names }
      return some number

/-- Put the node of an anchor down. -/
def define (anchor : Option Nat) (node : Node) : Read Node := do
  match anchor with
  | none => return node
  | some number =>
      modify fun r => { r with anchored := (number, node) :: r.anchored }
      return node

/-- The alias with this name; the name has to be known. -/
def reference (name : String) : Read Node := do
  let r ← get
  match r.names.lookup name with
  | some anchor =>
      set { r with aliases := r.aliases + 1 }
      return .reference r.aliases name anchor
  | none => failure

/-- The scalar that stands where nothing is written. -/
def empty : Node := .scalar .null ""

/-- A node of which only tag or anchor is written. -/
def emptyNode (anchor tag : Option String) : Read Node := do
  if anchor.isNone && tag.isNone then failure
  define (← declare anchor) (.scalar (scalarTag tag "" true) "")

mutual

/-- Read a node. Block collections are read where `block` says so, and a
sequence that is not indented more than its key where `indentless` does. -/
def node : (limit : Nat) → (block indentless : Bool) → Read Node
  | 0, _, _ => failure
  | limit + 1, block, indentless => do
      if let .reference name ← peek then
        skip
        return ← reference name
      let props ← properties
      let tag ← tagName props.tag
      match ← peek with
      | .scalar text plain =>
          skip
          define (← declare props.anchor)
            (.scalar (scalarTag tag text plain) text)
      | .flowSequenceStart =>
          skip
          let anchor ← declare props.anchor
          define anchor (.sequence (← flowSequence limit true))
      | .flowMappingStart =>
          skip
          let anchor ← declare props.anchor
          define anchor (.mapping (← flowMapping limit true))
      | .blockSequenceStart =>
          if block then
            skip
            let anchor ← declare props.anchor
            define anchor (.sequence (← blockSequence limit))
          else emptyNode props.anchor tag
      | .blockMappingStart =>
          if block then
            skip
            let anchor ← declare props.anchor
            define anchor (.mapping (← blockMapping limit))
          else emptyNode props.anchor tag
      | .blockEntry =>
          if indentless then
            let anchor ← declare props.anchor
            define anchor (.sequence (← indentlessSequence limit))
          else emptyNode props.anchor tag
      | _ => emptyNode props.anchor tag

/-- Read a node, or take the empty one if the next token is among `ends`. -/
def nodeUnless :
    (limit : Nat) → (ends : List Token) → (block indentless : Bool) → Read Node
  | 0, _, _, _ => failure
  | limit + 1, ends, block, indentless => do
      if ← peekIn ends then return empty else node limit block indentless

/-- Read the elements of a block sequence. -/
def blockSequence : (limit : Nat) → Read (List Node)
  | 0 => failure
  | limit + 1 => do
      match ← peek with
      | .blockEntry =>
          skip
          let item ← nodeUnless limit [.blockEntry, .blockEnd] true false
          return item :: (← blockSequence limit)
      | .blockEnd =>
          skip
          return []
      | _ => failure

/-- Read the elements of a sequence that is not indented; any other token ends
it. -/
def indentlessSequence : (limit : Nat) → Read (List Node)
  | 0 => failure
  | limit + 1 => do
      match ← peek with
      | .blockEntry =>
          skip
          let item ←
              nodeUnless limit [.blockEntry, .key, .value, .blockEnd] true false
          return item :: (← indentlessSequence limit)
      | _ => return []

/-- Read the pairs of a block mapping. -/
def blockMapping : (limit : Nat) → Read (List (Node × Node))
  | 0 => failure
  | limit + 1 => do
      match ← peek with
      | .key =>
          skip
          let key ← nodeUnless limit [.key, .value, .blockEnd] true true
          let value ← blockValue limit
          return (key, value) :: (← blockMapping limit)
      | .blockEnd =>
          skip
          return []
      | _ => failure

/-- Read the value of a pair in a block mapping. -/
def blockValue : (limit : Nat) → Read Node
  | 0 => failure
  | limit + 1 => do
      match ← peek with
      | .value =>
          skip
          nodeUnless limit [.key, .value, .blockEnd] true true
      | _ => return empty

/-- Read the elements of a sequence in brackets; there is a comma before each
but the first. -/
def flowSequence : (limit : Nat) → (first : Bool) → Read (List Node)
  | 0, _ => failure
  | limit + 1, first => do
      if ← peekIn [.flowSequenceEnd] then
        skip
        return []
      unless first do
        if ← peekIn [.flowEntry] then skip else failure
      match ← peek with
      | .key =>
          skip
          let pair ← flowPair limit
          return .mapping [pair] :: (← flowSequence limit false)
      | .flowSequenceEnd =>
          skip
          return []
      | _ =>
          let item ← node limit false false
          return item :: (← flowSequence limit false)

/-- Read a single pair inside of brackets. Where the key is missing, the token
that shows it is taken for it. -/
def flowPair : (limit : Nat) → Read (Node × Node)
  | 0 => failure
  | limit + 1 => do
      if ← peekIn [.value, .flowEntry, .flowSequenceEnd] then
        skip
        return (empty, ← flowValue limit .flowSequenceEnd)
      let key ← node limit false false
      return (key, ← flowValue limit .flowSequenceEnd)

/-- Read the value of a pair inside of brackets that `close` ends. -/
def flowValue : (limit : Nat) → (close : Token) → Read Node
  | 0, _ => failure
  | limit + 1, close => do
      match ← peek with
      | .value =>
          skip
          nodeUnless limit [.flowEntry, close] false false
      | _ => return empty

/-- Read the pairs of a mapping in braces; a key may stand without a value. -/
def flowMapping : (limit : Nat) → (first : Bool) → Read (List (Node × Node))
  | 0, _ => failure
  | limit + 1, first => do
      if ← peekIn [.flowMappingEnd] then
        skip
        return []
      unless first do
        if ← peekIn [.flowEntry] then skip else failure
      match ← peek with
      | .key =>
          skip
          let key ←
              nodeUnless limit [.value, .flowEntry, .flowMappingEnd] false false
          let value ← flowValue limit .flowMappingEnd
          return (key, value) :: (← flowMapping limit false)
      | .flowMappingEnd =>
          skip
          return []
      | _ =>
          let key ← node limit false false
          return (key, empty) :: (← flowMapping limit false)

end

/-- Read the directives before a document: one version at most, which has to be
1.1, and each handle at most once. -/
def directives :
    (limit : Nat) → (version : Bool) → (own : List String) → Read Unit
  | 0, _, _ => failure
  | limit + 1, version, own => do
      match ← peek with
      | .version major minor =>
          if version || major ≠ 1 || minor ≠ 1 then failure
          skip
          directives limit true own
      | .tagHandle handle lead =>
          if own.contains handle then failure
          skip
          modify fun r => { r with handles := (handle, lead) :: r.handles }
          directives limit version (handle :: own)
      | _ => return ()

/-- Whether the token belongs to the frame of documents and not to their
content. -/
def isFrame : Token → Bool
  | .version .. | .tagHandle .. | .documentStart | .documentEnd | .streamEnd =>
      true
  | _ => false

/-- Read the first document, if there is one. -/
def document (limit : Nat) : Read (Option Node) := do
  skip
  match ← peek with
  | .streamEnd => return none
  | first =>
      let explicit := isFrame first && first ≠ .documentEnd
      if explicit then
        directives limit false []
        unless ← peekIn [.documentStart] do failure
        skip
      let root ←
        if explicit && isFrame (← peek) then pure empty
        else node limit true false
      discard peek
      return some root

end Read

/-- The first document of a stream; the inner `none` is an empty stream. -/
def document? (bytes : Bytes) : Option (Option Document) :=
  match text? bytes with
  | none => none
  | some text =>
      let ts := tokens text
      match (Read.document (4 * ts.length + 4)).run { tokens := ts } with
      | none => none
      | some (none, _) => some none
      | some (some root, r) => some (some ⟨root, r.anchored, ts.length⟩)

end Yaml

end FeatureGate
