import FeatureGate.Path

/-!
Files as the rest of the library sees them: a working folder, what reading a
path gives, and whether a folder can be watched. A `FileTree` is such a view
held in memory.
-/

namespace FeatureGate

inductive FileFault where
  | missing
  | notFolder
  | isFolder
  | nameTooLong
  | invalidName
deriving DecidableEq, Repr

namespace FileFault

def reason : FileFault → Bytes
  | .missing => utf8 "no such file or directory"
  | .notFolder => utf8 "not a directory"
  | .isFolder => utf8 "is a directory"
  | .nameTooLong => utf8 "file name too long"
  | .invalidName => utf8 "invalid argument"

/-- Whether the path could be opened and only its content could not be read. -/
def afterOpen : FileFault → Bool
  | .isFolder => true
  | _ => false

/-- What was tried on the path, and why it failed. -/
def describe (fault : FileFault) (path : Bytes) : Bytes :=
  (if fault.afterOpen then utf8 "read " else utf8 "open ") ++ path ++
    utf8 ": " ++ fault.reason

end FileFault

/-- Files at one moment. -/
structure FileView where
  /-- The absolute path that relative paths start from. -/
  workFolder : Bytes
  /-- The content of the file at a path. -/
  read : Bytes → Except FileFault Bytes
  /-- Whether changes in the folder at a path can be watched. -/
  watch : Bytes → Except FileFault Unit

/-- Files in memory, each at its place: the names from the root on. -/
structure FileTree where
  /-- The place that relative paths start from. -/
  workPlace : List Bytes
  files : List (List Bytes × Bytes) := []
  /-- Folders that need not hold any file. -/
  folders : List (List Bytes) := []
deriving Repr

namespace FileTree

/-- The content of the file at a place. -/
def content? (t : FileTree) (place : List Bytes) : Option Bytes :=
  t.files.lookup place

/-- Whether there is a folder at a place: one that is listed, or one on the way
to something. -/
def hasFolder (t : FileTree) (place : List Bytes) : Bool :=
  place.isPrefixOf t.workPlace || t.folders.any place.isPrefixOf
    || t.files.any fun (file, _) => place.isPrefixOf file && place ≠ file

/-- How long the name of a file may be. -/
def longestName : Nat := 255

/-- Follow the parts of a path from a place. Only a folder leads on, and what is
missing cannot be left again. -/
def follow (t : FileTree) (place : List Bytes) :
    List Bytes → Except FileFault (List Bytes)
  | [] => .ok place
  | part :: parts =>
      if !t.hasFolder place then .error .notFolder
      else if part.isEmpty || part = Path.here then t.follow place parts
      else if part = Path.up then t.follow place.dropLast parts
      else if longestName < part.length then .error .nameTooLong
      else
        let next := place ++ [part]
        if t.hasFolder next || (t.content? next).isSome then t.follow next parts
        else .error .missing

/-- The place that a path leads to. -/
def locate (t : FileTree) (path : Bytes) : Except FileFault (List Bytes) :=
  if path.contains 0 then .error .invalidName
  else if path.isEmpty then .error .missing
  else t.follow (if Path.isAbsolute path then [] else t.workPlace)
    (Bytes.splitOn Path.slash path)

/-- The content of the file at a path. -/
def read (t : FileTree) (path : Bytes) : Except FileFault Bytes :=
  match t.locate path with
  | .ok place =>
      match t.content? place with
      | some content => .ok content
      | none => .error .isFolder
  | .error fault => .error fault

def view (t : FileTree) : FileView where
  workFolder := Path.slash :: Bytes.join [Path.slash] t.workPlace
  read := t.read
  watch path := (t.locate path).map fun _ => ()

end FileTree

end FeatureGate
