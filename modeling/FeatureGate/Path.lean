import FeatureGate.Text.Bytes

/-!
Paths as texts, without a look at any file. A path is a list of parts with
slashes between; it is absolute if a slash comes first. The clean form has no
empty parts, no single dots, and two dots only where nothing is left to go up
from.
-/

namespace FeatureGate

namespace Path

def slash : UInt8 := byte '/'

def here : Bytes := utf8 "."

def up : Bytes := utf8 ".."

/-- Whether a path begins at the root. -/
def isAbsolute (path : Bytes) : Bool := path.head? = some slash

/-- Go on by one part from the parts so far, the last of which comes first. -/
def pushPart (absolute : Bool) (parts : List Bytes) (part : Bytes) :
    List Bytes :=
  if part.isEmpty || part = here then parts
  else if part = up then
    match parts with
    | [] => if absolute then [] else [up]
    | last :: before => if last = up then up :: parts else before
  else part :: parts

/-- The parts of a path in its clean form. -/
def cleanParts (path : Bytes) : List Bytes :=
  ((Bytes.splitOn slash path).foldl (pushPart (isAbsolute path)) []).reverse

/-- The shortest path that reads the same. -/
def clean (path : Bytes) : Bytes :=
  let text := Bytes.join [slash] (cleanParts path)
  if isAbsolute path then slash :: text else if text.isEmpty then here else text

/-- The path that leads from a folder on; an empty folder is no folder at
all. -/
def join (folder path : Bytes) : Bytes :=
  if folder.isEmpty then clean path else clean (folder ++ [slash] ++ path)

def lastPart (path : Bytes) : Bytes :=
  (path.reverse.takeWhile (· ≠ slash)).reverse

/-- The folder of a path. -/
def folder (path : Bytes) : Bytes :=
  clean (path.take (path.length - (lastPart path).length))

/-- The last dot of a path's last part and what follows it. -/
def extension (path : Bytes) : Bytes :=
  let tail := (lastPart path).reverse
  let name := tail.takeWhile (· ≠ byte '.')
  if name.length < tail.length then byte '.' :: name.reverse else []

/-- The absolute form of a path, read from the folder `base`. -/
def absolute (base path : Bytes) : Bytes :=
  if isAbsolute path then clean path else join base path

example : clean (utf8 "a//./b/../../..//c") = utf8 "../c" := by decide
example : clean (utf8 "/../a/") = utf8 "/a" := by decide
example : clean [] = utf8 "." := by decide
example : folder (utf8 "a/b.json") = utf8 "a" ∧
    folder (utf8 "b") = utf8 "." := by decide
example : extension (utf8 "a.b/c.d.JSON") = utf8 ".JSON" := by decide
example : extension (utf8 "a.b/c") = [] := by decide

end Path

end FeatureGate
