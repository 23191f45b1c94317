/-!
# Paths

An absolute path is the list of its parts, the outermost first. Written out, its parts are joined by
slashes; a path that starts at the root of a file system has the empty text as its first part.
-/

namespace GraphDoc

/-- An absolute path, part by part. -/
abbrev Path := List String

namespace Path

/-- The path as it is written. -/
def text (p : Path) : String := "/".intercalate p

/-- The last part of a path. -/
def name (p : Path) : String := p.getLast?.getD ""

/-- The parts of a written path. -/
def parts (written : String) : List String := (written.toList.splitOn '/').map String.ofList

/-- The path one part further on. A lone point stays, and two points go up. -/
def step (here : Path) (part : String) : Path :=
  if part = "" ∨ part = "." then here
  else if part = ".." then (if here.length ≤ 1 then here else here.dropLast)
  else here ++ [part]

/-- Where a written path starts: at the root if it starts with a slash, else at the given folder. -/
def start (folder : Path) (written : String) : Path :=
  if written.toList.head? = some '/' then [""] else folder

/-- The absolute path that a path written in the given folder stands for. -/
def resolve (folder : Path) (written : String) : Path :=
  (parts written).foldl step (start folder written)

/-- The paths that a written path leads through, the one that it stands for last. -/
def visited (here : Path) : List String → List Path
  | [] => [here]
  | part :: rest => here :: visited (here.step part) rest

end Path

end GraphDoc
