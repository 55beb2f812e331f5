/-!
# Paths of files

* `normalPath` — a path without empty and `.` components; two slashes at its start are kept.
* `parentPath` — the path of the directory that holds a file.
-/

namespace TensorEquations.CommandLine

/-- The slashes that a path starts with, as far as they count. -/
def pathRoot (cs : List Char) : String :=
  match (cs.takeWhile (· == '/')).length with
  | 0 => ""
  | 2 => "//"
  | _ => "/"

/-- The components of a path. -/
def pathParts (path : String) : List String :=
  (path.splitOn "/").filter fun part => part ≠ "" && part ≠ "."

/-- A path from its root and its components. -/
def joinPath (root : String) (parts : List String) : String :=
  if root.isEmpty && parts.isEmpty then "." else root ++ "/".intercalate parts

/-- A path in its normal form. -/
def normalPath (path : String) : String := joinPath (pathRoot path.toList) (pathParts path)

/-- The directory of a file. -/
def parentPath (path : String) : String :=
  joinPath (pathRoot path.toList) (pathParts path).dropLast

end TensorEquations.CommandLine
