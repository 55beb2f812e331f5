import TensorEquations.CommandLine.Path

/-!
# A directory of files

* `Directory` — the files below a working directory, each by the components of its path.
* `FileError` — why a file cannot be read or written.
* `Directory.walk`, `Directory.read` — a path followed component by component; each component but the
  last has to be a directory.
* `Directory.writeError?`, `Directory.writtenPath?` — what writing a file comes to.
-/

namespace TensorEquations.CommandLine

/-- The files below a working directory. -/
structure Directory where
  files : List (List String × String)

/-- Why a file cannot be read or written. -/
inductive FileError where
  | missing
  | notDirectory
  | isDirectory
  | exists
  deriving DecidableEq, Repr

namespace Directory

def isFile (d : Directory) (parts : List String) : Bool := d.files.any fun f => f.1 == parts

/-- Whether the components lead to the working directory or to one that holds a file. -/
def isDirectory (d : Directory) (parts : List String) : Bool :=
  parts.isEmpty || d.files.any fun f => parts.isPrefixOf f.1 && parts.length < f.1.length

/-- The place that the components of a path lead to. -/
def walk (d : Directory) (here : List String) : List String → Except FileError (List String)
  | [] => .ok here
  | part :: rest =>
    if d.isFile here then .error .notDirectory
    else if !d.isDirectory here then .error .missing
    else d.walk (if part = ".." then here.dropLast else here ++ [part]) rest

/-- The text of a file; nothing is known of files elsewhere. -/
def read (d : Directory) (path : String) : Except FileError String :=
  if path.startsWith "/" then .error .missing else
  match d.walk [] (pathParts path) with
  | .error e => .error e
  | .ok parts =>
    match d.files.lookup parts with
    | some text => .ok text
    | none => .error (if d.isDirectory parts then .isDirectory else .missing)

/-- Why a file with its directories cannot be written, if it cannot. -/
def writeError? (d : Directory) (path : String) : Option FileError :=
  match d.read (parentPath path), d.read path with
  | .ok _, _ => some .exists
  | .error .notDirectory, _ => some .notDirectory
  | _, .error .isDirectory => some .isDirectory
  | _, _ => none

/-- The path below the working directory under which a file is new there. -/
def writtenPath? (d : Directory) (path : String) : Option String :=
  let parts := (pathParts path).foldl
    (fun ps p => if p = ".." && !ps.isEmpty then ps.dropLast else ps ++ [p]) []
  if path.startsWith "/" || path.startsWith ".." || d.isFile parts then none
  else some ("/".intercalate parts)

end Directory

end TensorEquations.CommandLine
