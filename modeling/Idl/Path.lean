/-!
Paths of source files.

A path is read as a list of steps. Empty steps and the `.` steps after the first are not steps at
all, and a path that starts with a slash is absolute. `Path.normalize` takes out what can be taken
out without looking at a file system, and `Path.resolveImport` finds the file that an import in
another file names. Two spellings with the same steps are the same path.
-/

namespace Idl

namespace Path

inductive Step where
  /-- The directory itself, `.`; only at the start of a relative path. -/
  | here
  /-- The directory above, `..`. -/
  | up
  | entry (name : String)
deriving DecidableEq, Repr

namespace Step

def text : Step → String
  | here => "."
  | up => ".."
  | entry name => name

/-- The step that a piece between two slashes stands for, if it stands for one. -/
def ofPiece? (piece : List Char) : Option Step :=
  if piece = [] ∨ piece = ['.'] then none
  else if piece = ['.', '.'] then some up
  else some (entry (String.ofList piece))

end Step

end Path

structure Path where
  absolute : Bool
  steps : List Path.Step
deriving DecidableEq, Repr

namespace Path

def ofString (text : String) : Path :=
  let pieces := text.toList.splitOn '/'
  let steps := pieces.filterMap Step.ofPiece?
  match text.toList, pieces with
  | '/' :: _, _ => ⟨true, steps⟩
  | _, ['.'] :: _ => ⟨false, .here :: steps⟩
  | _, _ => ⟨false, steps⟩

def text (path : Path) : String :=
  let steps := "/".intercalate (path.steps.map Step.text)
  if path.absolute then "/" ++ steps else steps

/-- The directory that holds what a path names. What has no step has no directory; the empty path
stands in for it. -/
def directory (path : Path) : Path :=
  if path.steps = [] then ⟨false, []⟩ else ⟨path.absolute, path.steps.dropLast⟩

/-- Goes on from a path along another one. An absolute path starts over. -/
def join (path next : Path) : Path :=
  if next.absolute then next
  else if path = ⟨false, []⟩ then next
  else ⟨path.absolute, path.steps ++ next.steps.filter (· ≠ .here)⟩

/-- Adds one step to steps that are kept last one first. A `..` takes back the step before it,
whatever that step is; with none before it, it stays. -/
def collapseStep (done : List Step) : Step → List Step
  | .here => done
  | .up => match done with
    | [] => [.up]
    | _ :: rest => rest
  | .entry name => .entry name :: done

/-- The steps without `.` and with each `..` carried out. -/
def collapse (steps : List Step) : List Step :=
  (steps.foldl collapseStep []).reverse

def normalize (path : Path) : Path := ⟨path.absolute, collapse path.steps⟩

/-- The file that an import names: an absolute path as it stands, any other path from the
directory of the importing file. -/
def resolveImport (importing : Path) (specifier : String) : Path :=
  let named := ofString specifier
  if named.absolute then named.normalize else (importing.directory.join named).normalize

end Path

end Idl
