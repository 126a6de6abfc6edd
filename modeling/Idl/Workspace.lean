import Idl.Program

/-!
A workspace in memory, for compiling without a file system.

Files live under one directory, against which relative paths are resolved. Log lines are kept.
-/

namespace Idl

structure Workspace where
  files : Host := {}
  logs : List LogLine := []
  options : Options := {}
  library : Library := Builtin.library

/-- Why a workspace does not give a program when a program without findings is asked for. -/
inductive WorkspaceError where
  | load (cause : LoadError)
  | diagnostics (found : List Diagnostic)

def WorkspaceError.message : WorkspaceError → String
  | load cause => cause.message
  | diagnostics found =>
    let first := (found.head?.map Diagnostic.text).getD ""
    s!"compilation produced {found.length} diagnostic(s): {first}"

namespace Workspace

def root : Path := ⟨true, [.entry "test"]⟩

def resolve (path : String) : Path := (root.join (Path.ofString path)).normalize

def addFile (workspace : Workspace) (path contents : String) : Workspace :=
  { workspace with files := workspace.files.insert (resolve path) (.text contents) }

def removeFile (workspace : Workspace) (path : String) : Workspace :=
  { workspace with files := workspace.files.erase (resolve path) }

def file? (workspace : Workspace) (path : String) : Option String :=
  match workspace.files.get? (resolve path) with
  | some (.text contents) => some contents
  | _ => none

/-- Reads a file under a path taken as it stands. -/
def read (workspace : Workspace) (path : String) : Except HostError String :=
  workspace.files.read path

/-- Writes a file under a path taken as it stands. -/
def write (workspace : Workspace) (path contents : String) : Workspace :=
  { workspace with files := workspace.files.write path contents }

/-- Compiles a file, whatever is found wrong with it. -/
def compileProgram (workspace : Workspace) (entry : String) (rounds : Nat) :
    Option (Except LoadError Program × Workspace) := do
  let compilation ←
    Idl.compile workspace.library workspace.files workspace.options (resolve entry).text rounds
  return (compilation.result, { workspace with logs := workspace.logs ++ compilation.logs })

/-- Compiles a file in which nothing may be found wrong. -/
def compile (workspace : Workspace) (entry : String) (rounds : Nat) :
    Option (Except WorkspaceError Program × Workspace) := do
  let (result, workspace) ← workspace.compileProgram entry rounds
  match result with
  | .error cause => return (.error (.load cause), workspace)
  | .ok program =>
    if program.diagnostics.isEmpty then return (.ok program, workspace)
    return (.error (.diagnostics program.diagnostics), workspace)

end Workspace

end Idl
