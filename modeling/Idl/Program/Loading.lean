import Idl.Diagnostic
import Idl.Fingerprint
import Idl.Host
import Idl.Options
import Idl.StandardLibrary

/-!
Loading the files of a program.

The standard library comes first, then the additional imports, the entry file, and what these
import, in the order in which the imports are met. Each file is loaded once. The first file that
cannot be read ends loading.
-/

namespace Idl

structure SourceFile where
  id : FileId
  path : Path
  fingerprint : UInt64
  script : Script

/-- A file to be loaded, and the file that imports it. -/
structure SourceRequest where
  path : Path
  importedFrom : Option Path := none

structure Loading where
  files : List SourceFile := []
  diagnostics : List Diagnostic := []
  logs : List LogLine := []
  nextId : Nat := 1
  /-- The paths that the host was asked for, the first one first. Nothing reads them. -/
  asked : List Path := []

namespace Loading

def start (options : Options) : Loading :=
  if options.nostdlib then {}
  else
    let file : SourceFile :=
      { id := .library, path := Path.ofString StandardLibrary.path,
        fingerprint := fingerprint StandardLibrary.source, script := StandardLibrary.script }
    { files := [file], diagnostics := StandardLibrary.parsed.2 }

def ask (loading : Loading) (path : Path) : Loading :=
  { loading with asked := loading.asked ++ [path] }

def add (loading : Loading) (options : Options) (path : Path) (contents : String)
    (parsed : Script × List Diagnostic) : Loading :=
  let file : SourceFile :=
    { id := ⟨loading.nextId⟩, path, fingerprint := fingerprint contents, script := parsed.1 }
  let line : LogLine := ⟨"load", s!"Loaded {path.text} ({contents.utf8ByteSize} bytes)"⟩
  { loading with
    files := loading.files ++ [file]
    diagnostics := loading.diagnostics ++ parsed.2
    logs := if options.traces "load" then loading.logs ++ [line] else loading.logs
    nextId := loading.nextId + 1 }

def requestsOf (path : Path) (script : Script) : List SourceRequest :=
  script.imports.map fun decl => ⟨path.resolveImport decl.path, some path⟩

def unseen (host : Host) (seen : List Path) : List Path := host.keys.filter (· ∉ seen)

theorem unseen_shorter {host : Host} {seen : List Path} {path : Path} (held : path ∈ host.keys)
    (fresh : path ∉ seen) : (unseen host (path :: seen)).length < (unseen host seen).length := by
  have without : unseen host (path :: seen) = (unseen host seen).filter (· ≠ path) := by
    simp [unseen, List.filter_filter]
  rw [without]
  apply List.length_filter_lt_length_iff_exists.mpr
  exact ⟨path, List.mem_filter.mpr ⟨held, by simpa using fresh⟩, by simp⟩

/-- The first file asked for that has not been loaded, and what is asked for after it. -/
def next? (seen : List Path) : List SourceRequest → Option (SourceRequest × List SourceRequest)
  | [] => none
  | request :: rest => if request.path ∈ seen then next? seen rest else some (request, rest)

theorem fresh_of_next? {seen : List Path} {queue rest : List SourceRequest} {request : SourceRequest}
    (found : next? seen queue = some (request, rest)) : request.path ∉ seen := by
  induction queue with
  | nil => cases found
  | cons first others ih =>
    simp only [next?] at found
    split at found
    · exact ih found
    · cases found
      assumption

/-- Loads what is asked for, in order, and what it imports. Nothing comes back if a file cannot be
read to its end; an error comes back with what was loaded before it. -/
def run (host : Host) (options : Options) (queue : List SourceRequest) (seen : List Path)
    (loading : Loading) : Option (Loading × Option LoadError) :=
  match _next : next? seen queue with
  | none => some (loading, none)
  | some (request, rest) =>
    let loading := loading.ask request.path
    match _ran : host.readAs request.path request.path.text with
    | .error cause =>
      let importedFrom := request.importedFrom.map Path.text
      some (loading, some (.ofHost request.path.text importedFrom cause))
    | .ok contents =>
      match Script.read ⟨loading.nextId⟩ contents with
      | none => none
      | some parsed =>
        run host options (rest ++ requestsOf request.path parsed.1) (request.path :: seen)
          (loading.add options request.path contents parsed)
termination_by (unseen host seen).length
decreasing_by exact unseen_shorter (Host.mem_keys_of_readAs ‹_›) (fresh_of_next? ‹_›)

/-- The files that a compilation asks for by itself. -/
def roots (options : Options) (entry : String) : List SourceRequest :=
  (options.additionalImports ++ [entry]).map fun path => ⟨(Path.ofString path).normalize, none⟩

def ofEntry (host : Host) (options : Options) (entry : String) :
    Option (Loading × Option LoadError) :=
  run host options (roots options entry) [] (start options)

end Loading

end Idl
