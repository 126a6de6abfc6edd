import Idl.Dictionary
import Idl.Path

/-!
What a compilation asks of its surroundings: the texts of files, and a place for log lines.

A host that cannot answer says why with a `HostError`. A source file that cannot be had ends a
compilation with a `LoadError`, which says whether the file is missing or unreadable.
-/

namespace Idl

/-- Why a host could not do what it was asked. Paths are as the asker spelled them. -/
inductive HostError where
  | notFound (path : String)
  | unreadable (path message : String)
  | unwritable (path message : String)
deriving DecidableEq, Repr

namespace HostError

def path : HostError → String
  | notFound path | unreadable path _ | unwritable path _ => path

def message : HostError → String
  | notFound path => s!"file not found: {path}"
  | unreadable path reason => s!"failed to read {path}: {reason}"
  | unwritable path reason => s!"failed to write {path}: {reason}"

end HostError

inductive LoadError where
  /-- A source file does not exist. `importedFrom` is the file whose import named it, if any. -/
  | sourceNotFound (path : String) (importedFrom : Option String)
  | sourceUnreadable (path : String) (cause : HostError)
deriving DecidableEq, Repr

namespace LoadError

/-- What a host's failure to read a source file means for the compilation. -/
def ofHost (path : String) (importedFrom : Option String) : HostError → LoadError
  | .notFound _ => sourceNotFound path importedFrom
  | cause => sourceUnreadable path cause

def path : LoadError → String
  | sourceNotFound path _ | sourceUnreadable path _ => path

def message : LoadError → String
  | sourceNotFound path _ => s!"source file not found: {path}"
  | sourceUnreadable path cause => s!"cannot read source file {path}: {cause.message}"

end LoadError

/-- A line of the log: what an area of the compilation did. -/
structure LogLine where
  area : String
  message : String
deriving DecidableEq, Repr

def LogLine.text (line : LogLine) : String := s!"trace [{line.area}] {line.message}"

inductive HostFile where
  | text (contents : String)
  | unreadable (reason : String)
deriving DecidableEq, Repr

abbrev Host := Dictionary Path HostFile

namespace Host

/-- The text under a path. An error names the path as it was spelled. -/
def readAs (host : Host) (path : Path) (spelling : String) : Except HostError String :=
  match host.get? path with
  | some (.text contents) => .ok contents
  | some (.unreadable reason) => .error (.unreadable spelling reason)
  | none => .error (.notFound spelling)

def read (host : Host) (path : String) : Except HostError String :=
  host.readAs (Path.ofString path) path

def write (host : Host) (path contents : String) : Host :=
  host.insert (Path.ofString path) (.text contents)

theorem mem_keys_of_readAs {host : Host} {path : Path} {spelling contents : String}
    (ran : host.readAs path spelling = .ok contents) : path ∈ host.keys := by
  unfold readAs at ran
  split at ran
  · exact Dictionary.mem_keys_of_get? ‹_›
  · cases ran
  · cases ran

end Host

end Idl
