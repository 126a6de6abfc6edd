import Idl.Span

/-!
Diagnostics: what reading, binding and checking find wrong with a source text.

Everything that a source text can cause is a diagnostic and never stops a compilation. Lists of
diagnostics are in the order in which they were found and only ever grow.
-/

namespace Idl

inductive Severity where
  | error
  | warning
deriving DecidableEq, Repr

def Severity.text : Severity → String
  | .error => "error"
  | .warning => "warning"

inductive Code where
  -- reading
  | tokenExpected
  | unexpectedToken
  | unterminatedString
  | unterminatedComment
  | invalidCharacter
  | invalidNumber
  -- binding
  | duplicateSymbol
  | unknownNamespace
  -- checking
  | unknownIdentifier
  | ambiguousReference
  | invalidTypeReference
  | invalidTemplateArgs
  | cyclicReference
  | duplicateProperty
  | invalidSpread
  | invalidBaseType
  | invalidOperationReference
  | deprecated
  -- decorators
  | unknownDecorator
  | invalidDecoratorTarget
  | invalidArgument
deriving DecidableEq, Repr

namespace Code

def text : Code → String
  | tokenExpected => "token-expected"
  | unexpectedToken => "unexpected-token"
  | unterminatedString => "unterminated-string"
  | unterminatedComment => "unterminated-comment"
  | invalidCharacter => "invalid-character"
  | invalidNumber => "invalid-number"
  | duplicateSymbol => "duplicate-symbol"
  | unknownNamespace => "unknown-namespace"
  | unknownIdentifier => "unknown-identifier"
  | ambiguousReference => "ambiguous-reference"
  | invalidTypeReference => "invalid-type-reference"
  | invalidTemplateArgs => "invalid-template-args"
  | cyclicReference => "cyclic-reference"
  | duplicateProperty => "duplicate-property"
  | invalidSpread => "invalid-spread"
  | invalidBaseType => "invalid-base-type"
  | invalidOperationReference => "invalid-operation-reference"
  | deprecated => "deprecated"
  | unknownDecorator => "unknown-decorator"
  | invalidDecoratorTarget => "invalid-decorator-target"
  | invalidArgument => "invalid-decorator-argument"

def all : List Code :=
  [tokenExpected, unexpectedToken, unterminatedString, unterminatedComment, invalidCharacter,
   invalidNumber, duplicateSymbol, unknownNamespace, unknownIdentifier, ambiguousReference,
   invalidTypeReference, invalidTemplateArgs, cyclicReference, duplicateProperty, invalidSpread,
   invalidBaseType, invalidOperationReference, deprecated, unknownDecorator,
   invalidDecoratorTarget, invalidArgument]

/-- A deprecation is a warning and all else is an error, unless a diagnostic says otherwise. -/
def severity : Code → Severity
  | deprecated => .warning
  | _ => .error

def ofText? (name : String) : Option Code :=
  all.find? (·.text == name)

end Code

structure Diagnostic where
  code : Code
  severity : Severity
  message : String
  location : Option Location
deriving DecidableEq, Repr

namespace Diagnostic

def report (code : Code) (message : String) (location : Option Location) : Diagnostic :=
  ⟨code, code.severity, message, location⟩

def isError (d : Diagnostic) : Bool := d.severity == .error

/-- Whether the finding makes a compilation fail. -/
def isFailure (warningAsError : Bool) (d : Diagnostic) : Bool :=
  d.isError || (warningAsError && d.severity == .warning)

/-- The finding as one line of text, with its place in front if it has one. -/
def text (d : Diagnostic) : String :=
  let finding := s!"{d.severity.text} {d.code.text}: {d.message}"
  match d.location with
  | some location => s!"{location.text}: {finding}"
  | none => finding

end Diagnostic

structure Findings where
  list : List Diagnostic := []

namespace Findings

def add (f : Findings) (d : Diagnostic) : Findings := ⟨f.list ++ [d]⟩

def extend (f : Findings) (ds : List Diagnostic) : Findings := ⟨f.list ++ ds⟩

/-- Takes the value of a computation and keeps what it found. -/
def keep {α : Type} (f : Findings) (outcome : α × List Diagnostic) : α × Findings :=
  (outcome.1, f.extend outcome.2)

/-- A value together with everything found so far. -/
def pair {α : Type} (f : Findings) (value : α) : α × List Diagnostic := (value, f.list)

def size (f : Findings) : Nat := f.list.length

def isEmpty (f : Findings) : Bool := f.list.isEmpty

/-- Whether the findings make a compilation fail. Warnings count only if asked for. -/
def hasErrors (f : Findings) (warningAsError : Bool) : Bool :=
  f.list.any (·.isFailure warningAsError)

end Findings

end Idl
