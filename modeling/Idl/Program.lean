import Idl.Binding
import Idl.Checker
import Idl.Program.Loading

/-!
Programs: what compiling the files of a program gives.

Loading, binding and checking follow each other, and whatever they find wrong is kept with the
program. Only a file that cannot be read leaves a compilation without a program.
-/

namespace Idl

structure Program where
  options : Options
  files : List SourceFile
  symbols : SymbolTable
  types : TypeStore
  annotations : Annotations
  symbolTypes : Dictionary SymbolId TypeId
  instances : Instances
  /-- What reading, binding and checking found, in this order. -/
  diagnostics : List Diagnostic
  internalErrors : List InternalError

/-- What a compilation wrote to the log, and what came of it. -/
structure Compilation where
  logs : List LogLine
  result : Except LoadError Program

namespace Compilation

/-- A line of the log, if its area is traced. -/
def traceLine (options : Options) (area message : String) : List LogLine :=
  if options.traces area then [⟨area, message⟩] else []

/-- Binds and checks files that have been loaded. -/
def ofLoading (library : Library) (options : Options) (loading : Loading) (rounds : Nat) :
    Option Compilation := do
  let binding := Binding.ofScripts library.names (loading.files.map (·.script))
  let bound := traceLine options "bind"
    s!"Bound {binding.filesBound} file(s): {binding.symbolsDeclared} symbol(s), {binding.namespacesMerged} namespace merge(s)"
  let checked ← check ⟨binding.table, library, options⟩ rounds
  let checkedLine := traceLine options "check"
    s!"Checked {checked.types.size} type(s), {checked.instances.size} template instance(s)"
  return {
    logs := loading.logs ++ bound ++ checkedLine
    result := .ok {
      options
      files := loading.files
      symbols := binding.table
      types := checked.types
      annotations := checked.annotations
      symbolTypes := checked.symbolTypes
      instances := checked.instances
      diagnostics := loading.diagnostics ++ binding.diagnostics ++ checked.diagnostics
      internalErrors := checked.internalErrors } }

end Compilation

/-- Compiles an entry file and everything it imports. There is no result if a file cannot be read
to its end, or if checking takes more rounds than were given. -/
def compile (library : Library) (host : Host) (options : Options) (entry : String) (rounds : Nat) :
    Option Compilation := do
  match ← Loading.ofEntry host options entry with
  | (loading, some error) => return ⟨loading.logs, .error error⟩
  | (loading, none) => Compilation.ofLoading library options loading rounds

namespace Program

def hasErrors (program : Program) : Bool :=
  program.diagnostics.any (·.isFailure program.options.warningAsError)

def typeOf? (program : Program) (symbol : SymbolId) : Option TypeId :=
  program.symbolTypes.get? symbol

def typeNamed? (program : Program) (name : String) : Option TypeId :=
  (program.symbols.qualified? name).bind program.typeOf?

/-- The types that are marked as tests, by the name of the test. Of several types with one name the
one that comes last in the store has it. -/
def tests (program : Program) : Dictionary String TypeId :=
  Dictionary.ofList ((program.annotations.targets Builtin.testKey).filterMap fun entry =>
    match entry with
    | (.type id, .string name :: _) => some (name, id)
    | _ => none)

/-- Whether a type is a model that the standard library declares. -/
def isLibraryType (program : Program) (id : TypeId) : Bool :=
  match program.types.model? id with
  | some { symbol := some symbol, template := none, .. } => (program.symbols.symbol symbol).isLibrary
  | _ => false

def instanceName (name : String) (args : List String) : String :=
  if args.isEmpty then name else name ++ "<" ++ ", ".intercalate args ++ ">"

def propertyText (property : Property) (type : String) : String :=
  let mark := if property.optional then "?" else ""
  s!"{property.name}{mark}: {type}"

/-- The text of a type, made from the texts of the types in it. -/
def typeNameFrom (program : Program) (inner : TypeId → Option String) (id : TypeId) :
    Option String :=
  let declared (symbol : SymbolId) (template : Option TemplateInstance) : Option String :=
    let arguments := (template.map (·.arguments)).getD []
    (arguments.mapM inner).map (instanceName (program.symbols.qualifiedName symbol))
  match program.types.get? id with
  | none => some "<unresolved>"
  | some (.intrinsic kind) => some kind.name
  | some (.model model) => match model.symbol with
    | some symbol => declared symbol model.template
    | none => do
      let texts ← model.properties.mapM fun p => (inner p.type).map (propertyText p)
      return "\x7b " ++ ", ".intercalate texts ++ " \x7d"
  | some (.operation operation) => match operation.symbol with
    | some symbol => declared symbol operation.template
    | none => some operation.name
  | some (.interface interface) => match interface.symbol with
    | some symbol => some (program.symbols.qualifiedName symbol)
    | none => some interface.name
  | some (.union options) => do return " | ".intercalate (← options.mapM inner)
  | some (.templateParameter param) => some param.name
  | some .error => some "<error>"

/-- The text of a type, unless types are inside each other more than so many levels deep. -/
def typeNameWithin (program : Program) : Nat → TypeId → Option String
  | 0, _ => none
  | levels + 1, id => program.typeNameFrom (typeNameWithin program levels) id

/-- The text of a type, for people to read. There is none for a type that contains itself. -/
def typeName? (program : Program) (id : TypeId) : Option String :=
  program.typeNameWithin (program.types.size + 1) id

end Program

end Idl
