import Idl.Diagnostic
import Idl.SymbolTable.Lookup

/-!
Binding: every declaration of a program gets its symbol.

Files are bound in the order in which they were loaded. Only the targets of `using` are resolved
here, and only at the end, when every file has brought in its namespaces.
-/

namespace Idl

structure PendingUsing where
  node : NamespaceId
  path : List String
  location : Location

structure Binding where
  table : SymbolTable := .empty
  diagnostics : List Diagnostic := []
  pendingUsings : List PendingUsing := []
  filesBound : Nat := 0
  /-- The number of declarations that made a symbol or lost their name. -/
  symbolsDeclared : Nat := 0
  /-- The number of declarations that added to a namespace. -/
  namespacesMerged : Nat := 0

namespace Binding

/-- Counts a declaration, and reports it if its name was taken. -/
def record (b : Binding) (declared : Declared) (name : String) (location : Option Location) :
    Binding :=
  match declared with
  | .new _ => { b with symbolsDeclared := b.symbolsDeclared + 1 }
  | .merged _ => { b with namespacesMerged := b.namespacesMerged + 1 }
  | .duplicate _ _ =>
    let finding := Diagnostic.report .duplicateSymbol s!"Duplicate name: \"{name}\"" location
    { b with symbolsDeclared := b.symbolsDeclared + 1, diagnostics := b.diagnostics ++ [finding] }

/-- Declares a name for anything but a namespace. -/
def declare (b : Binding) (file : FileId) (scope : Scope) (name : Ident) (kind : SymbolKind)
    (definition : Definition) : SymbolId × Binding :=
  let location : Location := ⟨file, name.span⟩
  let (declared, table) := b.table.declare scope name.name kind ⟨location, definition⟩
  (declared.id, { b with table }.record declared name.name (some location))

def enterNamespace (b : Binding) (file : FileId) (parent : NamespaceId) (name : Ident)
    (definition : Definition) : NamespaceId × Binding :=
  let location : Location := ⟨file, name.span⟩
  let (declared, table) := b.table.declareNamespace parent name.name (some ⟨location, definition⟩)
  let node := (table.symbol declared.id).node.getD parent
  (node, { b with table }.record declared name.name (some location))

/-- Declares or opens the namespaces of a path, one in the other. -/
def enterPath (b : Binding) (file : FileId) (parent : NamespaceId) (head : NamespaceHead) :
    List Ident → NamespaceId × Binding
  | [] => (parent, b)
  | [last] => b.enterNamespace file parent last (.space head)
  | segment :: rest =>
    let (node, b) := b.enterNamespace file parent segment .implicitNamespace
    b.enterPath file node head rest

/-- Declares the template parameters of a declaration in a scope of their own. -/
def declareParams (b : Binding) (file : FileId) (owner : SymbolId) (parent : Scope)
    (params : List TemplateParam) : Binding :=
  if params.isEmpty then b
  else
    let table := b.table.modifySymbol owner fun s => { s with templated := true }
    let (scope, table) := table.createLocalScope (.templateParameters owner) parent
    params.foldl (fun b param =>
      let (id, b) := b.declare file (.localScope scope) param.name .templateParameter
        (.templateParameter param)
      let table := b.table.modifySymbol owner fun s =>
        { s with templateParams := s.templateParams ++ [id] }
      { b with table }) { b with table }

def bindModel (b : Binding) (file : FileId) (scope : Scope) (decl : ModelDecl) : Binding :=
  let (id, b) := b.declare file scope decl.name .model (.model decl)
  b.declareParams file id scope decl.params

def bindOperation (b : Binding) (file : FileId) (scope : Scope) (interfaceMember : Bool)
    (decl : OperationDecl) : Binding :=
  let (id, b) := b.declare file scope decl.name .operation (.operation decl)
  let table := b.table.modifySymbol id fun s => { s with interfaceMember }
  { b with table }.declareParams file id scope decl.params

def bindInterface (b : Binding) (file : FileId) (scope : Scope) (decl : InterfaceDecl) : Binding :=
  let (id, b) := b.declare file scope decl.name .interface (.interface decl)
  let (members, table) := b.table.createLocalScope (.interface id) scope
  decl.operations.foldl (fun b operation =>
    b.bindOperation file (.localScope members) true operation) { b with table }

def bindUsing (b : Binding) (file : FileId) (node : NamespaceId) (decl : UsingDecl) : Binding :=
  let pending := ⟨node, decl.path.map (·.name), ⟨file, decl.span⟩⟩
  { b with pendingUsings := b.pendingUsings ++ [pending] }

mutual

def bindItem (file : FileId) (node : NamespaceId) : Item → Binding → Binding
  | .space head items, b =>
    if head.path.isEmpty then b
    else
      let entered := b.enterPath file node head head.path
      bindItems file entered.1 items entered.2
  | .model decl, b => b.bindModel file (.space node) decl
  | .operation decl, b => b.bindOperation file (.space node) false decl
  | .interface decl, b => b.bindInterface file (.space node) decl
  | .using decl, b => b.bindUsing file node decl

def bindItems (file : FileId) (node : NamespaceId) : List Item → Binding → Binding
  | [], b => b
  | item :: rest, b => bindItems file node rest (bindItem file node item b)

end

/-- Declares the decorators of a library, in order, in the global namespace. -/
def bindLibrary (b : Binding) (names : List String) : Binding :=
  names.zipIdx.foldl (fun b (name, index) =>
    let declaration : Declaration := ⟨⟨.library, ⟨0, 0, 0⟩⟩, .decorator ⟨index⟩⟩
    let (declared, table) := b.table.declare SymbolTable.rootScope name .decorator declaration
    { b with table }.record declared name none) b

def bindScript (b : Binding) (script : Script) : Binding :=
  let b := bindItems script.file NamespaceTree.root script.items b
  { b with filesBound := b.filesBound + 1 }

def resolveUsing (b : Binding) (pending : PendingUsing) : Binding :=
  match b.table.namespacePath? pending.path with
  | some target => match (b.table.symbol target).node with
    | some node => { b with table := b.table.addUsing pending.node node }
    | none => b
  | none =>
    let name := ".".intercalate pending.path
    let finding := Diagnostic.report .unknownNamespace s!"Unknown namespace '{name}'."
      (some pending.location)
    { b with diagnostics := b.diagnostics ++ [finding] }

/-- Ends binding: every `using` is resolved, in the order in which they stand. -/
def finish (b : Binding) : Binding :=
  b.pendingUsings.foldl resolveUsing { b with pendingUsings := [] }

def ofScripts (libraryNames : List String) (scripts : List Script) : Binding :=
  (scripts.foldl bindScript (({} : Binding).bindLibrary libraryNames)).finish

end Binding

end Idl
