import Idl.NamespaceTree

/-!
The symbols and scopes of a program.

Declaring a name in a scope always makes a symbol. If the name is taken there the new symbol is
shadowed, except that declaring a namespace again adds to the namespace that is already there.
Blocks of a namespace whose name belongs to something else all add to one shadowed namespace.
-/

namespace Idl

inductive LocalScopeKind where
  | templateParameters (owner : SymbolId)
  | interface (owner : SymbolId)
deriving DecidableEq, Repr

def LocalScopeKind.owner : LocalScopeKind → SymbolId
  | templateParameters owner => owner
  | interface owner => owner

structure LocalScope where
  kind : LocalScopeKind
  parent : Scope
  names : Dictionary String SymbolId := {}

inductive Declared where
  | new (id : SymbolId)
  /-- One more declaration of a namespace. -/
  | merged (id : SymbolId)
  /-- The name was taken by another symbol. -/
  | duplicate (shadowed existing : SymbolId)
deriving DecidableEq, Repr

def Declared.id : Declared → SymbolId
  | new id => id
  | merged id => id
  | duplicate shadowed _ => shadowed

structure SymbolTable where
  symbols : Array Symbol
  locals : Array LocalScope := #[]
  tree : NamespaceTree
  /-- The namespaces that lost their name, by parent and name. -/
  shadowedNamespaces : Dictionary (NamespaceId × String) SymbolId := {}

namespace SymbolTable

def global : SymbolId := ⟨0⟩

def rootScope : Scope := .space NamespaceTree.root

def globalSymbol : Symbol :=
  { id := global, name := "", kind := .space, parent := rootScope, node := some NamespaceTree.root }

def empty : SymbolTable := { symbols := #[globalSymbol], tree := NamespaceTree.ofGlobal global }

def get? (table : SymbolTable) (id : SymbolId) : Option Symbol := table.symbols[id.index]?

/-- The symbol with a number. A number that was never handed out gives the global namespace. -/
def symbol (table : SymbolTable) (id : SymbolId) : Symbol := (table.get? id).getD globalSymbol

def size (table : SymbolTable) : Nat := table.symbols.size

def isEmpty (table : SymbolTable) : Bool := table.symbols.isEmpty

def toList (table : SymbolTable) : List Symbol := table.symbols.toList

def local? (table : SymbolTable) (id : LocalScopeId) : Option LocalScope := table.locals[id.index]?

/-- The symbols that are found by name in a namespace or an interface, oldest first. -/
def members (table : SymbolTable) (id : SymbolId) : List SymbolId :=
  let symbol := table.symbol id
  match symbol.node with
  | some node => table.tree.members node
  | none => match symbol.membersScope.bind table.local? with
    | some scope => scope.names.values
    | none => []

def modifySymbol (table : SymbolTable) (id : SymbolId) (change : Symbol → Symbol) : SymbolTable :=
  match table.get? id with
  | some found => { table with symbols := table.symbols.setIfInBounds id.index (change found) }
  | none => table

/-- Adds a symbol that no scope knows yet. -/
def push (table : SymbolTable) (name : String) (kind : SymbolKind) (parent : Scope) :
    SymbolId × SymbolTable :=
  let id : SymbolId := ⟨table.size⟩
  (id, { table with symbols := table.symbols.push { id, name, kind, parent } })

def binding? (table : SymbolTable) (scope : Scope) (name : String) : Option SymbolId :=
  match scope with
  | .space node => table.tree.member? node name
  | .localScope id => (table.local? id).bind fun scope => scope.names.get? name

/-- Gives a symbol its name in a scope, or tells which symbol has the name. In a scope that does
not exist no name can be had. -/
def bind (table : SymbolTable) (scope : Scope) (name : String) (id : SymbolId) :
    Except SymbolId SymbolTable :=
  match scope with
  | .space node => match table.tree.insert node name id with
    | .inserted tree => .ok { table with tree }
    | .taken holder => .error holder
    | .noNamespace => .error id
  | .localScope scopeId => match table.local? scopeId with
    | none => .error id
    | some found => match found.names.get? name with
      | some holder => .error holder
      | none =>
        let found := { found with names := found.names.insert name id }
        .ok { table with locals := table.locals.setIfInBounds scopeId.index found }

/-- Declares a name for anything but a namespace. -/
def declare (table : SymbolTable) (scope : Scope) (name : String) (kind : SymbolKind)
    (declaration : Declaration) : Declared × SymbolTable :=
  let (id, table) := table.push name kind scope
  let table := table.modifySymbol id fun s => { s with declarations := [declaration] }
  match table.bind scope name id with
  | .ok table => (.new id, table)
  | .error existing =>
    (.duplicate id existing, table.modifySymbol id fun s => { s with shadowed := true })

def addDeclaration (table : SymbolTable) (id : SymbolId) (declaration : Option Declaration) :
    SymbolTable :=
  table.modifySymbol id fun s => { s with declarations := s.declarations ++ declaration.toList }

/-- Makes a new namespace, shadowed if its name is taken. -/
def newNamespace (table : SymbolTable) (parent : NamespaceId) (name : String)
    (declaration : Option Declaration) : Declared × SymbolTable :=
  let (id, table) := table.push name .space (.space parent)
  let (node, tree) := table.tree.addChild parent name id
  let table := { table with tree }.modifySymbol id fun s => { s with node := some node }
  let table := table.addDeclaration id declaration
  match table.bind (.space parent) name id with
  | .ok table => (.new id, table)
  | .error existing =>
    let table := table.modifySymbol id fun s => { s with shadowed := true }
    let shadowedNamespaces := table.shadowedNamespaces.insert (parent, name) id
    (.duplicate id existing, { table with shadowedNamespaces })

/-- Declares a namespace, or opens it again. -/
def declareNamespace (table : SymbolTable) (parent : NamespaceId) (name : String)
    (declaration : Option Declaration) : Declared × SymbolTable :=
  match table.tree.member? parent name with
  | none => table.newNamespace parent name declaration
  | some existing =>
    if (table.symbol existing).kind = .space then
      (.merged existing, table.addDeclaration existing declaration)
    else match table.shadowedNamespaces.get? (parent, name) with
      | some shadowed => (.duplicate shadowed existing, table.addDeclaration shadowed declaration)
      | none => table.newNamespace parent name declaration

/-- Makes a local scope and attaches it to its owner. -/
def createLocalScope (table : SymbolTable) (kind : LocalScopeKind) (parent : Scope) :
    LocalScopeId × SymbolTable :=
  let id : LocalScopeId := ⟨table.locals.size⟩
  let table := { table with locals := table.locals.push { kind, parent } }
  match kind with
  | .templateParameters owner =>
    (id, table.modifySymbol owner fun s => { s with templateScope := some id })
  | .interface owner =>
    (id, table.modifySymbol owner fun s => { s with membersScope := some id })

def addUsing (table : SymbolTable) (user target : NamespaceId) : SymbolTable :=
  { table with tree := table.tree.addUsing user target }

end SymbolTable

end Idl
