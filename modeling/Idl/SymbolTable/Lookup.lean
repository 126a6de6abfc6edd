import Idl.SymbolTable

/-!
Looking names up.

A name is searched in the local scopes around a place, innermost first, then in the namespaces
around it, and only then among what `using` brings into those namespaces. Full names are read from
the global namespace downwards.

A scope is younger than the scope around it, so the way out of a local scope takes at most as many
steps as there are local scopes, and an operation is younger than its interface.
-/

namespace Idl.SymbolTable

/-- The local scopes around a scope, innermost first, and the namespace around them, going out at
most so many steps. -/
def wayOutWithin (table : SymbolTable) : Nat → Scope → List LocalScopeId × NamespaceId
  | _, .space node => ([], node)
  | 0, .localScope id => ([id], NamespaceTree.root)
  | steps + 1, .localScope id =>
    match table.local? id with
    | some found =>
      let outer := wayOutWithin table steps found.parent
      (id :: outer.1, outer.2)
    | none => ([id], NamespaceTree.root)

def wayOut (table : SymbolTable) (scope : Scope) : List LocalScopeId × NamespaceId :=
  table.wayOutWithin table.locals.size scope

def enclosingNamespace (table : SymbolTable) (scope : Scope) : NamespaceId := (table.wayOut scope).2

/-- The scopes in which a name is searched, innermost first. -/
def scopeChain (table : SymbolTable) (scope : Scope) : List Scope :=
  let (locals, node) := table.wayOut scope
  locals.map .localScope ++ (table.tree.enclosing node).map .space

/-- Looks a name up, passing over symbols that are not accepted. -/
def lookupWhere (table : SymbolTable) (scope : Scope) (name : String) (accept : Symbol → Bool) :
    Resolution :=
  let accepted (id : SymbolId) : Bool := accept (table.symbol id)
  let bindings := (table.scopeChain scope).filterMap fun scope => table.binding? scope name
  match bindings.find? accepted with
  | some id => .found id
  | none => table.tree.lookupViaUsings (table.enclosingNamespace scope) name accepted

def lookup (table : SymbolTable) (scope : Scope) (name : String) : Resolution :=
  table.lookupWhere scope name fun _ => true

def member? (table : SymbolTable) (container : SymbolId) (name : String) : Option SymbolId :=
  let symbol := table.symbol container
  match symbol.node with
  | some node => table.tree.member? node name
  | none => (symbol.membersScope.bind table.local?).bind fun scope => scope.names.get? name

/-- Goes from a symbol to a member of a member, and so on. -/
def memberPath? (table : SymbolTable) (start : SymbolId) (names : List String) : Option SymbolId :=
  names.foldlM (fun container name => table.member? container name) start

/-- The namespace that a path names, from the global namespace. -/
def namespacePath? (table : SymbolTable) (names : List String) : Option SymbolId :=
  names.foldlM (fun container name => (table.member? container name).filter fun id =>
    (table.symbol id).kind = .space) global

/-- The symbol that a dotted name names, from the global namespace. -/
def qualified? (table : SymbolTable) (name : String) : Option SymbolId :=
  table.memberPath? global ((name.toList.splitOn '.').map String.ofList)

/-- The full name of a symbol, going out through at most so many interfaces. -/
def qualifiedNameWithin (table : SymbolTable) : Nat → SymbolId → String
  | 0, id => (table.symbol id).name
  | steps + 1, id =>
    let symbol := table.symbol id
    if id = global then ""
    else match symbol.parent with
      | .space node => table.tree.qualifiedName node symbol.name
      | .localScope scope => match (table.local? scope).map LocalScope.kind with
        | some (.interface owner) => s!"{qualifiedNameWithin table steps owner}.{symbol.name}"
        | _ => symbol.name

/-- The full name of a symbol. A template parameter has only its own name. -/
def qualifiedName (table : SymbolTable) (id : SymbolId) : String :=
  table.qualifiedNameWithin (id.index + 1) id

end Idl.SymbolTable
