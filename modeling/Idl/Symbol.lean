import Idl.Syntax

/-!
Symbols: what the names of a program stand for.

Symbols, namespaces and local scopes are numbered in the order in which they come into being. A
symbol knows the scope in which it was declared and the syntax that declared it. A declaration
that lost its name to an earlier one is a symbol like any other, only marked as shadowed. The
numbers are natural numbers: that there are fewer than 2^32 of each kind is not required.
-/

namespace Idl

structure SymbolId where
  index : Nat
deriving DecidableEq, Repr

/-- A namespace, as a node of the tree of namespaces. Node 0 is the global namespace. -/
structure NamespaceId where
  index : Nat
deriving DecidableEq, Repr

/-- A scope that is narrower than a namespace. -/
structure LocalScopeId where
  index : Nat
deriving DecidableEq, Repr

structure DecoratorId where
  index : Nat
deriving DecidableEq, Repr

inductive Scope where
  | space (node : NamespaceId)
  | localScope (id : LocalScopeId)
deriving DecidableEq, Repr

inductive SymbolKind where
  | space
  | model
  | operation
  | interface
  | templateParameter
  | decorator
deriving DecidableEq, Repr

namespace SymbolKind

def name : SymbolKind → String
  | space => "namespace"
  | model => "model"
  | operation => "operation"
  | interface => "interface"
  | templateParameter => "template parameter"
  | decorator => "decorator"

def all : List SymbolKind := [space, model, operation, interface, templateParameter, decorator]

def ofName? (text : String) : Option SymbolKind := all.find? (·.name == text)

/-- Whether a reference to such a symbol can stand for a type. -/
def isType : SymbolKind → Bool
  | model | operation | interface | templateParameter => true
  | space | decorator => false

/-- Whether such a symbol has a type of its own. -/
def declares : SymbolKind → Bool
  | model | operation | interface => true
  | space | templateParameter | decorator => false

end SymbolKind

inductive Definition where
  /-- A segment of a dotted namespace path before the last one, which has no syntax of its own. -/
  | implicitNamespace
  | space (head : NamespaceHead)
  | model (decl : ModelDecl)
  | operation (decl : OperationDecl)
  | interface (decl : InterfaceDecl)
  | templateParameter (decl : TemplateParam)
  | decorator (id : DecoratorId)

def Definition.kindName : Definition → String
  | .implicitNamespace => "implicit-namespace"
  | .space _ => "namespace"
  | .model _ => "model"
  | .operation _ => "operation"
  | .interface _ => "interface"
  | .templateParameter _ => "template-parameter"
  | .decorator _ => "decorator"

structure Declaration where
  location : Location
  definition : Definition

structure Symbol where
  id : SymbolId
  name : String
  kind : SymbolKind
  parent : Scope
  /-- The name was already taken: lookup never finds the symbol. -/
  shadowed : Bool := false
  templated : Bool := false
  interfaceMember : Bool := false
  /-- Every place that declares the symbol. Only a namespace has more than one. -/
  declarations : List Declaration := []
  templateParams : List SymbolId := []
  templateScope : Option LocalScopeId := none
  membersScope : Option LocalScopeId := none
  node : Option NamespaceId := none

namespace Symbol

/-- The place of the first declaration, which is the one that diagnostics point at. -/
def location (symbol : Symbol) : Option Location := symbol.declarations.head?.map (·.location)

/-- The scope from which names in the body of the symbol are looked up. -/
def bodyScope (symbol : Symbol) : Scope :=
  match symbol.templateScope with
  | some scope => .localScope scope
  | none => symbol.parent

/-- Whether the symbol belongs to the standard library or the decorator library. -/
def isLibrary (symbol : Symbol) : Bool :=
  match symbol.location with
  | some location => location.file == .library
  | none => false

end Symbol

end Idl
