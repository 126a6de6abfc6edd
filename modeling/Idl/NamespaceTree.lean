import Idl.Dictionary
import Idl.Symbol

/-!
The tree of namespaces.

A namespace holds its members by name, the first declaration of a name winning, and the namespaces
whose members `using` brings in. A namespace that lost its own name is a node with a parent all the
same, so that its full name can be told, but it is not a member of its parent.

A parent has a smaller number than its children, so the way up from a node is no longer than the
number of the node.
-/

namespace Idl

inductive Resolution where
  | found (symbol : SymbolId)
  /-- Several symbols that `using` brings in, each with the namespace it comes from. -/
  | ambiguous (candidates : List (NamespaceId × SymbolId))
  | notFound
deriving DecidableEq, Repr

namespace Resolution

/-- What a list of different candidates amounts to. -/
def ofCandidates : List (NamespaceId × SymbolId) → Resolution
  | [] => notFound
  | [(_, only)] => found only
  | candidates => ambiguous candidates

end Resolution

structure NamespaceNode where
  symbol : SymbolId
  /-- The namespace around this one, and the name of this one in it. -/
  parent : Option (NamespaceId × String) := none
  members : Dictionary String SymbolId := {}
  /-- The namespaces that `using` brings in, oldest first. -/
  usings : List NamespaceId := []

structure NamespaceTree where
  nodes : Array NamespaceNode

namespace NamespaceTree

def root : NamespaceId := ⟨0⟩

def ofGlobal (symbol : SymbolId) : NamespaceTree := ⟨#[{ symbol }]⟩

def size (tree : NamespaceTree) : Nat := tree.nodes.size

def node? (tree : NamespaceTree) (node : NamespaceId) : Option NamespaceNode :=
  tree.nodes[node.index]?

def modify (tree : NamespaceTree) (node : NamespaceId) (change : NamespaceNode → NamespaceNode) :
    NamespaceTree :=
  match tree.node? node with
  | some found => ⟨tree.nodes.setIfInBounds node.index (change found)⟩
  | none => tree

/-- Adds a new namespace, which is not yet a member of its parent. -/
def addChild (tree : NamespaceTree) (parent : NamespaceId) (name : String) (symbol : SymbolId) :
    NamespaceId × NamespaceTree :=
  (⟨tree.size⟩, ⟨tree.nodes.push { symbol, parent := some (parent, name) }⟩)

def member? (tree : NamespaceTree) (node : NamespaceId) (name : String) : Option SymbolId :=
  (tree.node? node).bind fun found => found.members.get? name

/-- The members of a namespace, oldest first. -/
def members (tree : NamespaceTree) (node : NamespaceId) : List SymbolId :=
  match tree.node? node with
  | some found => found.members.values
  | none => []

inductive Insertion where
  | inserted (tree : NamespaceTree)
  | taken (holder : SymbolId)
  | noNamespace

/-- Makes a symbol a member of a namespace unless the name is taken. -/
def insert (tree : NamespaceTree) (node : NamespaceId) (name : String) (symbol : SymbolId) :
    Insertion :=
  match tree.node? node with
  | none => .noNamespace
  | some found => match found.members.get? name with
    | some holder => .taken holder
    | none => .inserted (tree.modify node fun n => { n with members := n.members.insert name symbol })

def parent? (tree : NamespaceTree) (node : NamespaceId) : Option NamespaceId :=
  (tree.node? node).bind fun found => found.parent.map (·.1)

def name? (tree : NamespaceTree) (node : NamespaceId) : Option String :=
  (tree.node? node).bind fun found => found.parent.map (·.2)

/-- A namespace and those around it, innermost first, going up at most so many steps. -/
def enclosingWithin (tree : NamespaceTree) : Nat → NamespaceId → List NamespaceId
  | 0, node => [node]
  | steps + 1, node =>
    node :: match tree.parent? node with
      | some parent => enclosingWithin tree steps parent
      | none => []

/-- A namespace and those around it, innermost first. -/
def enclosing (tree : NamespaceTree) (node : NamespaceId) : List NamespaceId :=
  tree.enclosingWithin node.index node

/-- The names from the global namespace down to a namespace. -/
def path (tree : NamespaceTree) (node : NamespaceId) : List String :=
  ((tree.enclosing node).filterMap tree.name?).reverse

def qualifiedName (tree : NamespaceTree) (node : NamespaceId) (name : String) : String :=
  ".".intercalate (tree.path node ++ [name])

/-- Brings the members of a namespace into another one. Once is enough. -/
def addUsing (tree : NamespaceTree) (user target : NamespaceId) : NamespaceTree :=
  tree.modify user fun n =>
    if target ∈ n.usings then n else { n with usings := n.usings ++ [target] }

def usings (tree : NamespaceTree) (node : NamespaceId) : List NamespaceId :=
  match tree.node? node with
  | some found => found.usings
  | none => []

/-- Adds a candidate unless its symbol is already among them. -/
def addCandidate (candidates : List (NamespaceId × SymbolId)) (candidate : NamespaceId × SymbolId) :
    List (NamespaceId × SymbolId) :=
  if candidate.2 ∈ candidates.map (·.2) then candidates else candidates ++ [candidate]

/-- The accepted symbols of a name that `using` brings into a namespace or one around it, each
once, innermost namespace first. The usings of a used namespace do not count. -/
def candidatesViaUsings (tree : NamespaceTree) (node : NamespaceId) (name : String)
    (accept : SymbolId → Bool) : List (NamespaceId × SymbolId) :=
  let used := (tree.enclosing node).flatMap tree.usings
  let named := used.filterMap fun space => (tree.member? space name).map (space, ·)
  (named.filter fun candidate => accept candidate.2).foldl addCandidate []

def lookupViaUsings (tree : NamespaceTree) (node : NamespaceId) (name : String)
    (accept : SymbolId → Bool) : Resolution :=
  .ofCandidates (tree.candidatesViaUsings node name accept)

end NamespaceTree

end Idl
