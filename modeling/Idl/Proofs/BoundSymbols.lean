import Idl.Binding
import Idl.Decorator.Library

/-! What binding guarantees about the symbols of a program. A symbol of each kind
has the declaration of that kind, only models and operations have template
parameters, and a template parameter is found from the body of its own
declaration only. -/
namespace Idl

namespace Dictionary
variable [DecidableEq κ]

private theorem mem_place {entries : List (κ × ν)} (member : entry ∈ place key value entries) :
    entry ∈ entries ∨ entry = (key, value) := by
  induction entries with
  | nil => exact .inr (List.mem_singleton.mp member)
  | cons first rest ih =>
    obtain ⟨k, v⟩ := first
    simp only [place] at member
    split at member
    · rename_i same
      rcases List.mem_cons.mp member with rfl | member
      · exact .inr (by rw [same])
      · exact .inl (List.mem_cons_of_mem _ member)
    · rcases List.mem_cons.mp member with rfl | member
      · exact .inl (List.mem_cons_self ..)
      · exact (ih member).imp_left (List.mem_cons_of_mem _)

theorem mem_entries_insert {d : Dictionary κ ν} (member : entry ∈ (d.insert key value).entries) :
    entry ∈ d.entries ∨ entry = (key, value) :=
  mem_place member

private theorem mem_of_find?_eq_some {entries : List (κ × ν)}
    (found : find? key entries = some value) : (key, value) ∈ entries := by
  induction entries with
  | nil => cases found
  | cons first rest ih =>
    obtain ⟨k, v⟩ := first
    simp only [find?] at found
    split at found
    · rename_i same
      cases found
      rw [same]
      exact List.mem_cons_self ..
    · exact List.mem_cons_of_mem _ (ih found)

theorem mem_entries_of_get? {d : Dictionary κ ν} (found : d.get? key = some value) :
    (key, value) ∈ d.entries :=
  mem_of_find?_eq_some found

end Dictionary

theorem getElem?_set_of_some {a : Array α} (held : a[i]? = some old) (new : α) :
    (a.setIfInBounds i new)[j]? = if j = i then some new else a[j]? := by
  obtain ⟨inside, _⟩ := Array.getElem?_eq_some_iff.mp held
  rw [Array.getElem?_setIfInBounds]
  by_cases same : i = j
  · subst same
    simp [inside]
  · simp [same, Ne.symm same]

/-! The operations of a symbol table, through what they find. -/

namespace SymbolTable
variable {table : SymbolTable}

theorem get?_push (table : SymbolTable) (name : String) (kind : SymbolKind) (parent : Scope)
    (id : SymbolId) : (table.push name kind parent).2.get? id =
      if id = ⟨table.size⟩ then some { id := ⟨table.size⟩, name, kind, parent } else table.get? id := by
  obtain ⟨index⟩ := id
  simp only [push, get?, Array.getElem?_push, size, SymbolId.mk.injEq]

theorem get?_modifySymbol (table : SymbolTable) (id other : SymbolId) (change : Symbol → Symbol) :
    (table.modifySymbol id change).get? other =
      if other = id then (table.get? id).map change else table.get? other := by
  obtain ⟨index⟩ := id
  obtain ⟨place⟩ := other
  unfold modifySymbol
  split
  · rename_i found held
    rw [held, Option.map_some]
    simp only [get?, getElem?_set_of_some held, SymbolId.mk.injEq]
  · rename_i none
    split
    · rename_i same
      rw [same, none]
      rfl
    · rfl

@[simp] theorem locals_modifySymbol (table : SymbolTable) (id : SymbolId) (change : Symbol → Symbol) :
    (table.modifySymbol id change).locals = table.locals := by
  unfold modifySymbol
  split <;> rfl

@[simp] theorem tree_modifySymbol (table : SymbolTable) (id : SymbolId) (change : Symbol → Symbol) :
    (table.modifySymbol id change).tree = table.tree := by
  unfold modifySymbol
  split <;> rfl

/-- A symbol of any kind but the one of namespaces has been declared. -/
theorem get?_of_kind {id : SymbolId} (kind : (table.symbol id).kind ≠ .space) :
    table.get? id = some (table.symbol id) := by
  unfold symbol at *
  cases found : table.get? id with
  | some symbol => rfl
  | none =>
    rw [found] at kind
    exact absurd rfl kind

theorem symbol_of_get? {id : SymbolId} {symbol : Symbol} (found : table.get? id = some symbol) :
    table.symbol id = symbol := by
  rw [SymbolTable.symbol, found]
  rfl

end SymbolTable

/-! What is true of a symbol, a local scope and a namespace once they are bound. -/

/-- The kind of symbol that a piece of syntax declares. -/
def Definition.kind : Definition → SymbolKind
  | .implicitNamespace | .space _ => .space
  | .model _ => .model
  | .operation _ => .operation
  | .interface _ => .interface
  | .templateParameter _ => .templateParameter
  | .decorator _ => .decorator

/-- Syntax that declares a symbol of a kind; a decorator is one of the library. -/
def Definition.Fits (decorators : Nat) (definition : Definition) (kind : SymbolKind) : Prop :=
  definition.kind = kind ∧ ∀ id, definition = .decorator id → id.index < decorators

/-- Anything but a namespace is declared by syntax of its kind. -/
def Symbol.Defined (decorators : Nat) (symbol : Symbol) : Prop :=
  symbol.kind = .space ∨ ∃ declaration, symbol.declarations.head? = some declaration ∧
    declaration.definition.Fits decorators symbol.kind

/-- A scope outside every template: a namespace, or an interface in a namespace. -/
def SymbolTable.Outer (table : SymbolTable) : Scope → Prop
  | .space _ => True
  | .localScope id => ∃ found owner node, table.local? id = some found ∧
    found.kind = .interface owner ∧ found.parent = .space node

theorem SymbolTable.outer_space (table : SymbolTable) (node : NamespaceId) :
    table.Outer (.space node) := trivial

structure Symbol.Bound (decorators : Nat) (table : SymbolTable) (id : SymbolId) (symbol : Symbol) :
    Prop where
  numbered : symbol.id = id
  defined : symbol.Defined decorators
  templates : symbol.templateParams ≠ [] →
    symbol.templated = true ∧ (symbol.kind = .model ∨ symbol.kind = .operation)
  around : symbol.kind ≠ .templateParameter → table.Outer symbol.parent
  params : ∀ scope, symbol.templateScope = some scope →
    ∃ found, table.local? scope = some found ∧ found.kind = .templateParameters id
  members : ∀ scope, symbol.membersScope = some scope →
    ∃ found owner, table.local? scope = some found ∧ found.kind = .interface owner
  node : symbol.kind = .interface → symbol.node = none

/-- A symbol may have its name in a local scope: a parameter of the owner, or an
operation of an interface. -/
def LocalScopeKind.Admits (table : SymbolTable) (kind : LocalScopeKind) (id : SymbolId) : Prop :=
  match kind with
  | .templateParameters owner => id ∈ (table.symbol owner).templateParams
  | .interface _ => (table.symbol id).kind = .operation

structure LocalScope.Bound (table : SymbolTable) (scope : LocalScope) : Prop where
  around : table.Outer scope.parent
  flat : ∀ owner, scope.kind = .interface owner → ∃ node, scope.parent = .space node
  names : ∀ entry ∈ scope.names.entries, scope.kind.Admits table entry.2

/-- No member of a namespace is a template parameter. -/
def NamespaceNode.Bound (table : SymbolTable) (node : NamespaceNode) : Prop :=
  ∀ entry ∈ node.members.entries, ∃ symbol, table.get? entry.2 = some symbol ∧
    symbol.kind ≠ .templateParameter

structure SymbolTable.Bound (decorators : Nat) (table : SymbolTable) : Prop where
  symbols : ∀ id symbol, table.get? id = some symbol → symbol.Bound decorators table id
  locals : ∀ id scope, table.local? id = some scope → scope.Bound table
  spaces : ∀ id node, table.tree.node? id = some node → node.Bound table

/-- A table with at least the symbols and scopes of another. -/
structure SymbolTable.Extends (before after : SymbolTable) : Prop where
  symbols : ∀ id symbol, before.get? id = some symbol → ∃ found, after.get? id = some found ∧
    found.kind = symbol.kind ∧ ∀ param ∈ symbol.templateParams, param ∈ found.templateParams
  locals : ∀ id scope, before.local? id = some scope → ∃ found, after.local? id = some found ∧
    found.kind = scope.kind ∧ found.parent = scope.parent

theorem SymbolTable.Extends.refl (table : SymbolTable) : table.Extends table :=
  ⟨fun _ symbol held => ⟨symbol, held, rfl, fun _ member => member⟩,
    fun _ scope held => ⟨scope, held, rfl, rfl⟩⟩

theorem SymbolTable.Extends.trans {first : SymbolTable} (one : first.Extends second)
    (two : second.Extends third) : first.Extends third where
  symbols := by
    intro id symbol held
    obtain ⟨middle, present, kind, params⟩ := one.symbols id symbol held
    obtain ⟨last, found, same, listed⟩ := two.symbols id middle present
    exact ⟨last, found, same.trans kind, fun param member => listed param (params param member)⟩
  locals := by
    intro id scope held
    obtain ⟨middle, present, kind, parent⟩ := one.locals id scope held
    obtain ⟨last, found, same, around⟩ := two.locals id middle present
    exact ⟨last, found, same.trans kind, around.trans parent⟩

namespace SymbolTable.Extends
variable {before : SymbolTable}

variable {id : SymbolId}
variable (extended : before.Extends after)
include extended

theorem outer (outer : before.Outer scope) : after.Outer scope := by
  cases scope with
  | space => trivial
  | localScope id =>
    obtain ⟨found, owner, node, held, kind, parent⟩ := outer
    obtain ⟨later, present, sameKind, sameParent⟩ := extended.locals id found held
    exact ⟨later, owner, node, present, sameKind.trans kind, sameParent.trans parent⟩

theorem symbol {symbol : Symbol} (bound : symbol.Bound decorators before id) :
    symbol.Bound decorators after id :=
  { bound with
    around := fun kind => extended.outer (bound.around kind)
    params := fun scope given => by
      obtain ⟨found, held, kind⟩ := bound.params scope given
      obtain ⟨later, present, same, _⟩ := extended.locals scope found held
      exact ⟨later, present, same.trans kind⟩
    members := fun scope given => by
      obtain ⟨found, owner, held, kind⟩ := bound.members scope given
      obtain ⟨later, present, same, _⟩ := extended.locals scope found held
      exact ⟨later, owner, present, same.trans kind⟩ }

theorem kind {kind : SymbolKind} (declared : kind ≠ .space)
    (same : (before.symbol id).kind = kind) : (after.symbol id).kind = kind := by
  have found := SymbolTable.get?_of_kind (same ▸ declared)
  obtain ⟨later, present, kept, _⟩ := extended.symbols id _ found
  rw [SymbolTable.symbol_of_get? present, kept, same]

theorem param {param : SymbolId} (own : param ∈ (before.symbol owner).templateParams) :
    param ∈ (after.symbol owner).templateParams := by
  unfold SymbolTable.symbol at own
  cases found : before.get? owner with
  | none =>
    rw [found] at own
    cases own
  | some symbol =>
    rw [found] at own
    obtain ⟨later, present, _, kept⟩ := extended.symbols owner symbol found
    rw [SymbolTable.symbol_of_get? present]
    exact kept param own

theorem admits {kind : LocalScopeKind} (admitted : kind.Admits before id) :
    kind.Admits after id := by
  cases kind with
  | templateParameters owner => exact extended.param admitted
  | interface owner => exact extended.kind (by simp) admitted

theorem scope {scope : LocalScope} (bound : scope.Bound before) : scope.Bound after where
  around := extended.outer bound.around
  flat := bound.flat
  names := fun entry member => extended.admits (bound.names entry member)

theorem node {node : NamespaceNode} (bound : node.Bound before) : node.Bound after := by
  intro entry member
  obtain ⟨symbol, held, kind⟩ := bound entry member
  obtain ⟨later, present, same, _⟩ := extended.symbols _ _ held
  exact ⟨later, present, same ▸ kind⟩

end SymbolTable.Extends

theorem NamespaceTree.node?_modify (tree : NamespaceTree) (node other : NamespaceId)
    (change : NamespaceNode → NamespaceNode) : (tree.modify node change).node? other =
      if other = node then (tree.node? node).map change else tree.node? other := by
  obtain ⟨index⟩ := node
  obtain ⟨place⟩ := other
  unfold modify
  split
  · rename_i found held
    rw [held, Option.map_some]
    simp only [node?, getElem?_set_of_some held, NamespaceId.mk.injEq]
  · rename_i none
    split
    · rename_i same
      rw [same, none]
      rfl
    · rfl

namespace SymbolTable
variable {table : SymbolTable}

theorem local?_set {id : LocalScopeId} (present : table.local? id = some found) (scope : LocalScope) :
    { table with locals := table.locals.setIfInBounds id.index scope }.local? place =
      if place = id then some scope else table.local? place := by
  obtain ⟨index⟩ := id
  obtain ⟨other⟩ := place
  simp only [local?, getElem?_set_of_some present, LocalScopeId.mk.injEq]

/-- The table with a declaration that has not asked for its name yet. -/
def enlist (table : SymbolTable) (scope : Scope) (name : String) (kind : SymbolKind)
    (declaration : Declaration) : SymbolTable :=
  (table.push name kind scope).2.modifySymbol ⟨table.size⟩ fun s => { s with declarations := [declaration] }

section
variable (table : SymbolTable) (scope : Scope) (name : String) (kind : SymbolKind)
  (declaration : Declaration)

theorem declare_eq : table.declare scope name kind declaration =
    let fresh := table.enlist scope name kind declaration
    match fresh.bind scope name ⟨table.size⟩ with
    | .ok after => (.new ⟨table.size⟩, after)
    | .error existing => (.duplicate ⟨table.size⟩ existing,
        fresh.modifySymbol ⟨table.size⟩ fun s => { s with shadowed := true }) := rfl

theorem get?_enlist (id : SymbolId) :
    (table.enlist scope name kind declaration).get? id = if id = ⟨table.size⟩ then
      some { id := ⟨table.size⟩, name, kind, parent := scope, declarations := [declaration] }
      else table.get? id := by
  rw [enlist, get?_modifySymbol, get?_push, get?_push]
  split
  · simp
  · rfl

@[simp] theorem tree_enlist : (table.enlist scope name kind declaration).tree = table.tree :=
  tree_modifySymbol ..

@[simp] theorem locals_enlist : (table.enlist scope name kind declaration).locals = table.locals :=
  locals_modifySymbol ..

end

/-- A local scope that is made, without names yet. -/
theorem local?_push (table : SymbolTable) (scope : LocalScope) (place : LocalScopeId) :
    { table with locals := table.locals.push scope }.local? place =
      if place = ⟨table.locals.size⟩ then some scope else table.local? place := by
  obtain ⟨index⟩ := place
  simp only [local?, Array.getElem?_push, LocalScopeId.mk.injEq]

/-- A scope belongs to the parameters of a declaration. -/
structure Templates (table : SymbolTable) (scope : LocalScopeId) (owner : SymbolId) : Prop where
  scope : ∃ found, table.local? scope = some found ∧ found.kind = .templateParameters owner
  owner : ∃ found, table.get? owner = some found ∧ found.templated = true ∧
    (found.kind = .model ∨ found.kind = .operation)

end SymbolTable

/-! Binding, declaration by declaration. -/

namespace Binding

@[simp] theorem table_record (b : Binding) (declared : Declared) (name : String)
    (location : Option Location) : (b.record declared name location).table = b.table := by
  unfold record
  split <;> rfl

theorem id_declare (b : Binding) (file : FileId) (scope : Scope) (name : Ident) (kind : SymbolKind)
    (definition : Definition) :
    (b.declare file scope name kind definition).1 = ⟨b.table.size⟩ := by
  simp only [declare, SymbolTable.declare_eq]
  split <;> rfl

theorem empty_bound : SymbolTable.empty.Bound decorators where
  symbols := by
    rintro ⟨index⟩ symbol held
    cases index with
    | zero =>
      cases held
      exact ⟨rfl, .inl rfl, fun some => absurd rfl some, fun _ => trivial, nofun, nofun, nofun⟩
    | succ => cases held
  locals := nofun
  spaces := by
    rintro ⟨index⟩ node held
    cases index with
    | zero =>
      cases held
      exact nofun
    | succ => cases held

end Binding

theorem NamespaceTree.mem_addCandidates {more : List (NamespaceId × SymbolId)}
    (member : candidate ∈ more.foldl addCandidate found) :
    candidate ∈ found ∨ candidate ∈ more := by
  induction more generalizing found with
  | nil => exact .inl member
  | cons first rest ih =>
    rcases ih member with early | late
    · unfold addCandidate at early
      split at early
      · exact .inl early
      · rcases List.mem_append.mp early with old | new
        · exact .inl old
        · exact .inr (by simp [List.mem_singleton.mp new])
    · exact .inr (List.mem_cons_of_mem _ late)

/-- A candidate is a member of the namespace that it comes from. -/
theorem NamespaceTree.member?_of_candidate {tree : NamespaceTree} {node : NamespaceId}
    (member : candidate ∈ tree.candidatesViaUsings node name accept) :
    tree.member? candidate.1 name = some candidate.2 := by
  rcases mem_addCandidates member with none | listed
  · cases none
  · obtain ⟨other, _, given⟩ := List.mem_filterMap.mp (List.mem_filter.mp listed).1
    obtain ⟨_, held, rfl⟩ := Option.map_eq_some_iff.mp given
    exact held

/-! What follows for whoever reads the symbols. -/

namespace SymbolTable.Bound
variable {id : SymbolId}
variable {table : SymbolTable}

theorem of_kind (bound : table.Bound decorators) (kind : (table.symbol id).kind ≠ .space) :
    (table.symbol id).Bound decorators table id :=
  bound.symbols id _ (get?_of_kind kind)

theorem definition (bound : table.Bound decorators) (kind : (table.symbol id).kind ≠ .space) :
    ∃ declaration, (table.symbol id).declarations.head? = some declaration ∧
      declaration.definition.Fits decorators (table.symbol id).kind :=
  (bound.of_kind kind).defined.resolve_left kind

/-- A decorator is one of the library. -/
theorem decorator {library : Library} (bound : table.Bound library.size)
    (kind : (table.symbol id).kind = .decorator) :
    ∃ decorator, (table.symbol id).declarations.head?.map Declaration.definition =
      some (.decorator decorator) ∧ (library.get? decorator).isSome := by
  obtain ⟨declaration, first, fits, listed⟩ := bound.definition (by rw [kind]; simp)
  rw [kind] at fits
  rw [first]
  cases definition : declaration.definition with
  | decorator decorator =>
    refine ⟨decorator, congrArg some definition, ?_⟩
    have inside := listed decorator definition
    simpa [Library.get?, Library.size] using inside
  | _ =>
    rw [definition] at fits
    cases fits

section
variable (bound : table.Bound decorators)
include bound

/-- A symbol with parameters is a template, and a model or an operation. -/
theorem templates (some : (table.symbol id).templateParams ≠ []) :
    (table.symbol id).templated = true ∧
      ((table.symbol id).kind = .model ∨ (table.symbol id).kind = .operation) := by
  cases found : table.get? id with
  | none =>
    rw [SymbolTable.symbol, found] at some
    exact absurd rfl some
  | some symbol =>
    rw [symbol_of_get? found] at some ⊢
    exact (bound.symbols id symbol found).templates some

/-- A declaration that is not templated has no parameters. -/
theorem plain (plain : (table.symbol id).templated = false) :
    (table.symbol id).templateParams = [] := by
  cases listed : (table.symbol id).templateParams with
  | nil => rfl
  | cons first rest =>
    rw [(bound.templates (by simp [listed])).1] at plain
    cases plain

/-- The members of an interface are operations. -/
theorem operations (kind : (table.symbol id).kind = .interface) :
    ∀ member ∈ table.members id, (table.symbol member).kind = .operation := by
  intro member held
  have symbol : (table.symbol id).Bound decorators table id := bound.of_kind (by simp [kind])
  unfold members at held
  simp only [symbol.node kind] at held
  split at held
  · rename_i scope found
    obtain ⟨place, given, present⟩ := Option.bind_eq_some_iff.mp found
    obtain ⟨_, owner, same, interface⟩ := symbol.members place given
    cases same.symm.trans present
    obtain ⟨entry, listed, rfl⟩ := List.mem_map.mp held
    have admitted := (bound.locals place scope present).names entry listed
    rw [interface] at admitted
    exact admitted
  · cases held

/-- Symbols are found under their own numbers. -/
theorem numbered {symbol : Symbol} (listed : symbol ∈ table.toList) :
    table.symbol symbol.id = symbol := by
  obtain ⟨index, inside, rfl⟩ := List.getElem_of_mem listed
  have found : table.get? ⟨index⟩ = some table.toList[index] := by
    simp [get?, toList]
  rw [(bound.symbols ⟨index⟩ _ found).numbered, symbol_of_get? found]

theorem listed (kind : (table.symbol id).kind ≠ .space) :
    table.symbol id ∈ table.toList ∧ (table.symbol id).id = id := by
  have found : table.symbols[id.index]? = some (table.symbol id) := get?_of_kind kind
  exact ⟨Array.mem_toList_iff.mpr (Array.mem_of_getElem? found), (bound.of_kind kind).numbered⟩

/-- A number that was not handed out stands for the global namespace. -/
theorem listed_or_global (id : SymbolId) :
    (table.symbol id ∈ table.toList ∧ (table.symbol id).id = id) ∨
      table.symbol id = globalSymbol := by
  cases found : table.get? id with
  | none =>
    right
    rw [symbol, found]
    rfl
  | some symbol =>
    left
    rw [symbol_of_get? found]
    exact ⟨Array.mem_toList_iff.mpr (Array.mem_of_getElem? found),
      (bound.symbols id symbol found).numbered⟩

end

/-! Template parameters are found from the body of their own declaration only. -/

private theorem member_of_space (bound : table.Bound decorators) {node : NamespaceId}
    (found : table.tree.member? node name = some id) :
    (table.symbol id).kind ≠ .templateParameter := by
  obtain ⟨space, present, held⟩ := Option.bind_eq_some_iff.mp found
  obtain ⟨symbol, declared, other⟩ :=
    bound.spaces node space present (name, id) (Dictionary.mem_entries_of_get? held)
  rw [symbol_of_get? declared]
  exact other

/-- No template parameter is a member of anything. -/
private theorem member_other (bound : table.Bound decorators)
    (found : table.member? container name = some id) :
    (table.symbol id).kind ≠ .templateParameter := by
  unfold member? at found
  dsimp only at found
  split at found
  · exact bound.member_of_space found
  · obtain ⟨scope, given, held⟩ := Option.bind_eq_some_iff.mp found
    obtain ⟨place, members, present⟩ := Option.bind_eq_some_iff.mp given
    cases declared : table.get? container with
    | none =>
      rw [SymbolTable.symbol, declared] at members
      cases members
    | some symbol =>
      rw [symbol_of_get? declared] at members
      obtain ⟨_, owner, same, interface⟩ :=
        (bound.symbols container symbol declared).members place members
      cases same.symm.trans present
      have operation := (bound.locals place scope present).names (name, id)
        (Dictionary.mem_entries_of_get? held)
      rw [interface] at operation
      rw [show (table.symbol id).kind = .operation from operation]
      simp

theorem memberPath_param (bound : table.Bound decorators) (names : List String)
    (found : table.memberPath? start names = some id)
    (param : (table.symbol id).kind = .templateParameter) : names = [] ∧ id = start := by
  induction names generalizing start with
  | nil => exact ⟨rfl, (Option.some.inj found).symm⟩
  | cons name rest ih =>
    obtain ⟨member, first, last⟩ := Option.bind_eq_some_iff.mp found
    obtain ⟨rfl, rfl⟩ := ih last
    exact absurd param (bound.member_other first)

/-- The local scopes around an outer scope are those of interfaces. -/
private theorem wayOut_outer (outer : table.Outer scope) :
    ∀ id ∈ (table.wayOutWithin steps scope).1, ∃ found owner, table.local? id = some found ∧
      found.kind = .interface owner := by
  cases scope with
  | space node =>
    rw [wayOutWithin]
    exact nofun
  | localScope place =>
    obtain ⟨found, owner, node, present, interface, parent⟩ := outer
    have only : (table.wayOutWithin steps (.localScope place)).1 = [place] := by
      cases steps with
      | zero => rfl
      | succ steps => simp [wayOutWithin, present, parent]
    rw [only]
    intro id member
    rw [List.mem_singleton.mp member]
    exact ⟨found, owner, present, interface⟩

/-- The local scopes around the body of a declaration are those of interfaces and
of its own parameters. -/
private theorem wayOut_body (bound : table.Bound decorators)
    (kind : (table.symbol owner).kind ≠ .space ∧ (table.symbol owner).kind ≠ .templateParameter)
    (steps : Nat) : ∀ id ∈ (table.wayOutWithin steps (table.symbol owner).bodyScope).1,
      ∃ found, table.local? id = some found ∧
        (found.kind = .templateParameters owner ∨ ∃ other, found.kind = .interface other) := by
  have symbol := bound.of_kind kind.1
  unfold Symbol.bodyScope
  split
  · rename_i scope own
    obtain ⟨found, present, params⟩ := symbol.params scope own
    have around := (bound.locals scope found present).around
    intro id member
    have here : id = scope ∨ ∃ found other, table.local? id = some found ∧
        found.kind = .interface other := by
      cases steps with
      | zero => exact .inl (List.mem_singleton.mp member)
      | succ steps =>
        simp only [wayOutWithin, present, List.mem_cons] at member
        exact member.imp_right (wayOut_outer around id)
    rcases here with rfl | ⟨outside, other, held, interface⟩
    · exact ⟨found, present, .inl params⟩
    · exact ⟨outside, held, .inr ⟨other, interface⟩⟩
  · intro id member
    obtain ⟨found, other, present, interface⟩ := wayOut_outer (symbol.around kind.2) id member
    exact ⟨found, present, .inr ⟨other, interface⟩⟩

/-- What `using` brings in is a member of a namespace. -/
private theorem member_of_using {node : NamespaceId}
    (found : table.tree.lookupViaUsings node name accept = .found id) :
    ∃ space, table.tree.member? space name = some id := by
  unfold NamespaceTree.lookupViaUsings Resolution.ofCandidates at found
  split at found
  · cases found
  · rename_i space only same
    cases found
    exact ⟨space, NamespaceTree.member?_of_candidate (by rw [same]; exact List.mem_singleton_self _)⟩
  · cases found

/-- A template parameter that is found from the body of a declaration is one of its own. -/
theorem lookup_param (bound : table.Bound decorators) {owner : SymbolId}
    (kind : (table.symbol owner).kind ≠ .space ∧ (table.symbol owner).kind ≠ .templateParameter)
    (found : table.lookup (table.symbol owner).bodyScope name = .found id)
    (param : (table.symbol id).kind = .templateParameter) :
    id ∈ (table.symbol owner).templateParams := by
  unfold lookup lookupWhere at found
  dsimp only at found
  split at found
  · rename_i first accepted
    cases found
    obtain ⟨scope, chained, here⟩ := List.mem_filterMap.mp (List.mem_of_find?_eq_some accepted)
    rcases List.mem_append.mp chained with inner | outer
    · obtain ⟨place, around, rfl⟩ := List.mem_map.mp inner
      obtain ⟨scope, present, kinds⟩ := bound.wayOut_body kind _ place around
      obtain ⟨held, same, named⟩ := Option.bind_eq_some_iff.mp here
      cases same.symm.trans present
      have admitted := (bound.locals place scope present).names (name, id)
        (Dictionary.mem_entries_of_get? named)
      rcases kinds with own | ⟨other, interface⟩
      · rw [own] at admitted
        exact admitted
      · rw [interface] at admitted
        cases (show (table.symbol id).kind = .operation from admitted).symm.trans param
    · obtain ⟨node, _, rfl⟩ := List.mem_map.mp outer
      exact absurd param (bound.member_of_space here)
  · obtain ⟨space, member⟩ := member_of_using found
    exact absurd param (bound.member_of_space member)

end SymbolTable.Bound

end Idl
