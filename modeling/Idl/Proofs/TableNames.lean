import Idl.Proofs.BoundSymbols
import Mathlib.Logic.Relation

/-! The names of a symbol table. Each scope holds a name for one symbol at most, the
first that asked for it, and the symbols that came too late are marked as shadowed.
What one call can do to the names is said once, by what the table gains; that the
marks and the names agree, in whatever order the calls come, follows from it. -/
namespace Idl

theorem Dictionary.entries_insert [DecidableEq κ] {d : Dictionary κ ν} (free : d.get? key = none)
    (value : ν) : (d.insert key value).entries = d.entries ++ [(key, value)] := by
  obtain ⟨entries⟩ := d
  replace free : find? key entries = none := free
  show place key value entries = entries ++ [(key, value)]
  induction entries with
  | nil => rfl
  | cons entry rest ih =>
    obtain ⟨k, v⟩ := entry
    simp only [find?] at free
    split at free
    · cases free
    · rename_i other
      simp only [place, if_neg other, List.cons_append, ih free]

namespace SymbolTable
variable {table after : SymbolTable}

/-! ### Views of a table -/

/-- The names of a scope, with the symbols that hold them. A scope that does not exist has none. -/
def names (table : SymbolTable) : Scope → Dictionary String SymbolId
  | .space node => ((table.tree.node? node).map NamespaceNode.members).getD {}
  | .localScope id => ((table.local? id).map LocalScope.names).getD {}

def HasScope (table : SymbolTable) : Scope → Prop
  | .space node => (table.tree.node? node).isSome
  | .localScope id => (table.local? id).isSome

/-- The symbol of a namespace and the way to its parent. -/
def spaceFrame? (table : SymbolTable) (id : NamespaceId) :
    Option (SymbolId × Option (NamespaceId × String)) :=
  (table.tree.node? id).map fun node => (node.symbol, node.parent)

/-- What a local scope is for and the scope around it. -/
def localFrame? (table : SymbolTable) (id : LocalScopeId) : Option (LocalScopeKind × Scope) :=
  (table.local? id).map fun scope => (scope.kind, scope.parent)

theorem spaceFrame?_of_node {id : NamespaceId} (present : table.tree.node? id = some node) :
    table.spaceFrame? id = some (node.symbol, node.parent) := by
  rw [spaceFrame?, present]
  rfl

theorem binding?_eq (table : SymbolTable) (scope : Scope) (name : String) :
    table.binding? scope name = (table.names scope).get? name := by
  cases scope with
  | space node =>
    simp only [binding?, NamespaceTree.member?, names]
    cases table.tree.node? node <;> rfl
  | localScope id =>
    simp only [binding?, names]
    cases table.local? id <;> rfl

/-- Two tables have the same scopes, each in the same place. -/
structure SameScopes (before after : SymbolTable) : Prop where
  spaces : after.spaceFrame? = before.spaceFrame?
  locals : after.localFrame? = before.localFrame?

theorem SameScopes.of_eq (tree : after.tree = table.tree) (locals : after.locals = table.locals) :
    table.SameScopes after where
  spaces := by
    funext id
    simp [spaceFrame?, tree]
  locals := by
    funext id
    simp [localFrame?, local?, locals]

theorem SameScopes.trans {first : SymbolTable} (one : first.SameScopes second)
    (two : second.SameScopes third) : first.SameScopes third :=
  ⟨two.spaces.trans one.spaces, two.locals.trans one.locals⟩

theorem SameScopes.hasScope (same : table.SameScopes after) (scope : Scope) :
    after.HasScope scope ↔ table.HasScope scope := by
  cases scope with
  | space node =>
    have frame := congrArg Option.isSome (congrFun same.spaces node)
    simp only [spaceFrame?, Option.isSome_map] at frame
    rw [HasScope, HasScope, frame]
  | localScope id =>
    have frame := congrArg Option.isSome (congrFun same.locals id)
    simp only [localFrame?, Option.isSome_map] at frame
    rw [HasScope, HasScope, frame]

theorem names_of_eq (tree : after.tree = table.tree) (locals : after.locals = table.locals) :
    after.names = table.names := by
  funext scope
  cases scope <;> simp [names, local?, tree, locals]

@[simp] theorem shadowedNamespaces_modifySymbol (table : SymbolTable) (id : SymbolId)
    (change : Symbol → Symbol) :
    (table.modifySymbol id change).shadowedNamespaces = table.shadowedNamespaces := by
  unfold modifySymbol
  split <;> rfl

@[simp] theorem shadowedNamespaces_enlist (table : SymbolTable) (scope : Scope) (name : String)
    (kind : SymbolKind) (declaration : Declaration) :
    (table.enlist scope name kind declaration).shadowedNamespaces = table.shadowedNamespaces :=
  shadowedNamespaces_modifySymbol ..

/-! ### Taking a name -/

/-- A name is taken in a scope where it is free, and nothing else changes. -/
structure Takes (before after : SymbolTable) (scope : Scope) (name : String) (id : SymbolId) :
    Prop where
  free : (before.names scope).get? name = none
  names : ∀ place, after.names place =
    if place = scope then (before.names scope).insert name id else before.names place
  symbols : after.symbols = before.symbols
  scopes : before.SameScopes after
  shadowed : after.shadowedNamespaces = before.shadowedNamespaces

/-- In a scope that exists a name is taken unless it has a holder, which is then told. -/
theorem bind_cases (held : table.HasScope scope) (name : String) (id : SymbolId) :
    (∃ after, table.bind scope name id = .ok after ∧ table.Takes after scope name id) ∨
    ∃ holder, table.bind scope name id = .error holder ∧
      (table.names scope).get? name = some holder := by
  cases scope with
  | space node =>
    obtain ⟨found, present⟩ := Option.isSome_iff_exists.mp held
    have here : table.names (.space node) = found.members := by simp [names, present]
    simp only [bind, NamespaceTree.insert, present]
    cases taken : found.members.get? name with
    | some holder => exact .inr ⟨holder, rfl, by rw [here, taken]⟩
    | none =>
      refine .inl ⟨_, rfl, by rw [here, taken], fun place => ?_, rfl, ⟨?_, rfl⟩, rfl⟩
      · cases place with
        | space other =>
          simp only [names, NamespaceTree.node?_modify, Scope.space.injEq]
          split
          · simp [present]
          · rfl
        | localScope other => rw [if_neg (by simp)]; rfl
      · funext other
        simp only [spaceFrame?, NamespaceTree.node?_modify]
        split
        · rename_i same
          simp [same, present]
        · rfl
  | localScope place =>
    obtain ⟨found, present⟩ := Option.isSome_iff_exists.mp held
    have here : table.names (.localScope place) = found.names := by simp [names, present]
    simp only [bind, present]
    cases taken : found.names.get? name with
    | some holder => exact .inr ⟨holder, rfl, by rw [here, taken]⟩
    | none =>
      refine .inl ⟨_, rfl, by rw [here, taken], fun other => ?_, rfl, ⟨rfl, ?_⟩, rfl⟩
      · cases other with
        | space other => rw [if_neg (by simp)]; rfl
        | localScope other =>
          simp only [names, local?_set present, Scope.localScope.injEq]
          split
          · simp [present]
          · rfl
      · funext other
        simp only [localFrame?, local?_set present]
        split
        · rename_i same
          simp [same, present]
        · rfl

/-! ### One more symbol -/

/-- A table with one more symbol, the last one. It has its name in its scope unless the name was
taken before, and is shadowed if it was. -/
structure Gains (before after : SymbolTable) (symbol : Symbol) : Prop where
  held : before.HasScope symbol.parent
  symbols : ∀ id, after.get? id = if id = ⟨before.size⟩ then some symbol else before.get? id
  taken : symbol.shadowed = ((before.names symbol.parent).get? symbol.name).isSome
  names : ∀ scope, after.names scope =
    if scope = symbol.parent ∧ symbol.shadowed = false then
      (before.names scope).insert symbol.name ⟨before.size⟩
    else before.names scope

/-- A declaration that was marked is told as one that lost its name. -/
def Tells (declared : Declared) (id : SymbolId) (shadowed : Bool) : Prop :=
  (shadowed = false → declared = .new id) ∧ (shadowed = true → ∃ holder, declared = .duplicate id holder)

theorem get?_of_symbols (same : after.symbols = table.symbols) (id : SymbolId) :
    after.get? id = table.get? id := by
  rw [get?, get?, same]

/-- A new symbol asks for its name, and is marked where it does not get it. -/
private theorem bind_gains {fresh : SymbolTable} {symbol : Symbol}
    (symbols : ∀ id, fresh.get? id = if id = ⟨table.size⟩ then some symbol else table.get? id)
    (unmarked : symbol.shadowed = false) (names : fresh.names = table.names)
    (held : table.HasScope symbol.parent) (kept : fresh.HasScope symbol.parent) :
    (∃ after, fresh.bind symbol.parent symbol.name ⟨table.size⟩ = .ok after ∧
      table.Gains after symbol ∧ fresh.SameScopes after ∧
      after.shadowedNamespaces = fresh.shadowedNamespaces) ∨
    ∃ holder, fresh.bind symbol.parent symbol.name ⟨table.size⟩ = .error holder ∧
      table.Gains (fresh.modifySymbol ⟨table.size⟩ fun s => { s with shadowed := true })
        { symbol with shadowed := true } := by
  rcases bind_cases kept symbol.name ⟨table.size⟩ with ⟨after, ran, takes⟩ | ⟨holder, ran, taken⟩
  · have free := takes.free
    rw [names] at free
    refine .inl ⟨after, ran, ⟨held, fun id => ?_, by simp [free, unmarked], fun place => ?_⟩,
      takes.scopes, takes.shadowed⟩
    · rw [get?_of_symbols takes.symbols, symbols]
    · simp only [takes.names, names, unmarked, and_true]
      split
      · rename_i here
        rw [here]
      · rfl
  · rw [names] at taken
    refine .inr ⟨holder, ran, held, fun id => ?_, by simp [taken], fun place => ?_⟩
    · rw [get?_modifySymbol, symbols, symbols]
      split
      · simp
      · rfl
    · rw [names_of_eq (tree_modifySymbol ..) (locals_modifySymbol ..), names]
      simp

/-- Declaring a name makes a symbol, in the scopes that there are. -/
theorem declare_gains {scope : Scope} (held : table.HasScope scope) (name : String)
    (kind : SymbolKind) (declaration : Declaration) :
    ∃ shadowed,
      Tells (table.declare scope name kind declaration).1 ⟨table.size⟩ shadowed ∧
      table.Gains (table.declare scope name kind declaration).2
        { id := ⟨table.size⟩, name, kind, parent := scope, shadowed, declarations := [declaration] } ∧
      table.SameScopes (table.declare scope name kind declaration).2 ∧
      (table.declare scope name kind declaration).2.shadowedNamespaces =
        table.shadowedNamespaces := by
  have symbols := table.get?_enlist scope name kind declaration
  have tree := table.tree_enlist scope name kind declaration
  have locals := table.locals_enlist scope name kind declaration
  have losers := table.shadowedNamespaces_enlist scope name kind declaration
  simp only [declare_eq]
  generalize table.enlist scope name kind declaration = fresh at symbols tree locals losers ⊢
  have same : table.SameScopes fresh := .of_eq tree locals
  rcases bind_gains symbols rfl (names_of_eq tree locals) held ((same.hasScope scope).mpr held) with
    ⟨after, ran, gains, scopes, kept⟩ | ⟨holder, ran, gains⟩
  · rw [ran]
    exact ⟨false, ⟨fun _ => rfl, by simp⟩, gains, same.trans scopes, kept.trans losers⟩
  · rw [ran]
    exact ⟨true, ⟨by simp, fun _ => ⟨holder, rfl⟩⟩, gains,
      same.trans (.of_eq (tree_modifySymbol ..) (locals_modifySymbol ..)),
      (shadowedNamespaces_modifySymbol ..).trans losers⟩

/-- A table with one more namespace, which is remembered if it lost its name. -/
structure GainsSpace (before after : SymbolTable) (parent : NamespaceId) (symbol : Symbol) :
    Prop where
  gains : before.Gains after symbol
  around : symbol.parent = .space parent
  kind : symbol.kind = .space
  node : symbol.node = some ⟨before.tree.size⟩
  spaces : ∀ id, after.spaceFrame? id = if id = ⟨before.tree.size⟩ then
    some (⟨before.size⟩, some (parent, symbol.name)) else before.spaceFrame? id
  locals : after.localFrame? = before.localFrame?
  shadowed : after.shadowedNamespaces = if symbol.shadowed then
    before.shadowedNamespaces.insert (parent, symbol.name) ⟨before.size⟩
    else before.shadowedNamespaces

theorem node?_addChild (tree : NamespaceTree) (parent : NamespaceId) (name : String)
    (symbol : SymbolId) (id : NamespaceId) : (tree.addChild parent name symbol).2.node? id =
      if id = ⟨tree.size⟩ then some { symbol, parent := some (parent, name) } else tree.node? id := by
  obtain ⟨index⟩ := id
  simp only [NamespaceTree.addChild, NamespaceTree.node?, NamespaceTree.size, Array.getElem?_push,
    NamespaceId.mk.injEq]

theorem node?_size (tree : NamespaceTree) : tree.node? ⟨tree.size⟩ = none := by
  simp [NamespaceTree.node?, NamespaceTree.size]

/-- The table with a namespace that has not asked for its name yet. -/
def enlistSpace (table : SymbolTable) (parent : NamespaceId) (name : String)
    (declaration : Option Declaration) : SymbolTable :=
  ({ (table.push name .space (.space parent)).2 with
    tree := (table.tree.addChild parent name ⟨table.size⟩).2 }.modifySymbol ⟨table.size⟩ fun s =>
      { s with node := some ⟨table.tree.size⟩ }).addDeclaration ⟨table.size⟩ declaration

theorem newNamespace_eq (table : SymbolTable) : table.newNamespace parent name declaration =
      let fresh := table.enlistSpace parent name declaration
      match fresh.bind (.space parent) name ⟨table.size⟩ with
      | .ok after => (.new ⟨table.size⟩, after)
      | .error existing =>
        let marked := fresh.modifySymbol ⟨table.size⟩ fun s => { s with shadowed := true }
        (.duplicate ⟨table.size⟩ existing, { marked with
          shadowedNamespaces := marked.shadowedNamespaces.insert (parent, name) ⟨table.size⟩ }) := rfl

section
variable (table : SymbolTable) (parent : NamespaceId) (name : String) (declaration : Option Declaration)

theorem tree_enlistSpace : (table.enlistSpace parent name declaration).tree =
    (table.tree.addChild parent name ⟨table.size⟩).2 := by
  rw [enlistSpace, addDeclaration, tree_modifySymbol, tree_modifySymbol]

theorem locals_enlistSpace : (table.enlistSpace parent name declaration).locals = table.locals := by
  rw [enlistSpace, addDeclaration, locals_modifySymbol, locals_modifySymbol]
  rfl

theorem shadowedNamespaces_enlistSpace : (table.enlistSpace parent name declaration).shadowedNamespaces =
    table.shadowedNamespaces := by
  rw [enlistSpace, addDeclaration, shadowedNamespaces_modifySymbol, shadowedNamespaces_modifySymbol]
  rfl

theorem get?_enlistSpace (id : SymbolId) :
    (table.enlistSpace parent name declaration).get? id = if id = ⟨table.size⟩ then
      some { id := ⟨table.size⟩, name, kind := .space, parent := .space parent,
             node := some ⟨table.tree.size⟩, declarations := declaration.toList }
      else table.get? id := by
  have pushed := table.get?_push name .space (.space parent)
  rw [enlistSpace, addDeclaration, get?_modifySymbol, get?_modifySymbol, get?_modifySymbol]
  split
  · rw [if_pos rfl]
    show Option.map _ (Option.map _ ((table.push name .space (.space parent)).2.get? _)) = _
    rw [pushed, if_pos rfl]
    rfl
  · rename_i other
    show (table.push name .space (.space parent)).2.get? id = _
    rw [pushed, if_neg other]

theorem names_enlistSpace : (table.enlistSpace parent name declaration).names = table.names := by
  funext scope
  cases scope with
  | space node =>
    simp only [names, tree_enlistSpace, node?_addChild]
    -- a new namespace starts without names
    split
    · rename_i new
      simp [new, node?_size]
    · rfl
  | localScope id => simp only [names, local?, locals_enlistSpace]

end

theorem newNamespace_gains {parent : NamespaceId} (held : table.HasScope (.space parent)) :
    ∃ shadowed,
      Tells (table.newNamespace parent name declaration).1 ⟨table.size⟩ shadowed ∧
      table.GainsSpace (table.newNamespace parent name declaration).2 parent
        { id := ⟨table.size⟩, name, kind := .space, parent := .space parent, shadowed,
          node := some ⟨table.tree.size⟩, declarations := declaration.toList } := by
  have symbols := table.get?_enlistSpace parent name declaration
  have tree := table.tree_enlistSpace parent name declaration
  have locals := table.locals_enlistSpace parent name declaration
  have losers := table.shadowedNamespaces_enlistSpace parent name declaration
  have names := table.names_enlistSpace parent name declaration
  simp only [newNamespace_eq]
  generalize table.enlistSpace parent name declaration = fresh at symbols tree locals losers names ⊢
  have spaces (id : NamespaceId) : fresh.spaceFrame? id = if id = ⟨table.tree.size⟩ then
      some (⟨table.size⟩, some (parent, name)) else table.spaceFrame? id := by
    rw [spaceFrame?, tree, node?_addChild]
    split <;> rfl
  have frames : fresh.localFrame? = table.localFrame? := by
    funext id
    rw [localFrame?, localFrame?, local?, local?, locals]
  have kept : fresh.HasScope (.space parent) := by
    rw [HasScope, tree, node?_addChild]
    split
    · rfl
    · exact held
  rcases bind_gains symbols rfl names held kept with
    ⟨after, ran, gains, scopes, same⟩ | ⟨holder, ran, gains⟩
  · rw [ran]
    refine ⟨false, ⟨fun _ => rfl, by simp⟩, gains, rfl, rfl, rfl, ?_, scopes.locals.trans frames,
      same.trans losers⟩
    rw [scopes.spaces]
    exact spaces
  · rw [ran]
    have marked : fresh.SameScopes (fresh.modifySymbol ⟨table.size⟩
      fun s => { s with shadowed := true }) := .of_eq (tree_modifySymbol ..) (locals_modifySymbol ..)
    refine ⟨true, ⟨by simp, fun _ => ⟨holder, rfl⟩⟩,
      ⟨gains.held, gains.symbols, gains.taken, gains.names⟩, rfl, rfl, rfl, ?_,
      marked.locals.trans frames, ?_⟩
    · intro id
      exact (congrFun marked.spaces id).trans (spaces id)
    · simp [losers]

end SymbolTable

end Idl
