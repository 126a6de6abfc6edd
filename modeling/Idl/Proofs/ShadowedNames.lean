import Idl.Proofs.TableNames

/-! A symbol has its name in its scope, or it is shadowed, and never both. Whatever
is declared, opened or brought in, and in whatever order, the first symbol that asked
for a name in a scope holds it for ever, and no way of looking a symbol up gives one
that is shadowed. A call adds one symbol, or adds a namespace with its node, or leaves
the names as they are; the invariant is kept in these three cases. -/
namespace Idl
variable {id : SymbolId}

/-- The symbols that a lookup gives. -/
def Resolution.symbols : Resolution → List SymbolId
  | .found id => [id]
  | .ambiguous candidates => candidates.map (·.2)
  | .notFound => []

theorem Resolution.symbols_ofCandidates (candidates : List (NamespaceId × SymbolId)) :
    (Resolution.ofCandidates candidates).symbols = candidates.map (·.2) := by
  unfold ofCandidates
  split <;> rfl

namespace SymbolTable
variable {id : SymbolId} {symbol : Symbol}
variable {table : SymbolTable}

/-! ### What one call does -/

/-- The calls by which a table is made, on scopes, symbols and namespaces that it has. -/
inductive Call (table : SymbolTable) : SymbolTable → Prop where
  | declare {scope : Scope} {kind : SymbolKind} (held : table.HasScope scope)
      (other : kind ≠ .space) (name : String) (declaration : Declaration) :
      Call table (table.declare scope name kind declaration).2
  | declareNamespace {parent : NamespaceId} (held : table.HasScope (.space parent))
      (name : String) (declaration : Option Declaration) :
      Call table (table.declareNamespace parent name declaration).2
  | createLocalScope {kind : LocalScopeKind} {parent : Scope}
      (owned : (table.get? kind.owner).isSome) (held : table.HasScope parent) :
      Call table (table.createLocalScope kind parent).2
  | addUsing {user target : NamespaceId} (held : table.HasScope (.space user))
      (brought : table.HasScope (.space target)) : Call table (table.addUsing user target)

/-- What never changes in a symbol once it has been declared. -/
structure Core where
  name : String
  kind : SymbolKind
  parent : Scope
  shadowed : Bool
  node : Option NamespaceId

def core (symbol : Symbol) : Core :=
  { name := symbol.name, kind := symbol.kind, parent := symbol.parent, shadowed := symbol.shadowed,
    node := symbol.node }

/-- The symbols are the same but for what they hold, and the names and namespaces are the same. -/
structure Amends (before after : SymbolTable) : Prop where
  symbols : ∀ id, (after.get? id).map core = (before.get? id).map core
  names : after.names = before.names
  spaces : after.spaceFrame? = before.spaceFrame?
  shadowed : after.shadowedNamespaces = before.shadowedNamespaces

theorem Amends.earlier (amends : table.Amends after) (found : after.get? id = some later) :
    ∃ earlier, table.get? id = some earlier ∧ core earlier = core later := by
  have same := amends.symbols id
  rw [found] at same
  exact Option.map_eq_some_iff.mp same.symm

theorem Amends.later (amends : table.Amends after) {earlier : Symbol}
    (found : table.get? id = some earlier) :
    ∃ later, after.get? id = some later ∧ core later = core earlier := by
  have same := amends.symbols id
  rw [found] at same
  exact Option.map_eq_some_iff.mp same

/-- A change of what a symbol holds. -/
theorem Amends.modify (id : SymbolId) (keeps : ∀ s, core (change s) = core s) :
    table.Amends (table.modifySymbol id change) where
  symbols := by
    intro other
    rw [get?_modifySymbol]
    split
    · rename_i same
      rw [same, Option.map_map]
      exact congrArg (fun f => Option.map f (table.get? id)) (funext keeps)
    · rfl
  names := names_of_eq (tree_modifySymbol ..) (locals_modifySymbol ..)
  spaces := (SameScopes.of_eq (tree_modifySymbol ..) (locals_modifySymbol ..)).spaces
  shadowed := shadowedNamespaces_modifySymbol ..

theorem Amends.trans {first : SymbolTable} (one : first.Amends second) (two : second.Amends third) :
    first.Amends third where
  symbols := fun id => (two.symbols id).trans (one.symbols id)
  names := two.names.trans one.names
  spaces := two.spaces.trans one.spaces
  shadowed := two.shadowed.trans one.shadowed

/-- A local scope starts without names. -/
theorem Amends.pushLocal (kind : LocalScopeKind) (parent : Scope) :
    table.Amends { table with locals := table.locals.push { kind, parent } } where
  symbols := fun _ => rfl
  names := by
    funext scope
    cases scope with
    | space node => rfl
    | localScope id =>
      simp only [SymbolTable.names, local?_push]
      split
      · rename_i new
        simp [new, local?]
      · rfl
  spaces := rfl
  shadowed := rfl

theorem Amends.createLocalScope (kind : LocalScopeKind) (parent : Scope) :
    table.Amends (table.createLocalScope kind parent).2 := by
  cases kind with
  | templateParameters owner =>
    exact (Amends.pushLocal (.templateParameters owner) parent).trans (.modify _ fun _ => rfl)
  | interface owner =>
    exact (Amends.pushLocal (.interface owner) parent).trans (.modify _ fun _ => rfl)

theorem Amends.addUsing (user target : NamespaceId) : table.Amends (table.addUsing user target) where
  symbols := fun _ => rfl
  names := by
    funext scope
    cases scope with
    | space node =>
      simp only [SymbolTable.names, SymbolTable.addUsing, NamespaceTree.addUsing,
        NamespaceTree.node?_modify]
      split
      · rename_i same
        rw [same]
        cases table.tree.node? user with
        | none => rfl
        | some found =>
          simp only [Option.map_some, Option.getD_some]
          split <;> rfl
      · rfl
    | localScope id => rfl
  spaces := by
    funext id
    simp only [spaceFrame?, SymbolTable.addUsing, NamespaceTree.addUsing, NamespaceTree.node?_modify]
    split
    · rename_i same
      rw [same]
      cases table.tree.node? user with
      | none => rfl
      | some found =>
        simp only [Option.map_some]
        split <;> rfl
    · rfl
  shadowed := rfl

/-- A namespace is shadowed only by something else, and only the first time. -/
def FirstLoser (table : SymbolTable) (parent : NamespaceId) (name : String) : Prop :=
  table.shadowedNamespaces.get? (parent, name) = none ∧
    ∃ holder found, (table.names (.space parent)).get? name = some holder ∧
      table.get? holder = some found ∧ found.kind ≠ .space

/-- A call adds a symbol, adds a namespace, or leaves the names as they are. -/
inductive Outcome (table after : SymbolTable) : Prop where
  | symbol {symbol : Symbol} (other : symbol.kind ≠ .space) (leaf : symbol.node = none)
      (gains : table.Gains after symbol) (scopes : table.SameScopes after)
      (shadowed : after.shadowedNamespaces = table.shadowedNamespaces)
  | space {parent : NamespaceId} {symbol : Symbol} (gains : table.GainsSpace after parent symbol)
      (first : symbol.shadowed = true → table.FirstLoser parent symbol.name)
  | same (amends : table.Amends after)

/-- A namespace is declared anew unless one has the name, or has lost it before. -/
theorem declareNamespace_cases (table : SymbolTable) (parent : NamespaceId) (name : String)
    (declaration : Option Declaration) :
    (∃ id, (table.declareNamespace parent name declaration).2 =
      table.addDeclaration id declaration) ∨
    (table.declareNamespace parent name declaration).2 =
        (table.newNamespace parent name declaration).2 ∧
      ((table.names (.space parent)).get? name = none ∨ table.FirstLoser parent name) := by
  have holder : table.tree.member? parent name = (table.names (.space parent)).get? name :=
    table.binding?_eq (.space parent) name
  unfold declareNamespace
  rw [holder]
  split
  · rename_i free
    exact .inr ⟨rfl, .inl free⟩
  · rename_i existing taken
    split
    · exact .inl ⟨existing, rfl⟩
    · rename_i other
      split
      · rename_i loser _
        exact .inl ⟨loser, rfl⟩
      · rename_i none
        exact .inr ⟨rfl, .inr ⟨none, existing, _, taken, get?_of_kind other, other⟩⟩

theorem GainsSpace.outcome (gains : table.GainsSpace after parent symbol)
    (first : (table.names (.space parent)).get? symbol.name = none ∨
      table.FirstLoser parent symbol.name) : table.Outcome after := by
  refine .space gains fun marked => first.resolve_left fun free => ?_
  have taken := gains.gains.taken
  rw [marked, gains.around] at taken
  simp [free] at taken

theorem declareNamespace_outcome (held : table.HasScope (.space parent)) (name : String)
    (declaration : Option Declaration) :
    table.Outcome (table.declareNamespace parent name declaration).2 := by
  rcases table.declareNamespace_cases parent name declaration with ⟨id, same⟩ | ⟨same, first⟩
  · rw [same]
    exact .same (.modify id fun _ => rfl)
  · rw [same]
    obtain ⟨shadowed, _, gains⟩ := newNamespace_gains held
    exact gains.outcome first

theorem Call.outcome (call : table.Call after) : table.Outcome after := by
  cases call with
  | @declare scope kind held other name declaration =>
    obtain ⟨shadowed, _, gains, scopes, losers⟩ := declare_gains held name kind declaration
    exact .symbol other rfl gains scopes losers
  | declareNamespace held name declaration => exact declareNamespace_outcome held name declaration
  | createLocalScope => exact .same (.createLocalScope ..)
  | addUsing => exact .same (.addUsing ..)

/-! ### The invariant -/

/-- The names, the marks and the tree of a table agree. -/
structure Coherent (table : SymbolTable) : Prop where
  global : ∃ symbol, table.get? global = some symbol ∧ symbol.shadowed = false
  entries : ∀ scope, ∀ entry ∈ (table.names scope).entries, ∃ symbol,
    table.get? entry.2 = some symbol ∧ symbol.name = entry.1 ∧ symbol.parent = scope ∧
      symbol.shadowed = false
  settled : ∀ id symbol, table.get? id = some symbol → id ≠ SymbolTable.global →
    symbol.shadowed = false → (table.names symbol.parent).get? symbol.name = some id
  unlisted : ∀ scope, SymbolTable.global ∉ (table.names scope).values
  ordered : ∀ scope, (table.names scope).values.Pairwise fun one two => one.index < two.index
  losers : ∀ id symbol, table.get? id = some symbol → symbol.kind = .space →
    symbol.shadowed = true → ∃ parent, symbol.parent = .space parent ∧
      table.shadowedNamespaces.get? (parent, symbol.name) = some id ∧
      ∃ holder found, (table.names (.space parent)).get? symbol.name = some holder ∧
        table.get? holder = some found ∧ found.kind ≠ .space
  nodes : ∀ node id way, table.spaceFrame? node = some (id, way) → ∃ symbol,
    table.get? id = some symbol ∧ symbol.node = some node ∧
      (node = NamespaceTree.root ∧ id = SymbolTable.global ∧ way = none ∨
        ∃ parent, symbol.parent = .space parent ∧ way = some (parent, symbol.name) ∧
          parent.index < node.index)
  spaces : ∀ id symbol, table.get? id = some symbol → symbol.kind = .space →
    ∃ node way, symbol.node = some node ∧ table.spaceFrame? node = some (id, way)
  leaves : ∀ id symbol, table.get? id = some symbol → symbol.kind ≠ .space → symbol.node = none

theorem index_lt_size (found : table.get? id = some symbol) : id.index < table.size :=
  (Array.getElem?_eq_some_iff.mp found).1

theorem ne_size (found : table.get? id = some symbol) : id ≠ ⟨table.size⟩ := by
  rintro rfl
  exact Nat.lt_irrefl _ (index_lt_size found)

namespace Gains

variable (gains : table.Gains after symbol)
include gains

theorem kept (present : table.get? id = some found) : after.get? id = some found := by
  rw [gains.symbols, if_neg (ne_size present), present]

theorem new : after.get? ⟨table.size⟩ = some symbol := by
  rw [gains.symbols, if_pos rfl]

theorem free (unmarked : symbol.shadowed = false) :
    (table.names symbol.parent).get? symbol.name = none := by
  have taken := gains.taken
  rw [unmarked] at taken
  simpa using taken.symm

/-- A name that has a holder keeps it. -/
theorem holds (held : (table.names scope).get? name = some id) :
    (after.names scope).get? name = some id := by
  rw [gains.names]
  split
  · rename_i here
    obtain ⟨rfl, unmarked⟩ := here
    rw [Dictionary.get?_insert_of_ne, held]
    rintro rfl
    cases (gains.free unmarked).symm.trans held
  · exact held

theorem entries (member : entry ∈ (after.names scope).entries) :
    entry ∈ (table.names scope).entries ∨
      scope = symbol.parent ∧ symbol.shadowed = false ∧ entry = (symbol.name, ⟨table.size⟩) := by
  rw [gains.names] at member
  split at member
  · rename_i here
    exact (Dictionary.mem_entries_insert member).imp_right fun same => ⟨here.1, here.2, same⟩
  · exact .inl member

end Gains

namespace Coherent

section
variable (coherent : table.Coherent)
include coherent

/-- Every holder of a name has been declared. -/
theorem values_lt (scope : Scope) : ∀ id ∈ (table.names scope).values, id.index < table.size := by
  intro id member
  obtain ⟨entry, listed, rfl⟩ := List.mem_map.mp member
  obtain ⟨symbol, found, _⟩ := coherent.entries scope entry listed
  exact index_lt_size found

section
variable (gains : table.Gains after symbol)
include gains

theorem gain_ordered (scope : Scope) :
    (after.names scope).values.Pairwise fun one two => one.index < two.index := by
  rw [gains.names]
  split
  · rename_i here
    obtain ⟨rfl, unmarked⟩ := here
    rw [Dictionary.values, Dictionary.entries_insert (gains.free unmarked), List.map_append,
      List.pairwise_append]
    refine ⟨coherent.ordered symbol.parent, by simp, fun one early two late => ?_⟩
    obtain rfl : two = ⟨table.size⟩ := by simpa using late
    exact coherent.values_lt symbol.parent one early
  · exact coherent.ordered scope

theorem gain_unlisted (scope : Scope) :
    SymbolTable.global ∉ (after.names scope).values := by
  intro listed
  obtain ⟨entry, member, same⟩ := List.mem_map.mp listed
  rcases gains.entries member with old | ⟨_, _, rfl⟩
  · exact coherent.unlisted scope (List.mem_map.mpr ⟨entry, old, same⟩)
  · obtain ⟨found, present, _⟩ := coherent.global
    exact ne_size present same.symm

theorem gain_settled (present : after.get? id = some found)
    (other : id ≠ SymbolTable.global) (unmarked : found.shadowed = false) :
    (after.names found.parent).get? found.name = some id := by
  rw [gains.symbols] at present
  split at present
  · rename_i new
    cases present
    rw [gains.names, if_pos ⟨rfl, unmarked⟩, Dictionary.get?_insert_self, new]
  · exact gains.holds (coherent.settled id found present other unmarked)

theorem gain_entries (member : entry ∈ (after.names scope).entries) :
    ∃ symbol, after.get? entry.2 = some symbol ∧ symbol.name = entry.1 ∧ symbol.parent = scope ∧
      symbol.shadowed = false := by
  rcases gains.entries member with old | ⟨rfl, unmarked, rfl⟩
  · obtain ⟨found, present, facts⟩ := coherent.entries scope entry old
    exact ⟨found, gains.kept present, facts⟩
  · exact ⟨symbol, gains.new, rfl, rfl, unmarked⟩

/-- What is known of shadowed namespaces stays true of the old ones. -/
theorem gain_losers (present : table.get? id = some found)
    (kind : found.kind = .space) (marked : found.shadowed = true)
    (kept : ∀ parent, table.shadowedNamespaces.get? (parent, found.name) = some id →
      found.parent = .space parent →
      after.shadowedNamespaces.get? (parent, found.name) = some id) :
    ∃ parent, found.parent = .space parent ∧
      after.shadowedNamespaces.get? (parent, found.name) = some id ∧
      ∃ holder other, (after.names (.space parent)).get? found.name = some holder ∧
        after.get? holder = some other ∧ other.kind ≠ .space := by
  obtain ⟨parent, around, listed, holder, other, holds, declared, differs⟩ :=
    coherent.losers id found present kind marked
  exact ⟨parent, around, kept parent listed around, holder, other, gains.holds holds,
    gains.kept declared, differs⟩

theorem gain_global :
    ∃ symbol, after.get? SymbolTable.global = some symbol ∧ symbol.shadowed = false := by
  obtain ⟨found, present, unmarked⟩ := coherent.global
  exact ⟨found, gains.kept present, unmarked⟩

theorem gain_nodes (framed : table.spaceFrame? node = some (id, way)) :
    ∃ symbol, after.get? id = some symbol ∧ symbol.node = some node ∧
      (node = NamespaceTree.root ∧ id = SymbolTable.global ∧ way = none ∨
        ∃ parent, symbol.parent = .space parent ∧ way = some (parent, symbol.name) ∧
          parent.index < node.index) := by
  obtain ⟨found, present, facts⟩ := coherent.nodes node id way framed
  exact ⟨found, gains.kept present, facts⟩

end

theorem gain (other : symbol.kind ≠ .space) (leaf : symbol.node = none)
    (gains : table.Gains after symbol) (scopes : table.SameScopes after)
    (shadowed : after.shadowedNamespaces = table.shadowedNamespaces) : after.Coherent where
  global := coherent.gain_global gains
  entries := fun _ _ => coherent.gain_entries gains
  settled := fun _ _ => coherent.gain_settled gains
  unlisted := coherent.gain_unlisted gains
  ordered := coherent.gain_ordered gains
  losers := by
    intro id found present kind marked
    rw [gains.symbols] at present
    split at present
    · cases present
      exact absurd kind other
    · exact coherent.gain_losers gains present kind marked fun _ listed _ => shadowed ▸ listed
  nodes := by
    intro node id way framed
    rw [scopes.spaces] at framed
    exact coherent.gain_nodes gains framed
  spaces := by
    intro id found present kind
    rw [gains.symbols] at present
    rw [scopes.spaces]
    split at present
    · cases present
      exact absurd kind other
    · exact coherent.spaces id found present kind
  leaves := by
    intro id found present kind
    rw [gains.symbols] at present
    split at present
    · cases present
      exact leaf
    · exact coherent.leaves id found present kind

theorem gainSpace (gained : table.GainsSpace after parent symbol)
    (first : symbol.shadowed = true → table.FirstLoser parent symbol.name) : after.Coherent where
  global := coherent.gain_global gained.gains
  entries := fun _ _ => coherent.gain_entries gained.gains
  settled := fun _ _ => coherent.gain_settled gained.gains
  unlisted := coherent.gain_unlisted gained.gains
  ordered := coherent.gain_ordered gained.gains
  losers := by
    intro id found present kind marked
    rw [gained.gains.symbols] at present
    split at present
    · rename_i new
      cases present
      obtain ⟨_, holder, other, holds, declared, differs⟩ := first marked
      refine ⟨parent, gained.around, ?_, holder, other, gained.gains.holds holds,
        gained.gains.kept declared, differs⟩
      rw [gained.shadowed, if_pos marked, Dictionary.get?_insert_self, new]
    · refine coherent.gain_losers gained.gains present kind marked fun place listed around => ?_
      rw [gained.shadowed]
      split
      · rename_i lost
        rw [Dictionary.get?_insert_of_ne, listed]
        intro same
        rw [← same, (first lost).1] at listed
        cases listed
      · exact listed
  nodes := by
    intro node id way framed
    rw [gained.spaces] at framed
    split at framed
    · rename_i new
      cases framed
      refine ⟨symbol, gained.gains.new, new ▸ gained.node, .inr ⟨parent, gained.around, rfl, ?_⟩⟩
      have held := gained.gains.held
      rw [gained.around] at held
      obtain ⟨found, present⟩ := Option.isSome_iff_exists.mp held
      rw [new]
      exact (Array.getElem?_eq_some_iff.mp present).1
    · exact coherent.gain_nodes gained.gains framed
  spaces := by
    intro id found present kind
    rw [gained.gains.symbols] at present
    split at present
    · rename_i new
      cases present
      exact ⟨_, _, gained.node, by rw [gained.spaces, if_pos rfl, new]⟩
    · obtain ⟨node, way, placed, framed⟩ := coherent.spaces id found present kind
      refine ⟨node, way, placed, ?_⟩
      rw [gained.spaces, if_neg, framed]
      rintro rfl
      simp [spaceFrame?, node?_size] at framed
  leaves := by
    intro id found present kind
    rw [gained.gains.symbols] at present
    split at present
    · cases present
      exact absurd gained.kind kind
    · exact coherent.leaves id found present kind

theorem amend (amends : table.Amends after) : after.Coherent where
  global := by
    obtain ⟨found, present, unmarked⟩ := coherent.global
    obtain ⟨later, kept, same⟩ := amends.later present
    exact ⟨later, kept, (congrArg Core.shadowed same).trans unmarked⟩
  entries := by
    intro scope entry member
    rw [amends.names] at member
    obtain ⟨found, present, name, around, unmarked⟩ := coherent.entries scope entry member
    obtain ⟨later, kept, same⟩ := amends.later present
    exact ⟨later, kept, (congrArg Core.name same).trans name,
      (congrArg Core.parent same).trans around, (congrArg Core.shadowed same).trans unmarked⟩
  settled := by
    intro id later found other unmarked
    obtain ⟨earlier, present, same⟩ := amends.earlier found
    have name : earlier.name = later.name := congrArg Core.name same
    have parent : earlier.parent = later.parent := congrArg Core.parent same
    rw [amends.names, ← name, ← parent]
    exact coherent.settled id earlier present other ((congrArg Core.shadowed same).trans unmarked)
  unlisted := by
    rw [amends.names]
    exact coherent.unlisted
  ordered := by
    rw [amends.names]
    exact coherent.ordered
  losers := by
    intro id later found kind marked
    obtain ⟨earlier, present, same⟩ := amends.earlier found
    have name : earlier.name = later.name := congrArg Core.name same
    have parent : earlier.parent = later.parent := congrArg Core.parent same
    obtain ⟨place, around, listed, holder, other, holds, declared, differs⟩ :=
      coherent.losers id earlier present ((congrArg Core.kind same).trans kind)
        ((congrArg Core.shadowed same).trans marked)
    obtain ⟨next, kept, alike⟩ := amends.later declared
    have kinds : next.kind = other.kind := congrArg Core.kind alike
    rw [← name, ← parent, amends.names, amends.shadowed]
    exact ⟨place, around, listed, holder, next, holds, kept, kinds ▸ differs⟩
  nodes := by
    intro node id way framed
    rw [amends.spaces] at framed
    obtain ⟨earlier, present, placed, facts⟩ := coherent.nodes node id way framed
    obtain ⟨later, kept, same⟩ := amends.later present
    have name : later.name = earlier.name := congrArg Core.name same
    have parent : later.parent = earlier.parent := congrArg Core.parent same
    rw [← name, ← parent] at facts
    exact ⟨later, kept, (congrArg Core.node same).trans placed, facts⟩
  spaces := by
    intro id later found kind
    obtain ⟨earlier, present, same⟩ := amends.earlier found
    obtain ⟨node, way, placed, framed⟩ :=
      coherent.spaces id earlier present ((congrArg Core.kind same).trans kind)
    rw [amends.spaces]
    exact ⟨node, way, (congrArg Core.node same).symm.trans placed, framed⟩
  leaves := by
    intro id later found kind
    obtain ⟨earlier, present, same⟩ := amends.earlier found
    have kinds : earlier.kind = later.kind := congrArg Core.kind same
    exact (congrArg Core.node same).symm.trans (coherent.leaves id earlier present (kinds ▸ kind))

theorem step (outcome : table.Outcome after) : after.Coherent := by
  cases outcome with
  | symbol other leaf gains scopes shadowed => exact coherent.gain other leaf gains scopes shadowed
  | space gains first => exact coherent.gainSpace gains first
  | same amends => exact coherent.amend amends

end

theorem names_empty : SymbolTable.empty.names scope = {} := by
  cases scope with
  | space node =>
    obtain ⟨_ | index⟩ := node
    · rfl
    · rfl
  | localScope id => rfl

theorem get?_empty (found : SymbolTable.empty.get? id = some symbol) :
    id = SymbolTable.global ∧ symbol = globalSymbol := by
  obtain ⟨_ | index⟩ := id
  · cases found
    exact ⟨rfl, rfl⟩
  · cases found

theorem empty : SymbolTable.empty.Coherent where
  global := ⟨globalSymbol, rfl, rfl⟩
  entries := by
    intro scope entry member
    rw [names_empty] at member
    cases member
  settled := fun id symbol found other _ => absurd (get?_empty found).1 other
  unlisted := by
    intro scope
    rw [names_empty]
    exact List.not_mem_nil
  ordered := by
    intro scope
    rw [names_empty]
    exact List.Pairwise.nil
  losers := by
    intro id symbol found _ marked
    rw [(get?_empty found).2] at marked
    cases marked
  nodes := by
    intro node id way framed
    obtain ⟨_ | index⟩ := node
    · cases framed
      exact ⟨globalSymbol, rfl, rfl, .inl ⟨rfl, rfl, rfl⟩⟩
    · cases framed
  spaces := by
    intro id symbol found _
    obtain ⟨rfl, rfl⟩ := get?_empty found
    exact ⟨NamespaceTree.root, none, rfl, rfl⟩
  leaves := by
    intro id symbol found other
    rw [(get?_empty found).2] at other
    exact absurd rfl other

end Coherent

/-! ### Any number of calls -/

/-- A name that has a holder keeps it, whatever is called. -/
theorem Outcome.holds (outcome : table.Outcome after)
    (held : (table.names scope).get? name = some id) : (after.names scope).get? name = some id := by
  cases outcome with
  | symbol other leaf gains scopes shadowed => exact gains.holds held
  | space gains first => exact gains.gains.holds held
  | same amends => rwa [amends.names]

theorem Coherent.run (coherent : table.Coherent) (calls : Relation.ReflTransGen Call table after) :
    after.Coherent := by
  induction calls with
  | refl => exact coherent
  | tail _ call ih => exact ih.step call.outcome

theorem holds_of_calls (calls : Relation.ReflTransGen Call table after)
    (held : table.binding? scope name = some id) : after.binding? scope name = some id := by
  rw [binding?_eq] at held ⊢
  induction calls with
  | refl => exact held
  | tail _ call ih => exact call.outcome.holds ih

/-! ### Looking symbols up -/

/-- A symbol that has its name: the global namespace, or one that is listed in some scope. -/
def Visible (table : SymbolTable) (id : SymbolId) : Prop :=
  id = global ∨ ∃ scope, id ∈ (table.names scope).values

theorem Visible.of_binding (held : table.binding? scope name = some id) : table.Visible id := by
  rw [binding?_eq] at held
  exact .inr ⟨scope, List.mem_map.mpr ⟨_, Dictionary.mem_entries_of_get? held, rfl⟩⟩

theorem Coherent.unshadowed (coherent : table.Coherent) (visible : table.Visible id) :
    ∃ symbol, table.get? id = some symbol ∧ symbol.shadowed = false := by
  rcases visible with rfl | ⟨scope, listed⟩
  · exact coherent.global
  · obtain ⟨entry, member, rfl⟩ := List.mem_map.mp listed
    obtain ⟨symbol, found, _, _, unmarked⟩ := coherent.entries scope entry member
    exact ⟨symbol, found, unmarked⟩

/-- The members of a symbol are the names of one scope, or there are none. -/
theorem members_scope (table : SymbolTable) (container : SymbolId) :
    (∃ scope, table.members container = (table.names scope).values ∧
      ∀ name, table.member? container name = table.binding? scope name) ∨
    table.members container = [] ∧ ∀ name, table.member? container name = none := by
  simp only [members, member?]
  cases placed : (table.symbol container).node with
  | some node =>
    refine .inl ⟨.space node, ?_, fun _ => rfl⟩
    simp only [NamespaceTree.members, names]
    cases table.tree.node? node <;> rfl
  | none =>
    cases attached : (table.symbol container).membersScope with
    | none => exact .inr ⟨rfl, fun _ => rfl⟩
    | some scope =>
      refine .inl ⟨.localScope scope, ?_, fun _ => rfl⟩
      simp only [Option.bind_some, names]
      cases table.local? scope <;> rfl

theorem Visible.of_member (found : table.member? container name = some id) : table.Visible id := by
  rcases table.members_scope container with ⟨scope, _, same⟩ | ⟨_, none⟩
  · exact .of_binding ((same name).symm.trans found)
  · rw [none] at found
    cases found

/-- A path ends where it starts or at a member of something. -/
theorem Visible.of_path
    (member : ∀ container name id, step container name = some id → table.Visible id)
    (names : List String) (visible : table.Visible start)
    (found : names.foldlM step start = some id) : table.Visible id := by
  induction names generalizing start with
  | nil =>
    cases found
    exact visible
  | cons name rest ih =>
    rw [List.foldlM_cons] at found
    obtain ⟨next, stepped, onward⟩ := Option.bind_eq_some_iff.mp found
    exact ih (member start name next stepped) onward

theorem Visible.of_lookupWhere (given : id ∈ (table.lookupWhere scope name accept).symbols) :
    table.Visible id := by
  unfold lookupWhere at given
  dsimp only at given
  split at given
  · rename_i first found
    obtain rfl := List.mem_singleton.mp given
    obtain ⟨place, _, held⟩ := List.mem_filterMap.mp (List.mem_of_find?_eq_some found)
    exact .of_binding held
  · rw [NamespaceTree.lookupViaUsings, Resolution.symbols_ofCandidates] at given
    obtain ⟨candidate, listed, rfl⟩ := List.mem_map.mp given
    have held : table.binding? (.space candidate.1) name = some candidate.2 :=
      NamespaceTree.member?_of_candidate listed
    exact .of_binding held

/-- Every way in which a symbol is given for a name, or listed under one. -/
inductive Given (table : SymbolTable) (id : SymbolId) : Prop where
  | lookup {scope : Scope} {name : String} (found : id ∈ (table.lookup scope name).symbols)
  | lookupWhere {scope : Scope} {name : String} {accept : Symbol → Bool}
      (found : id ∈ (table.lookupWhere scope name accept).symbols)
  | member {container : SymbolId} {name : String} (found : table.member? container name = some id)
  | members {container : SymbolId} (listed : id ∈ table.members container)
  | namespacePath {names : List String} (found : table.namespacePath? names = some id)
  | qualified {name : String} (found : table.qualified? name = some id)

theorem Given.visible (given : table.Given id) : table.Visible id := by
  cases given with
  | lookup found => exact .of_lookupWhere found
  | lookupWhere found => exact .of_lookupWhere found
  | member found => exact .of_member found
  | @members container listed =>
    rcases table.members_scope container with ⟨scope, same, _⟩ | ⟨none, _⟩
    · exact .inr ⟨scope, same ▸ listed⟩
    · rw [none] at listed
      cases listed
  | namespacePath found =>
    refine .of_path (fun container name id stepped => ?_) _ (.inl rfl) found
    exact .of_member (Option.filter_eq_some_iff.mp stepped).1
  | qualified found => exact .of_path (fun _ _ _ => .of_member) _ (.inl rfl) found

/-! ### What the names come to -/

/-- A namespace that lost a name in a scope. -/
def LostSpace (table : SymbolTable) (parent : Scope) (name : String) (id : SymbolId) : Prop :=
  ∃ symbol, table.get? id = some symbol ∧ symbol.kind = .space ∧ symbol.shadowed = true ∧
    symbol.parent = parent ∧ symbol.name = name

/-- Names, marks and parents as they are meant to be. -/
structure WellNamed (table : SymbolTable) : Prop where
  /-- A name stands for a symbol of that name and that scope. -/
  entries : ∀ scope, ∀ entry ∈ (table.names scope).entries, ∃ symbol,
    table.get? entry.2 = some symbol ∧ symbol.name = entry.1 ∧ symbol.parent = scope ∧
      symbol.shadowed = false
  /-- A symbol has its name or is shadowed, and never both. -/
  settled : ∀ id symbol, table.get? id = some symbol → id ≠ global →
    (table.binding? symbol.parent symbol.name = some id ↔ symbol.shadowed = false)
  /-- Members are listed in the order in which they were declared, each once. -/
  ordered : ∀ id, (table.members id).Pairwise fun one two => one.index < two.index
  /-- One namespace at most loses a name, and only to something that is no namespace. -/
  alone : ∀ parent name one two, table.LostSpace parent name one → table.LostSpace parent name two →
    one = two
  behind : ∀ parent name id, table.LostSpace parent name id →
    ∃ holder found, table.binding? parent name = some holder ∧ table.get? holder = some found ∧
      found.kind ≠ .space
  /-- Every namespace but the global one has a parent, which is older. -/
  parents : ∀ id node, table.tree.node? id = some node → id ≠ NamespaceTree.root →
    ∃ parent name, node.parent = some (parent, name) ∧ parent.index < id.index

theorem Coherent.wellNamed (coherent : table.Coherent) : table.WellNamed where
  entries := coherent.entries
  settled := by
    intro id symbol found other
    rw [binding?_eq]
    refine ⟨fun held => ?_, coherent.settled id symbol found other⟩
    obtain ⟨named, same, _, _, unmarked⟩ :=
      coherent.entries symbol.parent _ (Dictionary.mem_entries_of_get? held)
    cases found.symm.trans same
    exact unmarked
  ordered := by
    intro id
    rcases table.members_scope id with ⟨scope, same, _⟩ | ⟨none, _⟩
    · rw [same]
      exact coherent.ordered scope
    · rw [none]
      exact List.Pairwise.nil
  alone := by
    rintro parent name one two ⟨first, found, kind, marked, rfl, rfl⟩
      ⟨second, other, kind', marked', around, named⟩
    obtain ⟨place, here, listed, _⟩ := coherent.losers one first found kind marked
    obtain ⟨place', there, listed', _⟩ := coherent.losers two second other kind' marked'
    obtain rfl : place' = place := by simpa [here, there] using around
    rw [named, listed] at listed'
    exact Option.some.inj listed'
  behind := by
    rintro parent name id ⟨symbol, found, kind, marked, rfl, rfl⟩
    obtain ⟨place, around, _, holder, other, holds, declared, differs⟩ :=
      coherent.losers id symbol found kind marked
    rw [around, binding?_eq]
    exact ⟨holder, other, holds, declared, differs⟩
  parents := by
    intro id node present other
    obtain ⟨symbol, _, _, root | ⟨parent, _, way, older⟩⟩ :=
      coherent.nodes _ _ _ (spaceFrame?_of_node present)
    · exact absurd root.1 other
    · exact ⟨parent, symbol.name, way, older⟩

/-- Whatever calls make a table, its names are as they are meant to be, a name keeps its holder
whatever is called later, and a symbol that is shadowed is never given for a name. -/
theorem wellNamed_of_calls {table : SymbolTable} (made : Relation.ReflTransGen Call empty table) :
    table.WellNamed ∧
    (∀ later, Relation.ReflTransGen Call table later → ∀ scope name id,
      table.binding? scope name = some id → later.binding? scope name = some id) ∧
    ∀ id, table.Given id → ∃ symbol, table.get? id = some symbol ∧ symbol.shadowed = false := by
  have coherent : table.Coherent := Coherent.empty.run made
  exact ⟨coherent.wellNamed, fun _ further _ _ _ held => holds_of_calls further held,
    fun _ given => coherent.unshadowed given.visible⟩

/-- A decorator that has the name of a namespace with two blocks, which has a namespace in it. -/
def clash : SymbolTable :=
  let named := (empty.declare rootScope "A" .decorator ⟨⟨.library, ⟨0, 0, 0⟩⟩, .decorator ⟨0⟩⟩).2
  let once := (named.declareNamespace NamespaceTree.root "A" none).2
  let twice := (once.declareNamespace NamespaceTree.root "A" none).2
  (twice.declareNamespace ⟨1⟩ "B" none).2

theorem wellNamed_clash : Relation.ReflTransGen Call empty clash ∧
    clash.LostSpace rootScope "A" ⟨2⟩ ∧ clash.binding? rootScope "A" = some ⟨1⟩ ∧
    clash.WellNamed := by
  have made : Relation.ReflTransGen Call empty clash := by
    refine .tail (.tail (.tail (.single (.declare ?_ ?_ ..)) (.declareNamespace ?_ ..))
      (.declareNamespace ?_ ..)) (.declareNamespace ?_ ..)
    case refine_2 => decide
    all_goals rfl
  exact ⟨made, ⟨_, rfl, rfl, rfl, rfl, rfl⟩, rfl, (wellNamed_of_calls made).1⟩

end SymbolTable

end Idl
