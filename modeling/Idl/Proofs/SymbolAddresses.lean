import Idl.Proofs.QualifiedNames

/-! Addresses of symbols. A scope belongs to one symbol and a symbol has one scope at
most, so the names on the way from the global namespace to a symbol, through
namespaces, interfaces and templates alike, are an address of it. In a table where no
declaration lost its name two symbols never share an address, and the address does not
change while the table grows. -/
namespace Idl

/-- The scope that belongs to a symbol: of a namespace, of the operations of an interface, or of
the template parameters of a declaration. -/
def Symbol.inner? (symbol : Symbol) : Option Scope :=
  match symbol.node with
  | some node => some (.space node)
  | none => match symbol.membersScope with
    | some scope => some (.localScope scope)
    | none => symbol.templateScope.map .localScope

namespace SymbolTable
variable {id : SymbolId} {symbol : Symbol}
variable {table after : SymbolTable}

/-- The names on the way from the global namespace to a symbol. -/
inductive Stands (table : SymbolTable) : SymbolId → List String → Prop where
  | global : Stands table global []
  | inside {id holder : SymbolId} {symbol : Symbol} {address : List String}
      (found : table.get? id = some symbol) (other : id ≠ SymbolTable.global)
      (held : table.holder? symbol.parent = some holder) (outer : Stands table holder address) :
      Stands table id (address ++ [symbol.name])

/-- A symbol has one address at most. -/
theorem Stands.unique (first : table.Stands id one) (second : table.Stands id two) : one = two := by
  induction first generalizing two with
  | global =>
    cases second with
    | global => rfl
    | inside _ other => exact absurd rfl other
  | inside found other held _ ih =>
    cases second with
    | global => exact absurd rfl other
    | inside found' _ held' outer =>
      cases found.symm.trans found'
      cases held.symm.trans held'
      rw [ih outer]

theorem Stands.eq_nil_iff (stands : table.Stands id address) :
    address = [] ↔ id = SymbolTable.global := by
  cases stands with
  | global => simp
  | inside _ other => simp [other]

/-- Symbols stay where they are, and scopes belong to whom they belong. -/
structure Keeps (before after : SymbolTable) : Prop where
  symbols : ∀ id symbol, before.get? id = some symbol → ∃ later, after.get? id = some later ∧
    later.name = symbol.name ∧ later.parent = symbol.parent
  holders : ∀ scope holder, before.holder? scope = some holder → after.holder? scope = some holder

theorem Keeps.refl (table : SymbolTable) : table.Keeps table :=
  ⟨fun _ symbol found => ⟨symbol, found, rfl, rfl⟩, fun _ _ held => held⟩

theorem Keeps.trans {first : SymbolTable} (one : first.Keeps second) (two : second.Keeps third) :
    first.Keeps third where
  symbols := by
    intro id symbol found
    obtain ⟨middle, present, name, parent⟩ := one.symbols id symbol found
    obtain ⟨last, kept, name', parent'⟩ := two.symbols id middle present
    exact ⟨last, kept, name'.trans name, parent'.trans parent⟩
  holders := fun scope holder held => two.holders scope holder (one.holders scope holder held)

theorem Stands.keep (stands : table.Stands id address) (keeps : table.Keeps after) :
    after.Stands id address := by
  induction stands with
  | global => exact .global
  | inside found other held outer ih =>
    obtain ⟨later, present, name, parent⟩ := keeps.symbols _ _ found
    rw [← name]
    refine .inside present other ?_ ih
    rw [parent]
    exact keeps.holders _ _ held

/-! ### Tables in which each name was had -/

/-- No declaration lost its name, and scopes and symbols belong to each other. -/
structure Shaped (table : SymbolTable) : Prop where
  coherent : table.Coherent
  clear : ∀ id symbol, table.get? id = some symbol → symbol.shadowed = false
  top : table.get? global = some globalSymbol
  around : ∀ id symbol, table.get? id = some symbol → id ≠ global →
    ∃ holder, table.holder? symbol.parent = some holder ∧ holder.index < id.index
  scopes : ∀ scope holder, table.holder? scope = some holder ↔
    ∃ symbol, table.get? holder = some symbol ∧ symbol.inner? = some scope
  /-- A local scope stands where its symbol stands. -/
  nested : ∀ scope kind parent, table.localFrame? scope = some (kind, parent) →
    kind.owner ≠ global ∧ (∃ symbol, table.get? kind.owner = some symbol ∧ symbol.parent = parent) ∧
      ∀ outer, parent = .localScope outer → outer.index < scope.index
  fits : ∀ id symbol, table.get? id = some symbol →
    (symbol.membersScope.isSome → symbol.kind = .interface) ∧
      (symbol.templateScope.isSome → symbol.kind = .model ∨ symbol.kind = .operation)

namespace Shaped

variable (shaped : table.Shaped)
include shaped

theorem exists_stands (found : table.get? id = some symbol) :
    ∃ address, table.Stands id address := by
  -- The induction is on the number of the symbol: the one around it is older.
  generalize index : id.index = number
  induction number using Nat.strongRecOn generalizing id symbol with
  | ind number ih =>
    subst index
    by_cases other : id = global
    · exact ⟨[], other ▸ .global⟩
    · obtain ⟨holder, held, older⟩ := shaped.around id symbol found other
      obtain ⟨outer, present, _⟩ := (shaped.scopes _ _).mp held
      obtain ⟨address, stands⟩ := ih holder.index older present rfl
      exact ⟨_, .inside found other held stands⟩

theorem present (stands : table.Stands id address) : ∃ symbol, table.get? id = some symbol := by
  cases stands with
  | global => exact ⟨_, shaped.top⟩
  | inside found => exact ⟨_, found⟩

/-- A symbol has one scope at most. -/
theorem scope_unique (first : table.holder? one = some holder)
    (second : table.holder? two = some holder) : one = two := by
  obtain ⟨symbol, found, inner⟩ := (shaped.scopes _ _).mp first
  obtain ⟨same, present, inner'⟩ := (shaped.scopes _ _).mp second
  cases found.symm.trans present
  exact Option.some.inj (inner.symm.trans inner')

/-- Two symbols never share an address. -/
theorem stands_injective (first : table.Stands one address) (second : table.Stands two address) :
    one = two := by
  induction first generalizing two with
  | global => exact (second.eq_nil_iff.mp rfl).symm
  | @inside one holder symbol address found other held outer ih =>
    generalize whole : address ++ [symbol.name] = path at second
    cases second with
    | global => simp at whole
    | @inside _ holder' symbol' address' found' other' held' outer' =>
      obtain ⟨rfl, name⟩ := List.append_inj' whole rfl
      obtain rfl := ih outer'
      have place := shaped.scope_unique held held'
      have first := shaped.coherent.settled _ _ found other (shaped.clear _ _ found)
      have second := shaped.coherent.settled _ _ found' other' (shaped.clear _ _ found')
      rw [← place, ← List.singleton_inj.mp name, first] at second
      exact Option.some.inj second

/-- A name in a scope stands for the symbol at that address. -/
theorem binding_iff (held : table.holder? scope = some holder)
    (stands : table.Stands holder address) (name : String) (id : SymbolId) :
    table.binding? scope name = some id ↔ table.Stands id (address ++ [name]) := by
  rw [binding?_eq]
  constructor
  · intro bound
    have listed := Dictionary.mem_entries_of_get? bound
    obtain ⟨symbol, found, rfl, rfl, _⟩ := shaped.coherent.entries scope _ listed
    refine .inside found ?_ held stands
    rintro rfl
    exact shaped.coherent.unlisted _ (List.mem_map.mpr ⟨_, listed, rfl⟩)
  · intro inside
    generalize whole : address ++ [name] = path at inside
    cases inside with
    | global => simp at whole
    | @inside _ holder' symbol address' found other held' outer =>
      obtain ⟨rfl, named⟩ := List.append_inj' whole rfl
      obtain rfl := shaped.stands_injective stands outer
      rw [shaped.scope_unique held held', List.singleton_inj.mp named]
      exact shaped.coherent.settled _ _ found other (shaped.clear _ _ found)

/-- What stands somewhere later stood there before, if it was there. -/
theorem stands_back (keeps : table.Keeps after) (found : table.get? id = some symbol)
    (later : after.Stands id address) : table.Stands id address := by
  obtain ⟨path, stands⟩ := shaped.exists_stands found
  rw [later.unique (stands.keep keeps)]
  exact stands

end Shaped

/-! ### How such a table grows -/

theorem holder?_space (table : SymbolTable) :
    table.holder? (.space node) = (table.spaceFrame? node).map Prod.fst := by
  rw [holder?, spaceFrame?, Option.map_map]
  rfl

theorem holder?_local (table : SymbolTable) :
    table.holder? (.localScope scope) = (table.localFrame? scope).map fun frame => frame.1.owner := by
  rw [holder?, localFrame?, Option.map_map]
  rfl

theorem holder?_congr (spaces : after.spaceFrame? = table.spaceFrame?)
    (locals : after.localFrame? = table.localFrame?) : after.holder? = table.holder? := by
  funext scope
  cases scope with
  | space node => rw [holder?_space, holder?_space, spaces]
  | localScope id => rw [holder?_local, holder?_local, locals]

theorem hasScope_iff (table : SymbolTable) :
    table.HasScope scope ↔ ∃ holder, table.holder? scope = some holder := by
  cases scope with
  | space node | localScope id =>
    rw [HasScope, holder?, ← Option.isSome_iff_exists, Option.isSome_map]

/-- One more symbol, which has its name, and the scope that comes with it. -/
structure Adds (before after : SymbolTable) (symbol : Symbol) : Prop where
  gains : before.Gains after symbol
  unmarked : symbol.shadowed = false
  loose : symbol.membersScope = none ∧ symbol.templateScope = none
  fresh : ∀ scope, symbol.inner? = some scope → before.holder? scope = none
  holders : ∀ scope, after.holder? scope =
    if symbol.inner? = some scope then some ⟨before.size⟩ else before.holder? scope
  locals : after.localFrame? = before.localFrame?

theorem Adds.keeps (adds : table.Adds after symbol) : table.Keeps after where
  symbols := fun _ found present => ⟨found, adds.gains.kept present, rfl, rfl⟩
  holders := by
    intro scope holder held
    rw [adds.holders, if_neg, held]
    intro own
    cases (adds.fresh scope own).symm.trans held

/-- What a symbol and its scopes are like, but for what it holds. -/
def outline (symbol : Symbol) : Core × Option LocalScopeId × Option LocalScopeId :=
  (core symbol, symbol.membersScope, symbol.templateScope)

theorem inner?_of_outline (same : outline one = outline two) : one.inner? = two.inner? := by
  simp only [outline, core, Prod.mk.injEq, Core.mk.injEq] at same
  simp [Symbol.inner?, same]

/-- Symbols change only in what they hold. -/
structure Retains (before after : SymbolTable) : Prop where
  symbols : ∀ id, (after.get? id).map outline = (before.get? id).map outline
  top : after.get? global = before.get? global
  amends : before.Amends after
  locals : after.localFrame? = before.localFrame?

section
variable (retains : table.Retains after)
include retains

theorem Retains.later {id : SymbolId} (found : table.get? id = some symbol) :
    ∃ later, after.get? id = some later ∧ outline later = outline symbol := by
  have same := retains.symbols id
  rw [found] at same
  exact Option.map_eq_some_iff.mp same

theorem Retains.earlier {id : SymbolId} {later : Symbol} (found : after.get? id = some later) :
    ∃ symbol, table.get? id = some symbol ∧ outline symbol = outline later := by
  have same := retains.symbols id
  rw [found] at same
  exact Option.map_eq_some_iff.mp same.symm

theorem Retains.holders : after.holder? = table.holder? :=
  holder?_congr retains.amends.spaces retains.locals

theorem Retains.keeps : table.Keeps after where
  symbols := by
    intro id symbol found
    obtain ⟨later, present, same⟩ := retains.later found
    have cores := congrArg Prod.fst same
    exact ⟨later, present, congrArg Core.name cores, congrArg Core.parent cores⟩
  holders := by simp [retains.holders]

end

theorem Retains.modify (other : id ≠ global)
    (keeps : ∀ symbol, outline (change symbol) = outline symbol) :
    table.Retains (table.modifySymbol id change) where
  symbols := by
    intro place
    rw [get?_modifySymbol]
    split
    · rename_i same
      rw [same, Option.map_map]
      exact congrArg (fun f => Option.map f (table.get? id)) (funext keeps)
    · rfl
  top := by rw [get?_modifySymbol, if_neg other.symm]
  amends := .modify id fun symbol => congrArg Prod.fst (keeps symbol)
  locals := (SameScopes.of_eq (tree_modifySymbol ..) (locals_modifySymbol ..)).locals

theorem Retains.addDeclaration (other : id ≠ global) (declaration : Option Declaration) :
    table.Retains (table.addDeclaration id declaration) :=
  .modify other fun _ => rfl

theorem Retains.addUsing (user target : NamespaceId) : table.Retains (table.addUsing user target) :=
  ⟨fun _ => rfl, rfl, .addUsing user target, rfl⟩

/-- A declaration gets the scope of its operations or its template parameters. -/
structure Opens (before after : SymbolTable) (owner : SymbolId) (symbol later : Symbol)
    (kind : LocalScopeKind) : Prop where
  other : owner ≠ global
  found : before.get? owner = some symbol
  closed : symbol.inner? = none
  owned : kind.owner = owner
  cores : core later = core symbol
  inner : later.inner? = some (.localScope ⟨before.locals.size⟩)
  fits : (later.membersScope.isSome → later.kind = .interface) ∧
    (later.templateScope.isSome → later.kind = .model ∨ later.kind = .operation)
  symbols : ∀ id, after.get? id = if id = owner then some later else before.get? id
  locals : ∀ scope, after.localFrame? scope =
    if scope = ⟨before.locals.size⟩ then some (kind, symbol.parent) else before.localFrame? scope
  amends : before.Amends after

namespace Opens

theorem holders (opens : table.Opens after owner symbol later kind) (scope : Scope) :
    after.holder? scope =
      if scope = .localScope ⟨table.locals.size⟩ then some owner else table.holder? scope := by
  cases scope with
  | space node => rw [holder?_space, holder?_space, opens.amends.spaces, if_neg (by simp)]
  | localScope id =>
    rw [holder?_local, holder?_local, opens.locals]
    simp only [Scope.localScope.injEq]
    split
    · rw [Option.map_some, opens.owned]
    · rfl

theorem fresh (table : SymbolTable) : table.holder? (.localScope ⟨table.locals.size⟩) = none := by
  rw [holder?_local, localFrame?_size]
  rfl

theorem keeps (opens : table.Opens after owner symbol later kind) : table.Keeps after where
  symbols := by
    intro id found present
    rw [opens.symbols]
    split
    · rename_i same
      subst same
      cases present.symm.trans opens.found
      exact ⟨later, rfl, congrArg Core.name opens.cores, congrArg Core.parent opens.cores⟩
    · exact ⟨found, present, rfl, rfl⟩
  holders := by
    intro scope holder held
    rw [opens.holders, if_neg, held]
    rintro rfl
    rw [fresh] at held
    cases held

end Opens

namespace Shaped

theorem add (shaped : table.Shaped) (adds : table.Adds after symbol)
    (held : table.holder? symbol.parent = some holder) (coherent : after.Coherent) :
    after.Shaped where
  coherent := coherent
  clear := by
    intro id found present
    rw [adds.gains.symbols] at present
    split at present
    · cases present
      exact adds.unmarked
    · exact shaped.clear id found present
  top := adds.gains.kept shaped.top
  around := by
    intro id found present other
    rw [adds.gains.symbols] at present
    split at present
    · rename_i new
      cases present
      obtain ⟨around, inside, _⟩ := (shaped.scopes _ _).mp held
      exact ⟨holder, adds.keeps.holders _ _ held, new ▸ index_lt_size inside⟩
    · obtain ⟨holder, held, older⟩ := shaped.around id found present other
      exact ⟨holder, adds.keeps.holders _ _ held, older⟩
  scopes := by
    intro scope holder
    rw [adds.holders]
    constructor
    · intro given
      split at given
      · cases given
        exact ⟨symbol, adds.gains.new, ‹_›⟩
      · obtain ⟨found, present, inner⟩ := (shaped.scopes _ _).mp given
        exact ⟨found, adds.gains.kept present, inner⟩
    · rintro ⟨found, present, inner⟩
      rw [adds.gains.symbols] at present
      split at present
      · rename_i new
        cases present
        rw [if_pos inner, new]
      · have held := (shaped.scopes scope holder).mpr ⟨found, present, inner⟩
        rw [if_neg, held]
        intro own
        cases (adds.fresh scope own).symm.trans held
  nested := by
    intro scope kind parent framed
    rw [adds.locals] at framed
    obtain ⟨other, ⟨owner, found, around⟩, older⟩ := shaped.nested scope kind parent framed
    exact ⟨other, ⟨owner, adds.gains.kept found, around⟩, older⟩
  fits := by
    intro id found present
    rw [adds.gains.symbols] at present
    split at present
    · cases present
      simp [adds.loose]
    · exact shaped.fits id found present

theorem retain (shaped : table.Shaped) (retains : table.Retains after) : after.Shaped where
  coherent := shaped.coherent.amend retains.amends
  clear := by
    intro id later found
    obtain ⟨symbol, present, same⟩ := retains.earlier found
    have marks : symbol.shadowed = later.shadowed := congrArg (fun o => o.1.shadowed) same
    rw [← marks]
    exact shaped.clear id symbol present
  top := retains.top.trans shaped.top
  around := by
    intro id later found other
    obtain ⟨symbol, present, same⟩ := retains.earlier found
    have parent : symbol.parent = later.parent := congrArg (fun o => o.1.parent) same
    rw [retains.holders, ← parent]
    exact shaped.around id symbol present other
  scopes := by
    intro scope holder
    rw [retains.holders, shaped.scopes]
    constructor
    · rintro ⟨symbol, found, inner⟩
      obtain ⟨later, present, same⟩ := retains.later found
      exact ⟨later, present, (inner?_of_outline same).trans inner⟩
    · rintro ⟨later, found, inner⟩
      obtain ⟨symbol, present, same⟩ := retains.earlier found
      exact ⟨symbol, present, (inner?_of_outline same).trans inner⟩
  nested := by
    intro scope kind parent framed
    rw [retains.locals] at framed
    obtain ⟨other, ⟨owner, found, around⟩, older⟩ := shaped.nested scope kind parent framed
    obtain ⟨later, present, same⟩ := retains.later found
    have places : later.parent = owner.parent := congrArg (fun o => o.1.parent) same
    exact ⟨other, ⟨later, present, places.trans around⟩, older⟩
  fits := by
    intro id later found
    obtain ⟨symbol, present, same⟩ := retains.earlier found
    have kinds : symbol.kind = later.kind := congrArg (fun o => o.1.kind) same
    have members : symbol.membersScope = later.membersScope := congrArg (fun o => o.2.1) same
    have params : symbol.templateScope = later.templateScope := congrArg (fun o => o.2.2) same
    rw [← kinds, ← members, ← params]
    exact shaped.fits id symbol present

theorem opened (shaped : table.Shaped) (opens : table.Opens after owner symbol later kind) :
    after.Shaped where
  coherent := shaped.coherent.amend opens.amends
  clear := by
    intro id found present
    rw [opens.symbols] at present
    split at present
    · cases present
      rw [show later.shadowed = symbol.shadowed from congrArg Core.shadowed opens.cores]
      exact shaped.clear owner symbol opens.found
    · exact shaped.clear id found present
  top := by rw [opens.symbols, if_neg opens.other.symm, shaped.top]
  around := by
    intro id found present other
    have kept : ∃ earlier, table.get? id = some earlier ∧ earlier.parent = found.parent := by
      rw [opens.symbols] at present
      split at present
      · rename_i same
        cases present
        exact ⟨symbol, same ▸ opens.found, (congrArg Core.parent opens.cores).symm⟩
      · exact ⟨found, present, rfl⟩
    obtain ⟨earlier, before, parent⟩ := kept
    obtain ⟨holder, held, older⟩ := shaped.around id earlier before other
    exact ⟨holder, opens.keeps.holders _ _ (parent ▸ held), older⟩
  scopes := by
    intro scope holder
    rw [opens.holders]
    constructor
    · intro given
      split at given
      · rename_i new
        cases given
        exact ⟨later, by rw [opens.symbols, if_pos rfl], new ▸ opens.inner⟩
      · obtain ⟨found, present, inner⟩ := (shaped.scopes _ _).mp given
        refine ⟨found, ?_, inner⟩
        rw [opens.symbols, if_neg, present]
        -- Before, the owner had no scope.
        rintro rfl
        cases present.symm.trans opens.found
        cases opens.closed.symm.trans inner
    · rintro ⟨found, present, inner⟩
      rw [opens.symbols] at present
      split at present
      · rename_i same
        cases present
        rw [if_pos (Option.some.inj (inner.symm.trans opens.inner)), same]
      · have held := (shaped.scopes scope holder).mpr ⟨found, present, inner⟩
        rw [if_neg, held]
        rintro rfl
        rw [Opens.fresh] at held
        cases held
  nested := by
    intro scope frame parent framed
    rw [opens.locals] at framed
    split at framed
    · rename_i new
      cases framed
      refine ⟨opens.owned ▸ opens.other, ⟨later, ?_, congrArg Core.parent opens.cores⟩, ?_⟩
      · rw [opens.symbols, if_pos opens.owned]
      · intro outer around
        obtain ⟨holder, held, _⟩ := shaped.around owner symbol opens.found opens.other
        rw [around, holder?] at held
        obtain ⟨present, inside, _⟩ := Option.map_eq_some_iff.mp held
        rw [new]
        exact (Array.getElem?_eq_some_iff.mp inside).1
    · obtain ⟨other, ⟨owner, found, around⟩, older⟩ := shaped.nested scope frame parent framed
      obtain ⟨next, present, _, places⟩ := opens.keeps.symbols _ _ found
      exact ⟨other, ⟨next, present, places.trans around⟩, older⟩
  fits := by
    intro id found present
    rw [opens.symbols] at present
    split at present
    · cases present
      exact opens.fits
    · exact shaped.fits id found present

theorem empty : SymbolTable.empty.Shaped where
  coherent := .empty
  clear := by
    intro id symbol found
    rw [(Coherent.get?_empty found).2]
    rfl
  top := rfl
  around := fun id symbol found other => absurd (Coherent.get?_empty found).1 other
  scopes := by
    intro scope holder
    constructor
    · intro held
      obtain ⟨⟨_ | index⟩⟩ | id := scope
      · cases held
        exact ⟨globalSymbol, rfl, rfl⟩
      · cases held
      · cases held
    · rintro ⟨symbol, found, inner⟩
      obtain ⟨rfl, rfl⟩ := Coherent.get?_empty found
      cases inner
      rfl
  nested := by
    intro scope kind parent framed
    cases framed
  fits := by
    intro id symbol found
    rw [(Coherent.get?_empty found).2]
    simp [globalSymbol]

end Shaped

/-! ### Declaring -/

/-- A name is had, or it has a holder and the declaration loses it. -/
theorem declare_cases (held : table.HasScope scope) :
    (table.binding? scope name = none ∧
      (table.declare scope name kind declaration).1 = .new ⟨table.size⟩ ∧
      table.Adds (table.declare scope name kind declaration).2
        { id := ⟨table.size⟩, name, kind, parent := scope, declarations := [declaration] }) ∨
    ((table.binding? scope name).isSome ∧
      ∃ holder, (table.declare scope name kind declaration).1 = .duplicate ⟨table.size⟩ holder) := by
  obtain ⟨shadowed, tells, gains, scopes, _⟩ := declare_gains held name kind declaration
  have taken := gains.taken
  rw [binding?_eq]
  cases shadowed with
  | true => exact .inr ⟨taken.symm, tells.2 rfl⟩
  | false =>
    refine .inl ⟨by simpa using taken.symm, tells.1 rfl, gains, rfl, ⟨rfl, rfl⟩, ?_, ?_, scopes.locals⟩
    · intro place own
      cases own
    · intro place
      rw [if_neg (by simp [Symbol.inner?]), holder?_congr scopes.spaces scopes.locals]

theorem GainsSpace.adds (gained : table.GainsSpace after parent symbol)
    (unmarked : symbol.shadowed = false)
    (loose : symbol.membersScope = none ∧ symbol.templateScope = none) :
    table.Adds after symbol where
  gains := gained.gains
  unmarked := unmarked
  loose := loose
  fresh := by
    intro scope own
    simp only [Symbol.inner?, gained.node, Option.some.injEq] at own
    rw [← own, holder?, node?_size]
    rfl
  holders := by
    intro scope
    simp only [Symbol.inner?, gained.node, Option.some.injEq]
    cases scope with
    | space node =>
      rw [holder?_space, holder?_space, gained.spaces]
      by_cases new : node = ⟨table.tree.size⟩
      · simp [new]
      · rw [if_neg new, if_neg]
        simpa using Ne.symm new
    | localScope id => rw [holder?_local, holder?_local, gained.locals, if_neg (by simp)]
  locals := gained.locals

/-- A namespace is new, is opened again, or loses its name to something else. -/
theorem declareNamespace_adds (held : table.HasScope (.space parent)) (name : String)
    (declaration : Option Declaration) :
    (table.binding? (.space parent) name = none ∧
      (table.declareNamespace parent name declaration).1 = .new ⟨table.size⟩ ∧
      table.Adds (table.declareNamespace parent name declaration).2
        { id := ⟨table.size⟩, name, kind := .space, parent := .space parent,
          node := some ⟨table.tree.size⟩, declarations := declaration.toList }) ∨
    ∃ existing, table.binding? (.space parent) name = some existing ∧
      ((table.symbol existing).kind = .space ∧
        table.declareNamespace parent name declaration =
          (.merged existing, table.addDeclaration existing declaration) ∨
      (table.symbol existing).kind ≠ .space ∧
        ∃ loser holder, (table.declareNamespace parent name declaration).1 =
          .duplicate loser holder) := by
  obtain ⟨shadowed, tells, gained⟩ := newNamespace_gains held
  have taken : shadowed = (table.binding? (.space parent) name).isSome := by
    rw [binding?_eq]
    exact gained.gains.taken
  have holder : table.tree.member? parent name = table.binding? (.space parent) name := rfl
  unfold declareNamespace
  rw [holder]
  cases bound : table.binding? (.space parent) name with
  | none =>
    obtain rfl : shadowed = false := by rw [taken, bound]; rfl
    exact .inl ⟨rfl, tells.1 rfl, gained.adds rfl ⟨rfl, rfl⟩⟩
  | some existing =>
    refine .inr ⟨existing, rfl, ?_⟩
    by_cases kind : (table.symbol existing).kind = .space
    · exact .inl ⟨kind, by simp [kind]⟩
    · refine .inr ⟨kind, ?_⟩
      simp only [if_neg kind]
      cases table.shadowedNamespaces.get? (parent, name) with
      | some loser => exact ⟨loser, existing, rfl⟩
      | none => exact ⟨_, tells.2 (by rw [taken, bound]; rfl)⟩

/-! ### Opening a scope -/

theorem inner?_eq_none (closed : symbol.inner? = none) :
    symbol.node = none ∧ symbol.membersScope = none ∧ symbol.templateScope = none := by
  unfold Symbol.inner? at closed
  split at closed
  · cases closed
  · split at closed
    · cases closed
    · exact ⟨‹_›, ‹_›, by simpa using closed⟩

variable (found : table.get? owner = some symbol) (other : owner ≠ global)
  (closed : symbol.inner? = none)
include found other closed

theorem openTemplate_opens (kind : symbol.kind = .model ∨ symbol.kind = .operation) :
    table.Opens (table.createLocalScope (.templateParameters owner) symbol.parent).2 owner symbol
      { symbol with templateScope := some ⟨table.locals.size⟩ } (.templateParameters owner) where
  other := other
  found := found
  closed := closed
  owned := rfl
  cores := rfl
  inner := by
    obtain ⟨leaf, loose, _⟩ := inner?_eq_none closed
    simp [Symbol.inner?, leaf, loose]
  fits := by
    obtain ⟨_, loose, _⟩ := inner?_eq_none closed
    simp [loose, kind]
  symbols := by
    intro id
    refine (get?_modifySymbol ..).trans ?_
    split
    · exact congrArg (Option.map _) found
    · rfl
  locals := by
    intro scope
    rw [← localFrame?_push]
    exact congrFun (SameScopes.of_eq (tree_modifySymbol ..) (locals_modifySymbol ..)).locals scope
  amends := .createLocalScope ..

theorem openInterface_opens (kind : symbol.kind = .interface) :
    table.Opens (table.createLocalScope (.interface owner) symbol.parent).2 owner symbol
      { symbol with membersScope := some ⟨table.locals.size⟩ } (.interface owner) where
  other := other
  found := found
  closed := closed
  owned := rfl
  cores := rfl
  inner := by
    obtain ⟨leaf, _⟩ := inner?_eq_none closed
    simp [Symbol.inner?, leaf]
  fits := by
    obtain ⟨_, _, plain⟩ := inner?_eq_none closed
    simp [plain, kind]
  symbols := get?_openInterface found symbol.parent
  locals := localFrame?_openInterface table owner symbol.parent
  amends := .createLocalScope ..

end SymbolTable

end Idl
