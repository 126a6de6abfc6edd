import Idl.Proofs.ResolvedUsings
import Mathlib.Data.Set.Function

/-! Tables with the same entries. The numbers of symbols and scopes come from the order
in which they were made, but addresses do not. So two tables whose entries are the same
up to their order are the same up to a renaming, which takes each symbol and each scope
to the one at the same address. -/
namespace Idl

/-- Other numbers for symbols and scopes. -/
structure Renaming where
  symbol : SymbolId → SymbolId
  space : NamespaceId → NamespaceId
  inner : LocalScopeId → LocalScopeId

def Renaming.scope (map : Renaming) : Scope → Scope
  | .space node => .space (map.space node)
  | .localScope id => .localScope (map.inner id)

/-- A symbol is the same as another but for the numbers, which are the other ones. -/
structure Renaming.Carries (map : Renaming) (found later : Symbol) : Prop where
  kind : later.kind = found.kind
  name : later.name = found.name
  parent : later.parent = map.scope found.parent
  locations : (found.declarations.map (·.location)).Perm (later.declarations.map (·.location))
  params : later.templateParams = found.templateParams.map map.symbol
  node : later.node = found.node.map map.space
  members : later.membersScope = found.membersScope.map map.inner
  template : later.templateScope = found.templateScope.map map.inner

theorem Symbol.node_of_inner? {symbol : Symbol} {node : NamespaceId}
    (inner : symbol.inner? = some (.space node)) : symbol.node = some node := by
  unfold inner? at inner
  split at inner
  · rename_i own given
    rw [given, Scope.space.inj (Option.some.inj inner)]
  · split at inner <;> simp at inner

theorem Symbol.local_of_inner? {symbol : Symbol}
    (inner : symbol.inner? = some (.localScope scope)) :
    symbol.membersScope = some scope ∨ symbol.templateScope = some scope := by
  unfold inner? at inner
  split at inner
  · simp at inner
  · split at inner
    · left
      rename_i own given
      rw [given, Scope.localScope.inj (Option.some.inj inner)]
    · right
      simpa using inner

namespace SymbolTable
variable {id : SymbolId} {symbol : Symbol}
variable {table one two : SymbolTable}

/-! ### Tables that are bound to their end -/

/-- The table of a program, with its entries. -/
structure Complete (entries : List Entry) (table : SymbolTable) : Prop where
  mapped : table.Mapped entries
  filled : table.Filled none
  templates : ∀ id symbol, table.get? id = some symbol → symbol.templateParams ≠ [] →
    symbol.kind = .model ∨ symbol.kind = .operation

namespace Complete

variable (complete : table.Complete entries)
include complete

variable (found : table.get? id = some symbol)
include found

theorem node_isSome :
    symbol.node.isSome ↔ symbol.kind = .space := by
  have coherent := complete.mapped.shaped.coherent
  constructor
  · intro given
    obtain ⟨node, own⟩ := Option.isSome_iff_exists.mp given
    exact (coherent.frame_of_node found own).1
  · intro kind
    obtain ⟨node, _, own, _⟩ := coherent.spaces id symbol found kind
    simp [own]

theorem members_isSome :
    symbol.membersScope.isSome ↔ symbol.kind = .interface := by
  constructor
  · exact (complete.mapped.shaped.fits id symbol found).1
  · exact (complete.filled id symbol found (by simp)).1

theorem closed_of_params (some : symbol.templateParams ≠ []) :
    symbol.node = none ∧ symbol.membersScope = none := by
  rw [← Option.not_isSome_iff_eq_none, ← Option.not_isSome_iff_eq_none, complete.node_isSome found,
    complete.members_isSome found]
  rcases complete.templates id symbol found some with model | operation
  · simp [model]
  · simp [operation]

/-- What has parameters has a scope for them. -/
theorem template_isSome :
    symbol.templateScope.isSome ↔ symbol.templateParams ≠ [] := by
  have shaped := complete.mapped.shaped
  constructor
  · exact (complete.filled id symbol found (by simp)).2
  · intro some
    obtain ⟨address, stands⟩ := shaped.exists_stands found
    -- The first parameter stands in a scope of the declaration, which can only be that scope.
    obtain ⟨param, rest, listed⟩ := List.exists_cons_of_ne_nil some
    have first : symbol.templateParams[0]? = .some param := by rw [listed]; rfl
    obtain ⟨entry, _, _, _, ⟨name, below⟩, inside⟩ :=
      (complete.mapped.params id symbol address found stands 0 param).mp first
    rw [below] at inside
    generalize whole : address ++ [name] = path at inside
    cases inside with
    | global => simp at whole
    | inside _ _ held outer =>
      obtain ⟨rfl, _⟩ := List.append_inj' whole rfl
      obtain rfl := shaped.stands_injective stands outer
      obtain ⟨same, present, inner⟩ := (shaped.scopes _ _).mp held
      cases found.symm.trans present
      obtain ⟨leaf, loose⟩ := complete.closed_of_params found some
      simp only [Symbol.inner?, leaf, loose] at inner
      obtain ⟨scope, own, _⟩ := Option.map_eq_some_iff.mp inner
      simp [own]

end Complete

/-! ### Symbols at one address -/

theorem Stands.exists_name (stands : table.Stands id address) (other : id ≠ SymbolTable.global) :
    ∃ around name, address = around ++ [name] := by
  cases stands with
  | global => exact absurd rfl other
  | inside => exact ⟨_, _, rfl⟩

theorem Stands.name {name : String} (stands : table.Stands id (address ++ [name]))
    (found : table.get? id = some symbol) : symbol.name = name := by
  generalize whole : address ++ [name] = path at stands
  cases stands with
  | global => simp at whole
  | inside present =>
    cases found.symm.trans present
    obtain ⟨_, same⟩ := List.append_inj' whole rfl
    exact (List.singleton_inj.mp same).symm

/-- Two symbols of two tables are the same but for numbers. -/
structure Twins (one two : SymbolTable) (found later : Symbol) : Prop where
  kind : later.kind = found.kind
  name : later.name = found.name
  locations : (found.declarations.map (·.location)).Perm (later.declarations.map (·.location))
  params : ∀ (position : Nat) (path : List String),
    (∃ param, found.templateParams[position]? = some param ∧ one.Stands param path) ↔
      ∃ param, later.templateParams[position]? = some param ∧ two.Stands param path

namespace Complete

/-- Where a symbol stands in one table, one stands in the other. -/
theorem exists_twin (first : one.Complete entries) (second : two.Complete more)
    (same : entries.Perm more) (stands : one.Stands id address) :
    ∃ twin, two.Stands twin address := by
  by_cases top : id = global
  · rw [stands.eq_nil_iff.mpr top]
    exact ⟨global, .global⟩
  · obtain ⟨symbol, found⟩ := first.mapped.shaped.present stands
    obtain ⟨entry, member, rfl⟩ := first.mapped.recorded.exists_entry found top stands
    obtain ⟨twin, _, _, _, stood, _⟩ := second.mapped.recorded.listed entry (same.mem_iff.mp member)
    exact ⟨twin, stood⟩

/-- The parameters of a symbol are known from the entries alone. -/
theorem param_iff (complete : table.Complete entries) (found : table.get? id = some symbol)
    (stands : table.Stands id address) (position : Nat) (path : List String) :
    (∃ param, symbol.templateParams[position]? = some param ∧ table.Stands param path) ↔
      ∃ entry ∈ entries, entry.kind = .templateParameter ∧ entry.position = position ∧
        (∃ name, entry.address = address ++ [name]) ∧ entry.address = path := by
  constructor
  · rintro ⟨param, listed, stood⟩
    obtain ⟨entry, member, kind, place, below, there⟩ :=
      (complete.mapped.params id symbol address found stands position param).mp listed
    exact ⟨entry, member, kind, place, below, there.unique stood⟩
  · rintro ⟨entry, member, kind, place, below, rfl⟩
    obtain ⟨param, _, _, _, stood, _⟩ := complete.mapped.recorded.listed entry member
    refine ⟨param, ?_, stood⟩
    exact (complete.mapped.params id symbol address found stands position param).mpr
      ⟨entry, member, kind, place, below, stood⟩

theorem twins (first : one.Complete entries) (second : two.Complete more) (same : entries.Perm more)
    (stands : one.Stands id address) (stood : two.Stands other address)
    (present : one.get? id = some found) (held : two.get? other = some later) :
    one.Twins two found later := by
  have params (position : Nat) (path : List String) :
      (∃ param, found.templateParams[position]? = some param ∧ one.Stands param path) ↔
        ∃ param, later.templateParams[position]? = some param ∧ two.Stands param path := by
    rw [first.param_iff present stands, second.param_iff held stood]
    simp only [same.mem_iff]
  by_cases top : id = global
  · obtain rfl : other = global := by rw [← stood.eq_nil_iff, stands.eq_nil_iff, top]
    subst top
    cases present.symm.trans first.mapped.shaped.top
    cases held.symm.trans second.mapped.shaped.top
    exact ⟨rfl, rfl, .refl _, params⟩
  · have below : other ≠ global := by rwa [Ne, ← stood.eq_nil_iff, stands.eq_nil_iff]
    obtain ⟨around, name, rfl⟩ := stands.exists_name top
    refine ⟨?_, ?_, ?_, params⟩
    · obtain ⟨entry, member, there⟩ := first.mapped.recorded.exists_entry present top stands
      rw [← there] at stands stood
      rw [second.mapped.recorded.kind second.mapped.shaped (same.mem_iff.mp member) held stood,
        first.mapped.recorded.kind first.mapped.shaped member present stands]
    · rw [stood.name held, stands.name present]
    · have mine := (first.mapped.recorded.located id found _ present top stands).2
      have yours := (second.mapped.recorded.located other later _ held below stood).2
      exact mine.trans (((same.filter _).map _).trans yours.symm)

theorem param_stands (complete : table.Complete entries) (found : table.get? id = some symbol)
    {position : Nat} (listed : symbol.templateParams[position]? = some param) :
    ∃ path, table.Stands param path := by
  obtain ⟨address, stands⟩ := complete.mapped.shaped.exists_stands found
  obtain ⟨entry, _, _, _, _, stood⟩ :=
    (complete.mapped.params id symbol address found stands position param).mp listed
  exact ⟨entry.address, stood⟩

theorem params_ne_nil (complete : one.Complete entries) {found : Symbol}
    (twins : one.Twins two found later) (present : one.get? id = some found)
    (some : found.templateParams ≠ []) : later.templateParams ≠ [] := by
  obtain ⟨param, rest, listed⟩ := List.exists_cons_of_ne_nil some
  have first : found.templateParams[0]? = .some param := by rw [listed]; rfl
  obtain ⟨path, stands⟩ := complete.param_stands present first
  obtain ⟨other, there, _⟩ := (twins.params 0 path).mp ⟨param, first, stands⟩
  intro none
  simp [none] at there

/-! ### Scopes at one address -/

theorem placed_members (complete : table.Complete entries) (found : table.get? id = some symbol)
    (own : symbol.membersScope = some scope) (stands : table.Stands id address) :
    table.Placed (.localScope scope) address := by
  have kind : symbol.kind = .interface := (complete.members_isSome found).mp (by simp [own])
  have leaf := complete.mapped.shaped.coherent.leaves id symbol found (by simp [kind])
  exact complete.mapped.shaped.placed_inner found (by simp [Symbol.inner?, leaf, own]) stands

theorem placed_template (complete : table.Complete entries) (found : table.get? id = some symbol)
    (own : symbol.templateScope = some scope) (stands : table.Stands id address) :
    table.Placed (.localScope scope) address := by
  obtain ⟨leaf, loose⟩ := complete.closed_of_params found
    ((complete.template_isSome found).mp (by simp [own]))
  exact complete.mapped.shaped.placed_inner found (by simp [Symbol.inner?, leaf, loose, own]) stands

/-- A namespace of one table is one in the other. -/
theorem exists_space (first : one.Complete entries) (second : two.Complete more)
    (same : entries.Perm more) {node : NamespaceId} (placed : one.Placed (.space node) address) :
    ∃ other, two.Placed (.space other) address := by
  obtain ⟨id, held, stands⟩ := placed
  obtain ⟨found, present, inner⟩ := (first.mapped.shaped.scopes _ _).mp held
  have own := Symbol.node_of_inner? inner
  obtain ⟨twin, stood⟩ := first.exists_twin second same stands
  obtain ⟨later, there⟩ := second.mapped.shaped.present stood
  have twins := first.twins second same stands stood present there
  have kind := (first.node_isSome present).mp (by simp [own])
  obtain ⟨other, own'⟩ := Option.isSome_iff_exists.mp
    ((second.node_isSome there).mpr (twins.kind.trans kind))
  exact ⟨other, second.mapped.shaped.placed_node there own' stood⟩

/-- A local scope of one table is one in the other. -/
theorem exists_inner (first : one.Complete entries) (second : two.Complete more)
    (same : entries.Perm more) {scope : LocalScopeId}
    (placed : one.Placed (.localScope scope) address) :
    ∃ other, two.Placed (.localScope other) address := by
  obtain ⟨id, held, stands⟩ := placed
  obtain ⟨found, present, inner⟩ := (first.mapped.shaped.scopes _ _).mp held
  obtain ⟨twin, stood⟩ := first.exists_twin second same stands
  obtain ⟨later, there⟩ := second.mapped.shaped.present stood
  have twins := first.twins second same stands stood present there
  rcases Symbol.local_of_inner? inner with members | template
  · have kind := (first.members_isSome present).mp (by simp [members])
    obtain ⟨other, own⟩ := Option.isSome_iff_exists.mp
      ((second.members_isSome there).mpr (twins.kind.trans kind))
    exact ⟨other, second.placed_members there own stood⟩
  · have some := first.params_ne_nil twins present ((first.template_isSome present).mp (by simp [template]))
    obtain ⟨other, own⟩ := Option.isSome_iff_exists.mp ((second.template_isSome there).mpr some)
    exact ⟨other, second.placed_template there own stood⟩

end Complete

/-! ### The renaming -/

instance : Nonempty SymbolId := ⟨⟨0⟩⟩

instance : Nonempty NamespaceId := ⟨⟨0⟩⟩

instance : Nonempty LocalScopeId := ⟨⟨0⟩⟩

/-- What is at the same address in another table. -/
noncomputable def matching (one two : SymbolTable) : Renaming where
  symbol id := Classical.epsilon fun other => ∃ address, one.Stands id address ∧ two.Stands other address
  space node := Classical.epsilon fun other =>
    ∃ address, one.Placed (.space node) address ∧ two.Placed (.space other) address
  inner id := Classical.epsilon fun other =>
    ∃ address, one.Placed (.localScope id) address ∧ two.Placed (.localScope other) address

theorem Placed.address_unique (first : table.Placed scope path)
    (second : table.Placed scope address) : path = address := by
  obtain ⟨holder, held, stands⟩ := first
  obtain ⟨other, held', stands'⟩ := second
  cases held.symm.trans held'
  exact stands.unique stands'

/-- The scope in which a symbol was declared is at the address around it. -/
theorem Stands.around {name : String} (stands : table.Stands id (address ++ [name]))
    (found : table.get? id = some symbol) : table.Placed symbol.parent address := by
  generalize whole : address ++ [name] = path at stands
  cases stands with
  | global => simp at whole
  | inside present _ held outer =>
    cases found.symm.trans present
    obtain ⟨rfl, _⟩ := List.append_inj' whole rfl
    exact ⟨_, held, outer⟩

theorem eq_map_of_isSome (both : yours.isSome ↔ mine.isSome)
    (same : ∀ one two, mine = some one → yours = some two → two = f one) : yours = mine.map f := by
  cases mine with
  | none =>
    cases yours with
    | none => rfl
    | some two => simp at both
  | some one =>
    cases yours with
    | none => simp at both
    | some two => simp [same one two rfl rfl]

/-- A renaming takes each symbol and each scope of a table to the one at the same address in
another, and nothing is left out there. -/
structure Matched (one two : SymbolTable) (map : Renaming) : Prop where
  first : one.Shaped
  second : two.Shaped
  symbols : ∀ id address, one.Stands id address → two.Stands (map.symbol id) address
  scopes : ∀ scope address, one.Placed scope address → two.Placed (map.scope scope) address
  twins : ∀ id address, two.Stands id address → ∃ earlier, one.Stands earlier address
  places : ∀ scope address, two.Placed scope address → ∃ earlier, one.Placed earlier address
  carries : ∀ id found later, one.get? id = some found → two.get? (map.symbol id) = some later →
    map.Carries found later

namespace Complete

variable (first : one.Complete entries) (second : two.Complete more) (same : entries.Perm more)
include first second same

theorem matching_symbol (stands : one.Stands id address) :
    two.Stands ((one.matching two).symbol id) address := by
  obtain ⟨twin, stood⟩ := first.exists_twin second same stands
  have chosen : ∃ path, one.Stands id path ∧ two.Stands ((one.matching two).symbol id) path :=
    Classical.epsilon_spec (p := fun other => ∃ path, one.Stands id path ∧ two.Stands other path)
      ⟨twin, address, stands, stood⟩
  obtain ⟨path, here, there⟩ := chosen
  rwa [here.unique stands] at there

theorem matching_scope (placed : one.Placed scope address) :
    two.Placed ((one.matching two).scope scope) address := by
  cases scope with
  | space node =>
    obtain ⟨other, stood⟩ := first.exists_space second same placed
    have chosen : ∃ path, one.Placed (.space node) path ∧
        two.Placed (.space ((one.matching two).space node)) path :=
      Classical.epsilon_spec (p := fun other => ∃ path, one.Placed (.space node) path ∧
        two.Placed (.space other) path) ⟨other, address, placed, stood⟩
    obtain ⟨path, here, there⟩ := chosen
    rwa [here.address_unique placed] at there
  | localScope id =>
    obtain ⟨other, stood⟩ := first.exists_inner second same placed
    have chosen : ∃ path, one.Placed (.localScope id) path ∧
        two.Placed (.localScope ((one.matching two).inner id)) path :=
      Classical.epsilon_spec (p := fun other => ∃ path, one.Placed (.localScope id) path ∧
        two.Placed (.localScope other) path) ⟨other, address, placed, stood⟩
    obtain ⟨path, here, there⟩ := chosen
    rwa [here.address_unique placed] at there

theorem matching_params {other : SymbolId} (twins : one.Twins two found later)
    (present : one.get? id = some found) (held : two.get? other = some later) :
    later.templateParams = found.templateParams.map (one.matching two).symbol := by
  apply List.ext_getElem?
  intro position
  rw [List.getElem?_map]
  ext param
  rw [Option.map_eq_some_iff]
  constructor
  · intro listed
    obtain ⟨path, stood⟩ := second.param_stands held listed
    obtain ⟨earlier, there, stands⟩ := (twins.params position path).mpr ⟨param, listed, stood⟩
    exact ⟨earlier, there, second.mapped.shaped.stands_injective
      (first.matching_symbol second same stands) stood⟩
  · rintro ⟨earlier, listed, rfl⟩
    obtain ⟨path, stands⟩ := first.param_stands present listed
    obtain ⟨param, there, stood⟩ := (twins.params position path).mp ⟨earlier, listed, stands⟩
    rwa [second.mapped.shaped.stands_injective (first.matching_symbol second same stands) stood]

theorem matching_root : (one.matching two).scope rootScope = rootScope :=
  (first.matching_scope second same first.mapped.shaped.placed_root).unique
    second.mapped.shaped.placed_root second.mapped.shaped

theorem matching_parent {address : List String} (stands : one.Stands id address)
    (stood : two.Stands ((one.matching two).symbol id) address) (present : one.get? id = some found)
    (held : two.get? ((one.matching two).symbol id) = some later) :
    later.parent = (one.matching two).scope found.parent := by
  by_cases top : id = global
  · rw [stood.eq_nil_iff.mp (stands.eq_nil_iff.mpr top)] at held
    rw [top] at present
    cases present.symm.trans first.mapped.shaped.top
    cases held.symm.trans second.mapped.shaped.top
    exact (first.matching_root second same).symm
  · obtain ⟨around, name, rfl⟩ := stands.exists_name top
    exact (stood.around held).unique (first.matching_scope second same (stands.around present))
      second.mapped.shaped

theorem matching_carries (present : one.get? id = some found)
    (held : two.get? ((one.matching two).symbol id) = some later) :
    (one.matching two).Carries found later := by
  obtain ⟨address, stands⟩ := first.mapped.shaped.exists_stands present
  have stood := first.matching_symbol second same stands
  have twins := first.twins second same stands stood present held
  have params := first.matching_params second same twins present held
  refine ⟨twins.kind, twins.name, first.matching_parent second same stands stood present held,
    twins.locations, params, ?_, ?_, ?_⟩
  · apply eq_map_of_isSome
    · rw [second.node_isSome held, first.node_isSome present, twins.kind]
    · intro node other own own'
      have mine := first.matching_scope second same (first.mapped.shaped.placed_node present own stands)
      have yours := second.mapped.shaped.placed_node held own' stood
      exact Scope.space.inj (yours.unique mine second.mapped.shaped)
  · apply eq_map_of_isSome
    · rw [second.members_isSome held, first.members_isSome present, twins.kind]
    · intro scope other own own'
      have mine := first.matching_scope second same (first.placed_members present own stands)
      have yours := second.placed_members held own' stood
      exact Scope.localScope.inj (yours.unique mine second.mapped.shaped)
  · apply eq_map_of_isSome
    · rw [second.template_isSome held, first.template_isSome present, params]
      simp
    · intro scope other own own'
      have mine := first.matching_scope second same (first.placed_template present own stands)
      have yours := second.placed_template held own' stood
      exact Scope.localScope.inj (yours.unique mine second.mapped.shaped)

/-- Tables with the same entries are the same up to a renaming. -/
theorem matched : one.Matched two (one.matching two) where
  first := first.mapped.shaped
  second := second.mapped.shaped
  symbols := fun _ _ stands => first.matching_symbol second same stands
  scopes := fun _ _ placed => first.matching_scope second same placed
  twins := fun _ _ stands => second.exists_twin first same.symm stands
  places := by
    intro scope address placed
    cases scope with
    | space node =>
      obtain ⟨other, there⟩ := second.exists_space first same.symm placed
      exact ⟨_, there⟩
    | localScope id =>
      obtain ⟨other, there⟩ := second.exists_inner first same.symm placed
      exact ⟨_, there⟩
  carries := fun _ _ _ present held => first.matching_carries second same present held

end Complete

/-! ### Reading two tables -/

theorem Shaped.exists_placed (shaped : table.Shaped) (held : table.HasScope scope) :
    ∃ address, table.Placed scope address := by
  obtain ⟨holder, owned⟩ := (hasScope_iff _).mp held
  obtain ⟨symbol, found, _⟩ := (shaped.scopes _ _).mp owned
  obtain ⟨address, stands⟩ := shaped.exists_stands found
  exact ⟨address, holder, owned, stands⟩

theorem Shaped.hasScope_inner (shaped : table.Shaped) (found : table.get? id = some symbol)
    (inner : symbol.inner? = some scope) : table.HasScope scope :=
  (hasScope_iff _).mpr ⟨id, (shaped.scopes _ _).mpr ⟨symbol, found, inner⟩⟩

namespace Matched
variable {map : Renaming}

section
variable (matched : one.Matched two map)
include matched

theorem symbol_eq (stands : one.Stands id address) (stood : two.Stands other address) :
    map.symbol id = other :=
  matched.second.stands_injective (matched.symbols id address stands) stood

theorem scope_eq (placed : one.Placed scope address) (there : two.Placed other address) :
    map.scope scope = other :=
  (matched.scopes scope address placed).unique there matched.second

theorem symbol_global : map.symbol global = global :=
  matched.symbol_eq .global .global

theorem scope_root : map.scope rootScope = rootScope :=
  matched.scope_eq matched.first.placed_root matched.second.placed_root

theorem symbol_injective (present : one.get? id = some found) (there : one.get? other = some held)
    (same : map.symbol id = map.symbol other) : id = other := by
  obtain ⟨address, stands⟩ := matched.first.exists_stands present
  obtain ⟨path, stood⟩ := matched.first.exists_stands there
  have alike := (matched.symbols id address stands).unique (same ▸ matched.symbols other path stood)
  exact matched.first.stands_injective stands (alike ▸ stood)

theorem get? (present : one.get? id = some found) :
    ∃ later, two.get? (map.symbol id) = some later ∧ map.Carries found later := by
  obtain ⟨address, stands⟩ := matched.first.exists_stands present
  obtain ⟨later, there⟩ := matched.second.present (matched.symbols id address stands)
  exact ⟨later, there, matched.carries id found later present there⟩

theorem symbols_bijOn :
    Set.BijOn map.symbol {id | (one.get? id).isSome} {id | (two.get? id).isSome} := by
  refine ⟨?_, ?_, ?_⟩
  · intro id given
    obtain ⟨found, present⟩ := Option.isSome_iff_exists.mp given
    obtain ⟨later, there, _⟩ := matched.get? present
    exact Option.isSome_iff_exists.mpr ⟨later, there⟩
  · intro id given other given' same
    obtain ⟨found, present⟩ := Option.isSome_iff_exists.mp given
    obtain ⟨held, there⟩ := Option.isSome_iff_exists.mp given'
    exact matched.symbol_injective present there same
  · intro other given
    obtain ⟨later, there⟩ := Option.isSome_iff_exists.mp given
    obtain ⟨address, stood⟩ := matched.second.exists_stands there
    obtain ⟨id, stands⟩ := matched.twins other address stood
    exact ⟨id, Option.isSome_iff_exists.mpr (matched.first.present stands),
      matched.symbol_eq stands stood⟩

theorem hasScope (held : one.HasScope scope) : two.HasScope (map.scope scope) := by
  obtain ⟨address, placed⟩ := matched.first.exists_placed held
  exact (matched.scopes scope address placed).hasScope

theorem scopes_bijOn :
    Set.BijOn map.scope {scope | one.HasScope scope} {scope | two.HasScope scope} := by
  refine ⟨fun _ held => matched.hasScope held, ?_, ?_⟩
  · intro scope held other held' same
    obtain ⟨address, placed⟩ := matched.first.exists_placed held
    obtain ⟨path, there⟩ := matched.first.exists_placed held'
    have alike := (matched.scopes scope address placed).address_unique
      (same ▸ matched.scopes other path there)
    exact placed.unique (alike ▸ there) matched.first
  · intro scope held
    obtain ⟨address, there⟩ := matched.second.exists_placed held
    obtain ⟨earlier, placed⟩ := matched.places scope address there
    exact ⟨earlier, placed.hasScope, matched.scope_eq placed there⟩

/-- A name stands for the same symbol in both tables. -/
theorem binding? (held : one.HasScope scope) (name : String) :
    two.binding? (map.scope scope) name = (one.binding? scope name).map map.symbol := by
  obtain ⟨address, placed⟩ := matched.first.exists_placed held
  obtain ⟨other, owned', stood⟩ := matched.scopes scope address placed
  obtain ⟨holder, owned, stands⟩ := placed
  ext id
  rw [matched.second.binding_iff owned' stood name, Option.map_eq_some_iff]
  constructor
  · intro there
    obtain ⟨earlier, here⟩ := matched.twins id _ there
    exact ⟨earlier, (matched.first.binding_iff owned stands name earlier).mpr here,
      matched.symbol_eq here there⟩
  · rintro ⟨earlier, bound, rfl⟩
    exact matched.symbols _ _ ((matched.first.binding_iff owned stands name earlier).mp bound)

theorem member? (present : one.get? id = some found) (name : String) :
    two.member? (map.symbol id) name = (one.member? id name).map map.symbol := by
  obtain ⟨later, there, carries⟩ := matched.get? present
  simp only [SymbolTable.member?, symbol_of_get? present, symbol_of_get? there, carries.node]
  cases own : found.node with
  | some node =>
    have held : one.HasScope (.space node) :=
      matched.first.hasScope_inner present (by simp [Symbol.inner?, own])
    exact matched.binding? held name
  | none =>
    rw [carries.members]
    cases members : found.membersScope with
    | none => rfl
    | some scope =>
      have held : one.HasScope (.localScope scope) :=
        matched.first.hasScope_inner present (by simp [Symbol.inner?, own, members])
      exact matched.binding? held name

end

/-- A walk from symbol to symbol goes through the same symbols in both tables. -/
theorem foldlM_map (step walk : SymbolId → String → Option SymbolId)
    (same : ∀ id found name, one.get? id = some found →
      walk (map.symbol id) name = (step id name).map map.symbol)
    (stays : ∀ id name next, step id name = some next → ∃ found, one.get? next = some found)
    (names : List String) (present : one.get? start = some found) :
    names.foldlM walk (map.symbol start) = (names.foldlM step start).map map.symbol := by
  induction names generalizing start found with
  | nil => rfl
  | cons name rest ih =>
    rw [List.foldlM_cons, List.foldlM_cons, same start found name present]
    cases stepped : step start name with
    | none => rfl
    | some next =>
      obtain ⟨held, there⟩ := stays start name next stepped
      exact ih there

variable (matched : one.Matched two map)
include matched

theorem member_present {id : SymbolId} (stepped : one.member? id name = some next) :
    ∃ found, one.get? next = some found := by
  obtain ⟨found, there, _⟩ := matched.first.coherent.unshadowed (.of_member stepped)
  exact ⟨found, there⟩

theorem memberPath? (names : List String) :
    two.memberPath? global names = (one.memberPath? global names).map map.symbol := by
  have walked := foldlM_map one.member? two.member? (fun _ _ name present => matched.member? present name)
    (fun _ _ _ stepped => matched.member_present stepped) names matched.first.top
  rwa [matched.symbol_global] at walked

theorem namespacePath? (names : List String) :
    two.namespacePath? names = (one.namespacePath? names).map map.symbol := by
  have same (id : SymbolId) (found : Symbol) (name : String) (present : one.get? id = some found) :
      ((two.member? (map.symbol id) name).filter fun next => (two.symbol next).kind = .space) =
        ((one.member? id name).filter fun next => (one.symbol next).kind = .space).map map.symbol := by
    rw [matched.member? present]
    cases stepped : one.member? id name with
    | none => rfl
    | some next =>
      obtain ⟨held, there⟩ := matched.member_present stepped
      obtain ⟨later, held', carries⟩ := matched.get? there
      by_cases kind : held.kind = .space
      · simp [Option.filter_some, symbol_of_get? there, symbol_of_get? held', carries.kind, kind]
      · simp [Option.filter_some, symbol_of_get? there, symbol_of_get? held', carries.kind, kind]
  have walked := foldlM_map
    (fun id name => (one.member? id name).filter fun next => (one.symbol next).kind = .space)
    (fun id name => (two.member? id name).filter fun next => (two.symbol next).kind = .space) same
    (fun _ _ _ stepped => matched.member_present (Option.filter_eq_some_iff.mp stepped).1) names
    matched.first.top
  rwa [matched.symbol_global] at walked

end Matched

end SymbolTable

end Idl
