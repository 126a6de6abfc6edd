import Idl.Proofs.SymbolAddresses

/-! The entries of a table. A declaration is an entry at the address of what it
declares, and only the blocks of a namespace may share an address. A table records a
list of entries if each stands for the symbol at its address and each symbol is what
the entries at its address say. Nothing in this depends on the order of the list. -/
namespace Idl

/-- No two entries claim one address, unless both open a namespace. -/
def Compatible (entries : List Entry) : Prop :=
  entries.Pairwise fun one two => one.address = two.address → one.kind = .space ∧ two.kind = .space

theorem Compatible.perm (same : entries.Perm other) : Compatible entries ↔ Compatible other :=
  same.pairwise_iff fun both address => (both address.symm).symm

theorem Compatible.of_append (compatible : Compatible (entries ++ more)) : Compatible entries :=
  (List.pairwise_append.mp compatible).1

theorem Compatible.concat (compatible : Compatible entries)
    (apart : ∀ other ∈ entries, other.address = entry.address →
      other.kind = .space ∧ entry.kind = .space) : Compatible (entries ++ [entry]) := by
  refine List.pairwise_append.mpr ⟨compatible, List.pairwise_singleton .., ?_⟩
  intro other mem one last
  rw [List.mem_singleton.mp last]
  exact apart other mem

theorem getElem?_concat_iff (l : List α) (last : α) (index : Nat) (one : α) :
    (l ++ [last])[index]? = some one ↔ l[index]? = some one ∨ index = l.length ∧ one = last := by
  by_cases inside : index < l.length
  · rw [List.getElem?_append_left inside]
    simp [Nat.ne_of_lt inside]
  · have outside : l.length ≤ index := Nat.le_of_not_lt inside
    rw [List.getElem?_append_right outside, List.getElem?_eq_none outside, List.getElem?_singleton]
    by_cases here : index = l.length
    · simp [here, eq_comm]
    · simp [here, Nat.sub_ne_zero_of_lt (Nat.lt_of_le_of_ne outside (Ne.symm here))]

namespace SymbolTable
variable {id : SymbolId}
variable {table : SymbolTable}

/-- The entries at an address are those of the symbol that stands there. -/
structure Recorded (entries : List Entry) (table : SymbolTable) : Prop where
  compatible : Compatible entries
  listed : ∀ entry ∈ entries, ∃ id symbol, table.get? id = some symbol ∧ id ≠ global ∧
    table.Stands id entry.address ∧ symbol.kind = entry.kind
  located : ∀ id symbol address, table.get? id = some symbol → id ≠ global →
    table.Stands id address → symbol.declarations ≠ [] ∧
      (symbol.declarations.map (·.location)).Perm
        ((entries.filter (·.address = address)).map (·.location))

/-- An entry below an address makes a symbol the template parameter with a place. -/
def IsParam (entries : List Entry) (table : SymbolTable) (address : List String) (position : Nat)
    (param : SymbolId) : Prop :=
  ∃ entry ∈ entries, entry.kind = .templateParameter ∧ entry.position = position ∧
    (∃ name, entry.address = address ++ [name]) ∧ table.Stands param entry.address

/-- The template parameters of a symbol are the entries below it, each at its place. -/
def Parameters (entries : List Entry) (table : SymbolTable) : Prop :=
  ∀ id symbol address, table.get? id = some symbol → table.Stands id address →
    ∀ position param, symbol.templateParams[position]? = some param ↔
      table.IsParam entries address position param

namespace Recorded

variable {symbol : Symbol}
variable (recorded : table.Recorded entries)
include recorded

/-- Where nothing stands there are no entries. -/
theorem vacant (free : ∀ id, ¬ table.Stands id address) :
    ∀ entry ∈ entries, entry.address ≠ address := by
  rintro entry mem rfl
  obtain ⟨id, _, _, _, stands, _⟩ := recorded.listed entry mem
  exact free id stands

/-- A symbol is of the kind that each entry at its address says. -/
theorem kind (shaped : table.Shaped) (mem : entry ∈ entries)
    (found : table.get? id = some symbol) (stands : table.Stands id entry.address) :
    symbol.kind = entry.kind := by
  obtain ⟨other, present, held, _, same, kind⟩ := recorded.listed entry mem
  obtain rfl := shaped.stands_injective stands same
  cases found.symm.trans held
  exact kind

/-- Each symbol has an entry. -/
theorem exists_entry (found : table.get? id = some symbol) (other : id ≠ global)
    (stands : table.Stands id address) : ∃ entry ∈ entries, entry.address = address := by
  obtain ⟨declared, same⟩ := recorded.located id symbol address found other stands
  have some : (entries.filter (·.address = address)).map (·.location) ≠ [] := by
    intro none
    rw [none] at same
    exact declared (List.map_eq_nil_iff.mp same.eq_nil)
  obtain ⟨entry, mem⟩ := List.exists_mem_of_ne_nil _ (mt List.map_eq_nil_iff.mpr some)
  obtain ⟨listed, there⟩ := List.mem_filter.mp mem
  exact ⟨entry, listed, by simpa using there⟩

/-- An entry where another symbol stands clashes with those of that symbol, unless both are
namespaces. -/
theorem clash (shaped : table.Shaped) (found : table.get? id = some symbol) (other : id ≠ global)
    (stands : table.Stands id entry.address)
    (apart : ¬ (symbol.kind = .space ∧ entry.kind = .space)) :
    ¬ Compatible (entries ++ [entry]) := by
  obtain ⟨earlier, mem, same⟩ := recorded.exists_entry found other stands
  rw [recorded.kind shaped mem found (same ▸ stands)] at apart
  intro compatible
  have pairs := (List.pairwise_append.mp compatible).2.2
  exact apart (pairs earlier mem entry (List.mem_singleton_self _) same)

/-- A new symbol adds its entry. -/
theorem add (shaped : table.Shaped) (adds : table.Adds after symbol)
    (held : table.holder? symbol.parent = some holder) (stands : table.Stands holder address)
    (free : table.binding? symbol.parent symbol.name = none)
    (there : entry.address = address ++ [symbol.name]) (kind : entry.kind = symbol.kind)
    (written : symbol.declarations.map (·.location) = [entry.location]) :
    after.Recorded (entries ++ [entry]) := by
  have empty : ∀ id, ¬ table.Stands id entry.address := by
    intro id stood
    rw [there, ← shaped.binding_iff held stands, free] at stood
    cases stood
  have other : (⟨table.size⟩ : SymbolId) ≠ global := (ne_size shaped.top).symm
  have new : after.Stands ⟨table.size⟩ entry.address := by
    rw [there]
    exact .inside adds.gains.new other (adds.keeps.holders _ _ held) (stands.keep adds.keeps)
  constructor
  · exact recorded.compatible.concat fun old mem same => absurd same (recorded.vacant empty old mem)
  · intro one mem
    rcases List.mem_append.mp mem with old | last
    · obtain ⟨id, found, present, different, stood, kinds⟩ := recorded.listed one old
      exact ⟨id, found, adds.gains.kept present, different, stood.keep adds.keeps, kinds⟩
    · rw [List.mem_singleton.mp last]
      exact ⟨_, symbol, adds.gains.new, other, new, kind.symm⟩
  · intro id found path present different stood
    rw [adds.gains.symbols] at present
    rw [List.filter_append, List.map_append]
    split at present
    · rename_i fresh
      cases present
      obtain rfl := stood.unique (fresh ▸ new)
      constructor
      · intro none
        simp [none] at written
      · rw [List.filter_eq_nil_iff.mpr (by simpa using recorded.vacant empty), written]
        simp
    · have before := shaped.stands_back adds.keeps present stood
      have apart : entry.address ≠ path := by
        rintro rfl
        exact empty id before
      have same := recorded.located id found path present different before
      simpa [apart] using same

/-- Entries stay what they are while symbols keep their kinds and declarations. -/
theorem same (shaped : table.Shaped) (keeps : table.Keeps after)
    (symbols : ∀ id, (after.get? id).map (fun symbol => (symbol.kind, symbol.declarations)) =
      (table.get? id).map fun symbol => (symbol.kind, symbol.declarations)) :
    after.Recorded entries := by
  constructor
  · exact recorded.compatible
  · intro entry mem
    obtain ⟨id, symbol, found, other, stands, kind⟩ := recorded.listed entry mem
    have alike := symbols id
    rw [found] at alike
    obtain ⟨later, present, both⟩ := Option.map_eq_some_iff.mp alike
    exact ⟨id, later, present, other, stands.keep keeps, (congrArg Prod.fst both).trans kind⟩
  · intro id later address found other stands
    have alike := symbols id
    rw [found] at alike
    obtain ⟨symbol, present, both⟩ := Option.map_eq_some_iff.mp alike.symm
    have declared : later.declarations = symbol.declarations := (congrArg Prod.snd both).symm
    rw [declared]
    exact recorded.located id symbol address present other (shaped.stands_back keeps present stands)

/-- A block of a namespace that is there adds its entry. -/
theorem merge (shaped : table.Shaped) (found : table.get? existing = some symbol)
    (other : existing ≠ global) (kind : symbol.kind = .space)
    (stands : table.Stands existing entry.address) (space : entry.kind = .space)
    (written : declaration.location = entry.location) :
    (table.addDeclaration existing (some declaration)).Recorded (entries ++ [entry]) := by
  have keeps : table.Keeps (table.addDeclaration existing (some declaration)) :=
    (Retains.addDeclaration other _).keeps
  have symbols (id : SymbolId) : (table.addDeclaration existing (some declaration)).get? id =
      if id = existing then
        some { symbol with declarations := symbol.declarations ++ [declaration] }
      else table.get? id := by
    rw [addDeclaration, get?_modifySymbol, found]
    rfl
  constructor
  · refine recorded.compatible.concat fun old mem same => ⟨?_, space⟩
    rw [← recorded.kind shaped mem found (same ▸ stands), kind]
  · intro one mem
    rcases List.mem_append.mp mem with old | last
    · obtain ⟨id, held, present, different, stood, kinds⟩ := recorded.listed one old
      by_cases here : id = existing
      · subst here
        cases present.symm.trans found
        exact ⟨id, _, (symbols id).trans (if_pos rfl), different, stood.keep keeps, kinds⟩
      · exact ⟨id, held, (symbols id).trans (by rw [if_neg here, present]), different,
          stood.keep keeps, kinds⟩
    · rw [List.mem_singleton.mp last]
      exact ⟨existing, _, (symbols existing).trans (if_pos rfl), other, stands.keep keeps,
        kind.trans space.symm⟩
  · intro id held path present different stood
    rw [symbols] at present
    rw [List.filter_append, List.map_append]
    split at present
    · rename_i here
      subst here
      cases present
      obtain rfl := stood.unique (stands.keep keeps)
      obtain ⟨_, same⟩ := recorded.located id symbol _ found different stands
      refine ⟨by simp, ?_⟩
      simpa [written] using same.append_right [entry.location]
    · rename_i elsewhere
      have before := shaped.stands_back keeps present stood
      have apart : entry.address ≠ path := by
        rintro rfl
        exact elsewhere (shaped.stands_injective before stands)
      have same := recorded.located id held path present different before
      simpa [apart] using same

theorem isParam_iff (keeps : table.Keeps after) (shaped : after.Shaped) (address : List String)
    (position : Nat) (param : SymbolId) :
    after.IsParam entries address position param ↔ table.IsParam entries address position param := by
  constructor
  · rintro ⟨entry, mem, kind, place, below, later⟩
    -- the address of an entry stays that of the symbol that it belongs to
    obtain ⟨other, _, _, _, stands, _⟩ := recorded.listed entry mem
    obtain rfl := shaped.stands_injective later (stands.keep keeps)
    exact ⟨entry, mem, kind, place, below, stands⟩
  · rintro ⟨entry, mem, kind, place, below, stands⟩
    exact ⟨entry, mem, kind, place, below, stands.keep keeps⟩

end Recorded

/-! ### Template parameters -/

theorem isParam_append (entry : Entry) (address : List String) (position : Nat) (param : SymbolId) :
    table.IsParam (entries ++ [entry]) address position param ↔
      table.IsParam entries address position param ∨ table.IsParam [entry] address position param := by
  simp [IsParam, or_and_right, exists_or]

namespace Parameters

theorem same (params : table.Parameters entries) (recorded : table.Recorded entries)
    (shaped : table.Shaped) (keeps : table.Keeps after) (shaped' : after.Shaped)
    (symbols : ∀ id, (after.get? id).map (·.templateParams) = (table.get? id).map (·.templateParams)) :
    after.Parameters entries := by
  intro id later address found stands position param
  have alike := symbols id
  rw [found] at alike
  obtain ⟨symbol, present, listed⟩ := Option.map_eq_some_iff.mp alike.symm
  have same : later.templateParams = symbol.templateParams := listed.symm
  rw [same, params id symbol address present (shaped.stands_back keeps present stands),
    recorded.isParam_iff keeps shaped']

/-- A new symbol changes nothing for the others, unless it is a parameter of one. -/
theorem others (params : table.Parameters entries) (recorded : table.Recorded entries)
    (shaped : table.Shaped) (shaped' : after.Shaped) {symbol : Symbol}
    (adds : table.Adds after symbol) (held : table.holder? symbol.parent = some holder)
    (stands : table.Stands holder address) (free : table.binding? symbol.parent symbol.name = none)
    (there : entry.address = address ++ [symbol.name]) (plain : symbol.templateParams = [])
    {id : SymbolId} (present : after.get? id = some found) (stood : after.Stands id path)
    (apart : entry.kind = .templateParameter → id ≠ holder) (position : Nat) (param : SymbolId) :
    found.templateParams[position]? = some param ↔
      after.IsParam (entries ++ [entry]) path position param := by
  have empty : ∀ id, ¬ table.Stands id entry.address := by
    intro id stood
    rw [there, ← shaped.binding_iff held stands, free] at stood
    cases stood
  have foreign : ¬ after.IsParam [entry] path position param := by
    rintro ⟨one, mem, kind, _, ⟨name, below⟩, _⟩
    obtain rfl := List.mem_singleton.mp mem
    obtain ⟨rfl, _⟩ := List.append_inj' (there.symm.trans below) rfl
    exact apart kind (shaped'.stands_injective stood (stands.keep adds.keeps))
  rw [isParam_append, or_iff_left foreign, recorded.isParam_iff adds.keeps shaped']
  rw [adds.gains.symbols] at present
  split at present
  · rename_i new
    cases present
    have here : path = entry.address := by
      rw [there]
      refine stood.unique (new ▸ .inside adds.gains.new (ne_size shaped.top).symm
        (adds.keeps.holders _ _ held) (stands.keep adds.keeps))
    constructor
    · intro some
      simp [plain] at some
    · rintro ⟨one, mem, _, _, ⟨name, below⟩, _⟩
      -- What stands below the new address would need a symbol there before.
      obtain ⟨inner, _, _, _, inside, _⟩ := recorded.listed one mem
      generalize one.address = whole at below inside
      cases inside with
      | global => simp at below
      | inside _ _ _ outer =>
        obtain ⟨rfl, _⟩ := List.append_inj' below rfl
        exact absurd (here ▸ outer) (empty _)
  · exact params id found path present (shaped.stands_back adds.keeps present stood) position param

end Parameters

/-! ### A table and its entries -/

/-- A table in which each name was had, as its entries say. -/
structure Mapped (entries : List Entry) (table : SymbolTable) : Prop where
  shaped : table.Shaped
  recorded : table.Recorded entries
  params : table.Parameters entries

/-- A scope belongs to the symbol at an address. -/
def Placed (table : SymbolTable) (scope : Scope) (address : List String) : Prop :=
  ∃ holder, table.holder? scope = some holder ∧ table.Stands holder address

theorem Placed.keep (placed : table.Placed scope address) (keeps : table.Keeps after) :
    after.Placed scope address := by
  obtain ⟨holder, held, stands⟩ := placed
  exact ⟨holder, keeps.holders _ _ held, stands.keep keeps⟩

theorem Placed.hasScope (placed : table.Placed scope address) : table.HasScope scope := by
  obtain ⟨holder, held, _⟩ := placed
  exact (hasScope_iff table).mpr ⟨holder, held⟩

/-- The scope of a symbol belongs to the address of the symbol. -/
theorem Shaped.placed_inner (shaped : table.Shaped) {symbol : Symbol}
    (found : table.get? id = some symbol) (inner : symbol.inner? = some scope)
    (stands : table.Stands id address) : table.Placed scope address :=
  ⟨id, (shaped.scopes _ _).mpr ⟨symbol, found, inner⟩, stands⟩

theorem Shaped.placed_node (shaped : table.Shaped) {symbol : Symbol}
    (found : table.get? id = some symbol) (own : symbol.node = some node)
    (stands : table.Stands id address) : table.Placed (.space node) address :=
  shaped.placed_inner found (by simp [Symbol.inner?, own]) stands

theorem Shaped.placed_root (shaped : table.Shaped) : table.Placed rootScope [] :=
  shaped.placed_inner shaped.top rfl .global

/-- One scope at most belongs to an address. -/
theorem Placed.unique (first : table.Placed one address) (second : table.Placed two address)
    (shaped : table.Shaped) : one = two := by
  obtain ⟨holder, held, stands⟩ := first
  obtain ⟨other, held', stands'⟩ := second
  obtain rfl := shaped.stands_injective stands stands'
  exact shaped.scope_unique held held'

/-- A name that is taken in a scope belongs to a symbol there. -/
theorem Placed.occupied (placed : table.Placed scope address) (shaped : table.Shaped)
    (bound : table.binding? scope name = some id) :
    ∃ symbol, table.get? id = some symbol ∧ id ≠ global ∧ table.Stands id (address ++ [name]) := by
  obtain ⟨holder, held, stands⟩ := placed
  have stood := (shaped.binding_iff held stands name id).mp bound
  obtain ⟨symbol, found⟩ := shaped.present stood
  exact ⟨symbol, found, mt stood.eq_nil_iff.mpr (by simp), stood⟩

namespace Mapped

variable {symbol : Symbol}
variable (mapped : table.Mapped entries)
include mapped

theorem add (adds : table.Adds after symbol) (placed : table.Placed symbol.parent address)
    (coherent : after.Coherent) (free : table.binding? symbol.parent symbol.name = none)
    (there : entry.address = address ++ [symbol.name]) (kind : entry.kind = symbol.kind)
    (written : symbol.declarations.map (·.location) = [entry.location])
    (plain : symbol.templateParams = []) (other : entry.kind ≠ .templateParameter) :
    after.Mapped (entries ++ [entry]) := by
  obtain ⟨holder, held, stands⟩ := placed
  have shaped := mapped.shaped.add adds held coherent
  refine ⟨shaped, mapped.recorded.add mapped.shaped adds held stands free there kind written, ?_⟩
  intro id found path present stood
  exact mapped.params.others mapped.recorded mapped.shaped shaped adds held stands free there plain
    present stood fun param => absurd param other

/-- A change of a symbol that leaves its declarations and parameters alone. -/
theorem modify {id : SymbolId} (other : id ≠ global)
    (keeps : ∀ symbol, outline (change symbol) = outline symbol)
    (declared : ∀ symbol, (change symbol).declarations = symbol.declarations)
    (listed : ∀ symbol, (change symbol).templateParams = symbol.templateParams) :
    (table.modifySymbol id change).Mapped entries := by
  have retains : table.Retains (table.modifySymbol id change) := .modify other keeps
  have shaped := mapped.shaped.retain retains
  have kind (symbol : Symbol) : (change symbol).kind = symbol.kind :=
    congrArg (fun o => o.1.kind) (keeps symbol)
  refine ⟨shaped, mapped.recorded.same mapped.shaped retains.keeps fun place => ?_,
    mapped.params.same mapped.recorded mapped.shaped retains.keeps shaped fun place => ?_⟩
  · rw [get?_modifySymbol]
    split
    · rename_i same
      simp [same, Function.comp_def, kind, declared]
    · rfl
  · rw [get?_modifySymbol]
    split
    · rename_i same
      simp [same, Function.comp_def, listed]
    · rfl

theorem opened (opens : table.Opens after owner symbol later kind)
    (declared : later.declarations = symbol.declarations)
    (listed : later.templateParams = symbol.templateParams) : after.Mapped entries := by
  have shaped := mapped.shaped.opened opens
  have kind : later.kind = symbol.kind := congrArg Core.kind opens.cores
  refine ⟨shaped, mapped.recorded.same mapped.shaped opens.keeps fun place => ?_,
    mapped.params.same mapped.recorded mapped.shaped opens.keeps shaped fun place => ?_⟩
  · rw [opens.symbols]
    split
    · rename_i same
      simp [same, opens.found, kind, declared]
    · rfl
  · rw [opens.symbols]
    split
    · rename_i same
      simp [same, opens.found, listed]
    · rfl

theorem merge (found : table.get? existing = some symbol) (other : existing ≠ global)
    (kind : symbol.kind = .space) (stands : table.Stands existing entry.address)
    (space : entry.kind = .space) (written : declaration.location = entry.location) :
    (table.addDeclaration existing (some declaration)).Mapped (entries ++ [entry]) := by
  have retains : table.Retains (table.addDeclaration existing (some declaration)) :=
    .addDeclaration other _
  have shaped := mapped.shaped.retain retains
  refine ⟨shaped, mapped.recorded.merge mapped.shaped found other kind stands space written, ?_⟩
  have same := mapped.params.same mapped.recorded mapped.shaped retains.keeps shaped fun place => by
    rw [addDeclaration, get?_modifySymbol]
    split
    · rename_i same
      simp [same, Function.comp_def]
    · rfl
  intro id later address present stood position param
  have foreign : ¬ IsParam [entry] (table.addDeclaration existing (some declaration)) address
      position param := by
    rintro ⟨one, mem, kind, _⟩
    rw [List.mem_singleton.mp mem, space] at kind
    cases kind
  rw [same id later address present stood, isParam_append, or_iff_left foreign]

/-- A namespace that is new adds its entry, and is entered. -/
theorem newSpace (placed : table.Placed (.space parent) address) (adds : table.Adds after
      { id := ⟨table.size⟩, name, kind := .space, parent := .space parent,
        node := some ⟨table.tree.size⟩, declarations := [declaration] }) (coherent : after.Coherent)
    (free : table.binding? (.space parent) name = none) :
    after.Mapped (entries ++ [⟨address ++ [name], .space, declaration.location, 0⟩]) ∧
      after.Placed (.space ((after.symbol ⟨table.size⟩).node.getD parent)) (address ++ [name]) := by
  have later : after.Mapped (entries ++ [⟨address ++ [name], .space, declaration.location, 0⟩]) :=
    mapped.add adds placed coherent free rfl rfl rfl rfl (by simp)
  obtain ⟨holder, owned, stands⟩ := placed
  have new : after.Stands ⟨table.size⟩ (address ++ [name]) :=
    .inside adds.gains.new (ne_size mapped.shaped.top).symm (adds.keeps.holders _ _ owned)
      (stands.keep adds.keeps)
  refine ⟨later, later.shaped.placed_node adds.gains.new ?_ new⟩
  rw [symbol_of_get? adds.gains.new]
  rfl

/-- A namespace that is there is entered again. -/
theorem mergeSpace {parent : NamespaceId} (placed : table.Placed (.space parent) address)
    (bound : table.binding? (.space parent) name = some existing)
    (kind : (table.symbol existing).kind = .space) (declaration : Declaration) :
    (table.addDeclaration existing (some declaration)).Mapped
        (entries ++ [⟨address ++ [name], .space, declaration.location, 0⟩]) ∧
      table.Keeps (table.addDeclaration existing (some declaration)) ∧
      (table.addDeclaration existing (some declaration)).Placed (.space
        (((table.addDeclaration existing (some declaration)).symbol existing).node.getD parent))
          (address ++ [name]) := by
  obtain ⟨symbol, found, other, stood⟩ := placed.occupied mapped.shaped bound
  rw [symbol_of_get? found] at kind
  obtain ⟨node, _, own, _⟩ := mapped.shaped.coherent.spaces existing symbol found kind
  have keeps : table.Keeps (table.addDeclaration existing (some declaration)) :=
    (Retains.addDeclaration other _).keeps
  have later : (table.addDeclaration existing (some declaration)).Mapped
      (entries ++ [⟨address ++ [name], .space, declaration.location, 0⟩]) :=
    mapped.merge found other kind stood rfl rfl
  have present : (table.addDeclaration existing (some declaration)).get? existing =
      some { symbol with declarations := symbol.declarations ++ [declaration] } := by
    rw [addDeclaration, get?_modifySymbol, if_pos rfl, found]
    rfl
  refine ⟨later, keeps, later.shaped.placed_node present ?_ (stood.keep keeps)⟩
  simp [symbol_of_get? present, own]

/-- A template parameter is declared in the scope of its owner and listed after the others. -/
theorem addParam (adds : table.Adds after symbol) (held : table.holder? symbol.parent = some owner)
    (stands : table.Stands owner address) (present : table.get? owner = some found)
    (coherent : after.Coherent) (free : table.binding? symbol.parent symbol.name = none)
    (there : entry.address = address ++ [symbol.name]) (kind : entry.kind = symbol.kind)
    (written : symbol.declarations.map (·.location) = [entry.location])
    (plain : symbol.templateParams = []) (param : entry.kind = .templateParameter)
    (last : entry.position = found.templateParams.length) (other : owner ≠ global) :
    (after.modifySymbol owner fun s => { s with templateParams := s.templateParams ++ [⟨table.size⟩] }).Mapped
      (entries ++ [entry]) := by
  have shaped := mapped.shaped.add adds held coherent
  have recorded := mapped.recorded.add mapped.shaped adds held stands free there kind written
  generalize listed : after.modifySymbol owner (fun s =>
    { s with templateParams := s.templateParams ++ [⟨table.size⟩] }) = final
  have retains : after.Retains final := listed ▸ .modify other fun _ => rfl
  have shaped' := shaped.retain retains
  have symbols (id : SymbolId) : final.get? id = if id = owner then
      some { found with templateParams := found.templateParams ++ [⟨table.size⟩] }
      else after.get? id := by
    rw [← listed, get?_modifySymbol, adds.gains.kept present]
    rfl
  refine ⟨shaped', recorded.same shaped retains.keeps fun id => ?_, ?_⟩
  · rw [symbols]
    split
    · rename_i same
      rw [same, adds.gains.kept present]
      rfl
    · rfl
  · intro id later path there' stood position one
    rw [recorded.isParam_iff retains.keeps shaped']
    rw [symbols] at there'
    split at there'
    · rename_i same
      subst same
      cases there'
      obtain rfl := stood.unique ((stands.keep adds.keeps).keep retains.keeps)
      have new : after.Stands ⟨table.size⟩ entry.address := by
        rw [there]
        exact .inside adds.gains.new (ne_size mapped.shaped.top).symm (adds.keeps.holders _ _ held)
          (stands.keep adds.keeps)
      have added : after.IsParam [entry] path position one ↔
          position = found.templateParams.length ∧ one = ⟨table.size⟩ := by
        constructor
        · rintro ⟨_, mem, _, place, _, stood⟩
          rw [List.mem_singleton.mp mem] at place stood
          exact ⟨place.symm.trans last, shaped.stands_injective stood new⟩
        · rintro ⟨place, rfl⟩
          exact ⟨entry, List.mem_singleton_self _, param, last.trans place.symm, ⟨_, there⟩, new⟩
      rw [isParam_append, added, mapped.recorded.isParam_iff adds.keeps shaped,
        ← mapped.params id found path present stands]
      exact getElem?_concat_iff ..
    · rename_i elsewhere
      exact mapped.params.others mapped.recorded mapped.shaped shaped adds held stands free there plain
        there' (shaped.stands_back retains.keeps there' stood) (fun _ => elsewhere) position one

end Mapped

end SymbolTable

/-! ### Usings that are written -/

/-- A `using` as it stands in a text. -/
structure Usage where
  /-- The address of the namespace in which it stands. -/
  space : List String
  path : List String
  location : Location

mutual

/-- The usings of an item that stands in a namespace. -/
def Item.uses (file : FileId) (around : List String) : Item → List Usage
  | .space head items =>
    if head.path.isEmpty then [] else itemUses file (around ++ head.path.map (·.name)) items
  | .using decl => [⟨around, decl.path.map (·.name), ⟨file, decl.span⟩⟩]
  | .model _ | .operation _ | .interface _ => []

def itemUses (file : FileId) (around : List String) : List Item → List Usage
  | [] => []
  | item :: rest => item.uses file around ++ itemUses file around rest

end

def programUses (scripts : List Script) : List Usage :=
  scripts.flatMap fun script => itemUses script.file [] script.items

end Idl
