import Idl.Proofs.LosslessTokens
import Idl.Proofs.ReadingRounds
import Idl.Proofs.ShadowedNames
import Mathlib.Algebra.GroupWithZero.Nat

/-! The names and scopes of a bound program. Binding makes its table by the calls that
keep names and marks in agreement. It gives every interface one scope for its
operations and nothing else such a scope, and every name it declares is a word of one
of the texts. -/
namespace Idl

namespace SymbolTable
variable {symbol : Symbol}
variable {table : SymbolTable} {word : String → Prop}

/-! ### Scopes of interfaces -/

/-- An interface in a namespace and the scope of its operations belong to each other. -/
structure Homes (table : SymbolTable) : Prop where
  owned : ∀ scope owner parent, table.localFrame? scope = some (.interface owner, parent) →
    ∃ symbol node, table.get? owner = some symbol ∧ symbol.kind = .interface ∧
      symbol.parent = .space node ∧ symbol.membersScope = some scope
  attached : ∀ id symbol scope, table.get? id = some symbol → symbol.membersScope = some scope →
    ∃ parent, table.localFrame? scope = some (.interface id, parent)

/-- No interface gets a scope or loses it. -/
structure Quiet (before after : SymbolTable) : Prop where
  kept : ∀ id symbol, before.get? id = some symbol → ∃ later, after.get? id = some later ∧
    later.kind = symbol.kind ∧ later.parent = symbol.parent ∧
      later.membersScope = symbol.membersScope
  attached : ∀ id later scope, after.get? id = some later → later.membersScope = some scope →
    ∃ symbol, before.get? id = some symbol ∧ symbol.membersScope = some scope
  scopes : ∀ scope owner parent, after.localFrame? scope = some (.interface owner, parent) ↔
    before.localFrame? scope = some (.interface owner, parent)

theorem Homes.quiet (homes : table.Homes) (quiet : table.Quiet after) : after.Homes where
  owned := by
    intro scope owner parent framed
    obtain ⟨symbol, node, found, kind, around, members⟩ :=
      homes.owned scope owner parent ((quiet.scopes ..).mp framed)
    obtain ⟨later, kept, kinds, places, same⟩ := quiet.kept owner symbol found
    exact ⟨later, node, kept, kinds.trans kind, places.trans around, same.trans members⟩
  attached := by
    intro id later scope found members
    obtain ⟨symbol, earlier, same⟩ := quiet.attached id later scope found members
    obtain ⟨parent, framed⟩ := homes.attached id symbol scope earlier same
    exact ⟨parent, (quiet.scopes ..).mpr framed⟩

theorem Quiet.of_gains (gains : table.Gains after symbol) (loose : symbol.membersScope = none)
    (locals : after.localFrame? = table.localFrame?) : table.Quiet after where
  kept := fun _ found present => ⟨found, gains.kept present, rfl, rfl, rfl⟩
  attached := by
    intro id later scope found members
    rw [gains.symbols] at found
    split at found
    · cases found
      cases loose.symm.trans members
    · exact ⟨later, found, members⟩
  scopes := by simp [locals]

/-- A change that leaves the place of a symbol and its scope alone. -/
def Harmless (change : Symbol → Symbol) : Prop :=
  ∀ symbol, core (change symbol) = core symbol ∧ (change symbol).membersScope = symbol.membersScope

theorem Quiet.modify (id : SymbolId) (harmless : Harmless change) :
    table.Quiet (table.modifySymbol id change) where
  kept := by
    intro other symbol found
    rw [get?_modifySymbol]
    split
    · rename_i same
      rw [← same, found]
      obtain ⟨place, members⟩ := harmless symbol
      exact ⟨_, rfl, congrArg Core.kind place, congrArg Core.parent place, members⟩
    · exact ⟨symbol, found, rfl, rfl, rfl⟩
  attached := by
    intro other later scope found members
    rw [get?_modifySymbol] at found
    split at found
    · rename_i same
      obtain ⟨symbol, present, rfl⟩ := Option.map_eq_some_iff.mp found
      rw [same]
      exact ⟨symbol, present, (harmless symbol).2.symm.trans members⟩
    · exact ⟨later, found, members⟩
  scopes := by
    rw [(SameScopes.of_eq (tree_modifySymbol ..) (locals_modifySymbol ..)).locals]
    simp

theorem Quiet.trans {first : SymbolTable} (one : first.Quiet second) (two : second.Quiet third) :
    first.Quiet third where
  kept := by
    intro id symbol found
    obtain ⟨middle, present, kind, parent, members⟩ := one.kept id symbol found
    obtain ⟨last, kept, kind', parent', members'⟩ := two.kept id middle present
    exact ⟨last, kept, kind'.trans kind, parent'.trans parent, members'.trans members⟩
  attached := by
    intro id later scope found members
    obtain ⟨middle, present, same⟩ := two.attached id later scope found members
    exact one.attached id middle scope present same
  scopes := fun scope owner parent => (two.scopes scope owner parent).trans (one.scopes ..)

theorem localFrame?_push :
    { table with locals := table.locals.push { kind, parent } }.localFrame? scope =
      if scope = ⟨table.locals.size⟩ then some (kind, parent) else table.localFrame? scope := by
  rw [localFrame?, local?_push]
  split <;> rfl

theorem localFrame?_size (table : SymbolTable) : table.localFrame? ⟨table.locals.size⟩ = none := by
  simp [localFrame?, local?]

/-- The scope of template parameters is none of an interface. -/
theorem Quiet.openTemplate (owner : SymbolId) (parent : Scope) :
    table.Quiet (table.createLocalScope (.templateParameters owner) parent).2 := by
  have pushed : table.Quiet
      { table with locals := table.locals.push ⟨.templateParameters owner, parent, {}⟩ } := by
    refine ⟨fun _ symbol found => ⟨symbol, found, rfl, rfl, rfl⟩,
      fun _ later _ found members => ⟨later, found, members⟩, fun scope other place => ?_⟩
    rw [localFrame?_push]
    split
    · rename_i new
      simp [new, localFrame?_size]
    · rfl
  exact pushed.trans (.modify owner fun _ => ⟨rfl, rfl⟩)

theorem localFrame?_openInterface (table : SymbolTable) (owner : SymbolId) (parent : Scope)
    (scope : LocalScopeId) :
    (table.createLocalScope (.interface owner) parent).2.localFrame? scope =
      if scope = ⟨table.locals.size⟩ then some (.interface owner, parent)
      else table.localFrame? scope := by
  rw [← localFrame?_push]
  exact congrFun (SameScopes.of_eq (tree_modifySymbol ..) (locals_modifySymbol ..)).locals scope

theorem get?_openInterface (found : table.get? owner = some symbol) (parent : Scope)
    (id : SymbolId) :
    (table.createLocalScope (.interface owner) parent).2.get? id =
      if id = owner then some { symbol with membersScope := some ⟨table.locals.size⟩ }
      else table.get? id := by
  refine (get?_modifySymbol ..).trans ?_
  split
  · exact congrArg (Option.map _) found
  · rfl

/-- The one step that is not quiet: an interface without a scope gets a new one. -/
theorem Homes.openInterface (homes : table.Homes) (found : table.get? owner = some symbol)
    (kind : symbol.kind = .interface) (around : symbol.parent = .space node)
    (loose : symbol.membersScope = none) (parent : Scope) :
    (table.createLocalScope (.interface owner) parent).2.Homes where
  owned := by
    intro scope holder place framed
    rw [localFrame?_openInterface] at framed
    simp only [get?_openInterface found]
    split at framed
    · rename_i new
      cases framed
      exact ⟨_, node, if_pos rfl, kind, around, by rw [new]⟩
    · obtain ⟨other, space, present, facts⟩ := homes.owned scope holder place framed
      refine ⟨other, space, ?_, facts⟩
      rw [if_neg, present]
      -- The owner of another scope has that scope, and the new owner has none.
      rintro rfl
      cases found.symm.trans present
      rw [loose] at facts
      cases facts.2.2
  attached := by
    intro id later scope present members
    rw [get?_openInterface found] at present
    rw [localFrame?_openInterface]
    split at present
    · rename_i same
      cases present
      cases members
      rw [if_pos rfl, same]
      exact ⟨parent, rfl⟩
    · obtain ⟨place, framed⟩ := homes.attached id later scope present members
      rw [if_neg, framed]
      · exact ⟨place, rfl⟩
      · rintro rfl
        rw [localFrame?_size] at framed
        cases framed

/-! ### Bound tables -/

/-- A symbol may have its name in a scope. -/
def Admits (table : SymbolTable) : Scope → SymbolId → Prop
  | .space _, id => ∃ symbol, table.get? id = some symbol ∧ symbol.kind ≠ .templateParameter
  | .localScope place, id => ∀ frame, table.localFrame? place = some frame → frame.1.Admits table id

theorem localFrame?_of_local {id : LocalScopeId} (found : table.local? id = some scope) :
    table.localFrame? id = some (scope.kind, scope.parent) := by
  rw [localFrame?, found]
  rfl

/-- Symbols and local scopes that stay what they are. -/
theorem Extends.of_frames (symbols : ∀ id symbol, table.get? id = some symbol →
      ∃ found, after.get? id = some found ∧ found.kind = symbol.kind ∧
        ∀ param ∈ symbol.templateParams, param ∈ found.templateParams)
    (frames : ∀ id frame, table.localFrame? id = some frame → after.localFrame? id = some frame) :
    table.Extends after where
  symbols := symbols
  locals := by
    intro id scope held
    obtain ⟨found, present, same⟩ :=
      Option.map_eq_some_iff.mp (frames id _ (localFrame?_of_local held))
    exact ⟨found, present, congrArg Prod.fst same, congrArg Prod.snd same⟩

/-- A bound table stays bound if every symbol, local scope and name that is new in it is. -/
theorem Extends.bound (extended : table.Extends after) (bound : table.Bound decorators)
    (symbols : ∀ id symbol, after.get? id = some symbol →
      table.get? id = some symbol ∨ symbol.Bound decorators after id)
    (frames : ∀ id frame, after.localFrame? id = some frame → table.localFrame? id = some frame ∨
      after.Outer frame.2 ∧ ∀ owner, frame.1 = .interface owner → ∃ node, frame.2 = .space node)
    (names : ∀ scope, ∀ entry ∈ (after.names scope).entries,
      entry ∈ (table.names scope).entries ∨ after.Admits scope entry.2) : after.Bound decorators where
  symbols := by
    intro id symbol found
    rcases symbols id symbol found with old | new
    · exact extended.symbol (bound.symbols id symbol old)
    · exact new
  locals := by
    intro id scope found
    have framed := localFrame?_of_local found
    have around : after.Outer scope.parent ∧
        ∀ owner, scope.kind = .interface owner → ∃ node, scope.parent = .space node := by
      rcases frames id _ framed with old | new
      · obtain ⟨earlier, present, same⟩ := Option.map_eq_some_iff.mp old
        obtain ⟨kind, parent⟩ := Prod.mk.inj same
        have scope := extended.scope (bound.locals id earlier present)
        exact ⟨parent ▸ scope.around, by rw [← kind, ← parent]; exact scope.flat⟩
      · exact new
    refine ⟨around.1, around.2, fun entry mem => ?_⟩
    rcases names (.localScope id) entry (by simpa [SymbolTable.names, found] using mem) with
      old | new
    · cases held : table.local? id with
      | none => simp [SymbolTable.names, held] at old
      | some earlier =>
        have admitted := (extended.scope (bound.locals id earlier held)).names entry
          (by simpa [SymbolTable.names, held] using old)
        obtain ⟨later, present, kind, _⟩ := extended.locals id earlier held
        cases found.symm.trans present
        rwa [kind]
    · exact new _ framed
  spaces := by
    intro id node found entry mem
    rcases names (.space id) entry (by simpa [SymbolTable.names, found] using mem) with old | new
    · cases held : table.tree.node? id with
      | none => simp [SymbolTable.names, held] at old
      | some earlier =>
        exact extended.node (bound.spaces id earlier held) entry
          (by simpa [SymbolTable.names, held] using old)
    · exact new

theorem Gains.extended (gains : table.Gains after symbol)
    (locals : after.localFrame? = table.localFrame?) : table.Extends after :=
  .of_frames (fun _ found held => ⟨found, gains.kept held, rfl, fun _ mem => mem⟩)
    fun _ _ framed => by rw [locals, framed]

section
variable (bound : table.Bound decorators)
include bound

/-- A table stays bound if its new symbol is. -/
theorem Bound.gain (gains : table.Gains after symbol)
    (locals : after.localFrame? = table.localFrame?)
    (fine : symbol.Bound decorators after ⟨table.size⟩)
    (admits : after.Admits symbol.parent ⟨table.size⟩) : after.Bound decorators := by
  refine (gains.extended locals).bound bound (fun id found present => ?_)
    (fun id frame framed => .inl (by rw [← locals, framed])) fun scope entry mem => ?_
  · rw [gains.symbols] at present
    split at present
    · rename_i same
      cases present
      exact .inr (same ▸ fine)
    · exact .inl present
  · refine (gains.entries mem).imp_right ?_
    rintro ⟨rfl, _, rfl⟩
    exact admits

/-- A symbol that is declared outside templates. -/
theorem Bound.declare (held : table.HasScope scope) (outer : table.Outer scope) (name : String)
    (declaration : Declaration) (other : kind ≠ .templateParameter)
    (operation : ∀ place, scope = .localScope place → kind = .operation)
    (fits : declaration.definition.Fits decorators kind) :
    table.Extends (table.declare scope name kind declaration).2 ∧
      (table.declare scope name kind declaration).2.Bound decorators := by
  obtain ⟨shadowed, _, gains, scopes, _⟩ := declare_gains held name kind declaration
  have extended := gains.extended scopes.locals
  refine ⟨extended, bound.gain gains scopes.locals ⟨rfl, .inr ⟨declaration, rfl, fits⟩,
    fun some => absurd rfl some, fun _ => extended.outer outer, nofun, nofun, fun _ => rfl⟩ ?_⟩
  cases scope with
  | space node => exact ⟨_, gains.new, other⟩
  | localScope place =>
    intro frame framed
    obtain ⟨inner, owner, _, inside, interface, _⟩ := outer
    rw [scopes.locals, localFrame?_of_local inside] at framed
    cases framed
    dsimp only
    rw [interface]
    exact (congrArg Symbol.kind (symbol_of_get? gains.new)).trans (operation place rfl)

/-- A change of one symbol that keeps it bound. -/
theorem Bound.modify (id : SymbolId) (change : Symbol → Symbol)
    (kind : ∀ s, (change s).kind = s.kind)
    (params : ∀ s, ∀ param ∈ s.templateParams, param ∈ (change s).templateParams)
    (changed : ∀ s, s.Bound decorators table id → (change s).Bound decorators table id) :
    table.Extends (table.modifySymbol id change) ∧
      (table.modifySymbol id change).Bound decorators := by
  have scopes : table.SameScopes (table.modifySymbol id change) :=
    .of_eq (tree_modifySymbol ..) (locals_modifySymbol ..)
  have names : (table.modifySymbol id change).names = table.names :=
    names_of_eq (tree_modifySymbol ..) (locals_modifySymbol ..)
  have extended : table.Extends (table.modifySymbol id change) := by
    refine .of_frames (fun other symbol held => ?_) fun _ _ framed => by rw [scopes.locals, framed]
    rw [get?_modifySymbol]
    split
    · rename_i same
      subst same
      exact ⟨change symbol, by rw [held]; rfl, kind symbol, params symbol⟩
    · exact ⟨symbol, held, rfl, fun _ mem => mem⟩
  refine ⟨extended, extended.bound bound (fun other symbol held => ?_)
    (fun _ _ framed => .inl (by rw [← scopes.locals, framed]))
    fun _ _ mem => .inl (by rwa [names] at mem)⟩
  rw [get?_modifySymbol] at held
  split at held
  · rename_i same
    subst same
    obtain ⟨earlier, found, rfl⟩ := Option.map_eq_some_iff.mp held
    exact .inr (extended.symbol (changed earlier (bound.symbols _ _ found)))
  · exact .inl held

theorem Bound.addDeclaration (id : SymbolId) (declaration : Option Declaration) :
    table.Extends (table.addDeclaration id declaration) ∧
      (table.addDeclaration id declaration).Bound decorators := by
  refine bound.modify id _ (fun _ => rfl) (fun _ _ mem => mem) fun s old => ?_
  refine { old with defined := old.defined.imp_right ?_ }
  rintro ⟨first, given, fits⟩
  refine ⟨first, ?_, fits⟩
  rw [List.head?_append, given]
  rfl

theorem Bound.declareNamespace (held : table.HasScope (.space parent)) (name : String)
    (declaration : Option Declaration) :
    table.Extends (table.declareNamespace parent name declaration).2 ∧
      (table.declareNamespace parent name declaration).2.Bound decorators := by
  rcases table.declareNamespace_cases parent name declaration with ⟨id, same⟩ | ⟨same, _⟩
  · rw [same]
    exact bound.addDeclaration id declaration
  · rw [same]
    obtain ⟨shadowed, _, gained⟩ := newNamespace_gains held
    exact ⟨gained.gains.extended gained.locals, bound.gain gained.gains gained.locals
      ⟨rfl, .inl rfl, fun some => absurd rfl some, fun _ => trivial, nofun, nofun, nofun⟩
      ⟨_, gained.gains.new, by simp⟩⟩

theorem Bound.addUsing (user target : NamespaceId) :
    table.Extends (table.addUsing user target) ∧ (table.addUsing user target).Bound decorators := by
  have extended : table.Extends (table.addUsing user target) :=
    ⟨(Extends.refl table).1, (Extends.refl table).2⟩
  refine ⟨extended, extended.bound bound (fun _ _ held => .inl held) (fun _ _ framed => .inl framed)
    fun _ _ mem => .inl ?_⟩
  rwa [(Amends.addUsing user target).names] at mem

theorem Bound.pushLocal (kind : LocalScopeKind) (outer : table.Outer parent)
    (flat : ∀ owner, kind = .interface owner → ∃ node, parent = .space node) :
    table.Extends { table with locals := table.locals.push { kind, parent } } ∧
      { table with locals := table.locals.push { kind, parent } }.Bound decorators := by
  have extended : table.Extends { table with locals := table.locals.push { kind, parent } } := by
    refine .of_frames (fun id symbol held => ⟨symbol, held, rfl, fun _ mem => mem⟩)
      fun place frame framed => ?_
    rw [localFrame?_push, if_neg, framed]
    rintro rfl
    rw [localFrame?_size] at framed
    cases framed
  refine ⟨extended, extended.bound bound (fun _ _ held => .inl held) (fun place frame framed => ?_)
    fun _ _ mem => .inl ?_⟩
  · rw [localFrame?_push] at framed
    split at framed
    · cases framed
      exact .inr ⟨extended.outer outer, flat⟩
    · exact .inl framed
  · rwa [(Amends.pushLocal kind parent).names] at mem

/-- A template parameter is declared in the scope of its owner and listed there. -/
theorem Bound.addParam (held : table.HasScope (.localScope scope))
    (templates : table.Templates scope owner) (name : String) (declaration : Declaration)
    (fits : declaration.definition.Fits decorators .templateParameter) :
    let after := (table.declare (.localScope scope) name .templateParameter declaration).2.modifySymbol
      owner fun s => { s with templateParams := s.templateParams ++ [⟨table.size⟩] }
    table.Extends after ∧ after.Bound decorators ∧ after.Templates scope owner := by
  obtain ⟨⟨inner, inside, innerKind⟩, found, owned, templated, kind⟩ := templates
  obtain ⟨shadowed, _, gains, scopes, _⟩ := declare_gains held name .templateParameter declaration
  intro after
  have symbols (id : SymbolId) : after.get? id =
      if id = owner then some { found with templateParams := found.templateParams ++ [⟨table.size⟩] }
      else if id = ⟨table.size⟩ then
        some { id := ⟨table.size⟩, name, kind := .templateParameter, parent := .localScope scope,
               shadowed, declarations := [declaration] }
      else table.get? id := by
    simp only [after, get?_modifySymbol, gains.symbols, if_neg (ne_size owned), owned, Option.map_some]
  have scopes : table.SameScopes after :=
    scopes.trans (.of_eq (tree_modifySymbol ..) (locals_modifySymbol ..))
  have names : after.names = (table.declare (.localScope scope) name .templateParameter
      declaration).2.names := names_of_eq (tree_modifySymbol ..) (locals_modifySymbol ..)
  have extended : table.Extends after := by
    refine .of_frames (fun id symbol held => ?_) fun _ _ framed => by rw [scopes.locals, framed]
    rw [symbols]
    split
    · rename_i same
      subst same
      cases owned.symm.trans held
      exact ⟨_, rfl, rfl, fun _ => List.mem_append_left _⟩
    · rw [if_neg (ne_size held)]
      exact ⟨symbol, held, rfl, fun _ mem => mem⟩
  have own : after.get? owner = _ := (symbols owner).trans (if_pos rfl)
  refine ⟨extended, extended.bound bound (fun id symbol held => ?_)
    (fun _ _ framed => .inl (by rw [← scopes.locals, framed])) (fun place entry mem => ?_),
    (extended.locals scope inner inside).imp fun later kept => ⟨kept.1, kept.2.1.trans innerKind⟩,
    _, own, templated, kind⟩
  · rw [symbols] at held
    split at held
    · rename_i same
      subst same
      cases held
      have old := extended.symbol (bound.symbols _ _ owned)
      exact .inr { old with templates := fun _ => ⟨templated, kind⟩ }
    · split at held
      · rename_i same
        cases held
        exact .inr ⟨same.symm, .inr ⟨declaration, rfl, fits⟩, fun some => absurd rfl some,
          fun some => absurd rfl some, nofun, nofun, fun _ => rfl⟩
      · exact .inl held
  · rw [names] at mem
    refine (gains.entries mem).imp_right ?_
    rintro ⟨rfl, _, rfl⟩ frame framed
    rw [scopes.locals, localFrame?_of_local inside] at framed
    cases framed
    dsimp only
    rw [innerKind, LocalScopeKind.Admits, symbol_of_get? own]
    simp

/-- The scope of the parameters of a declaration is made. -/
theorem Bound.openTemplate (outer : table.Outer parent) (present : table.get? owner = some symbol)
    (kind : symbol.kind = .model ∨ symbol.kind = .operation) :
    let opened := (table.modifySymbol owner fun s => { s with templated := true }).createLocalScope
      (.templateParameters owner) parent
    table.Extends opened.2 ∧ opened.2.Bound decorators ∧ opened.2.Templates opened.1 owner := by
  obtain ⟨one, bound⟩ := bound.modify owner (fun s => { s with templated := true }) (fun _ => rfl)
    (fun _ _ mem => mem) fun s old =>
      { old with templates := fun some => ⟨rfl, (old.templates some).2⟩ }
  have flagged := table.get?_modifySymbol owner owner fun s => { s with templated := true }
  rw [if_pos rfl, present] at flagged
  simp only [createLocalScope]
  generalize (table.modifySymbol owner fun s => { s with templated := true }) = marked
    at one bound flagged ⊢
  obtain ⟨two, bound⟩ := bound.pushLocal (.templateParameters owner) (one.outer outer) nofun
  have made := marked.local?_push ⟨.templateParameters owner, parent, {}⟩ ⟨marked.locals.size⟩
  rw [if_pos rfl] at made
  replace flagged : { marked with locals := marked.locals.push ⟨.templateParameters owner, parent, {}⟩ }.get?
    owner = _ := flagged
  generalize { marked with locals := marked.locals.push ⟨.templateParameters owner, parent, {}⟩ } = grown
    at two bound made flagged ⊢
  obtain ⟨three, bound⟩ := bound.modify owner
    (fun s => { s with templateScope := some ⟨marked.locals.size⟩ }) (fun _ => rfl)
    (fun _ _ mem => mem) fun s old =>
      { old with params := fun scope given => by cases given; exact ⟨_, made, rfl⟩ }
  refine ⟨(one.trans two).trans three, bound, ?_, ?_⟩
  · rw [local?, locals_modifySymbol]
    exact ⟨_, made, rfl⟩
  · rw [get?_modifySymbol, if_pos rfl, flagged]
    exact ⟨_, rfl, rfl, kind⟩

/-- The scope of the operations of an interface is made. -/
theorem Bound.openInterface (owner : SymbolId) (node : NamespaceId) :
    let opened := table.createLocalScope (.interface owner) (.space node)
    table.Extends opened.2 ∧ opened.2.Bound decorators ∧ opened.2.Outer (.localScope opened.1) := by
  simp only [createLocalScope]
  obtain ⟨one, bound⟩ := bound.pushLocal (.interface owner) (table.outer_space node)
    fun _ _ => ⟨node, rfl⟩
  have made := table.local?_push ⟨.interface owner, .space node, {}⟩ ⟨table.locals.size⟩
  rw [if_pos rfl] at made
  generalize { table with locals := table.locals.push ⟨.interface owner, .space node, {}⟩ } = grown
    at one bound made ⊢
  obtain ⟨two, bound⟩ := bound.modify owner
    (fun s => { s with membersScope := some ⟨table.locals.size⟩ }) (fun _ => rfl)
    (fun _ _ mem => mem) fun s old =>
      { old with members := fun scope given => by cases given; exact ⟨_, _, made, rfl⟩ }
  exact ⟨one.trans two, bound, two.outer ⟨_, owner, node, made, rfl, rfl⟩⟩

end

/-! ### Names and scopes together -/

/-- The names of a table agree with its marks, its interfaces have their scopes, and what is
declared has a word for its name. -/
structure Addressed (word : String → Prop) (table : SymbolTable) : Prop where
  coherent : table.Coherent
  rooted : table.HasScope rootScope
  homes : table.Homes
  words : ∀ id symbol, table.get? id = some symbol → id ≠ global → word symbol.name

/-- A table gets no name that is not a word, and its scopes stay. -/
structure Grows (word : String → Prop) (before after : SymbolTable) : Prop where
  outcome : before.Outcome after
  words : ∀ id later, after.get? id = some later → word later.name ∨
    ∃ symbol, before.get? id = some symbol ∧ symbol.name = later.name
  scopes : ∀ scope, before.HasScope scope → after.HasScope scope

/-- A later table of the same binding. -/
structure Follows (word : String → Prop) (before after : SymbolTable) : Prop where
  addressed : after.Addressed word
  scopes : ∀ scope, before.HasScope scope → after.HasScope scope

theorem Follows.refl (addressed : table.Addressed word) : table.Follows word table :=
  ⟨addressed, fun _ held => held⟩

theorem Follows.trans {first : SymbolTable} (one : first.Follows word second)
    (two : second.Follows word third) : first.Follows word third :=
  ⟨two.addressed, fun scope held => two.scopes scope (one.scopes scope held)⟩

theorem Addressed.grow (addressed : table.Addressed word) (grows : table.Grows word after)
    (homes : after.Homes) : table.Follows word after := by
  refine ⟨⟨addressed.coherent.step grows.outcome, grows.scopes _ addressed.rooted, homes, ?_⟩,
    grows.scopes⟩
  intro id later found other
  rcases grows.words id later found with fine | ⟨symbol, present, same⟩
  · exact fine
  · rw [← same]
    exact addressed.words id symbol present other

theorem words_of_gains (gains : table.Gains after symbol) (fine : word symbol.name) (id : SymbolId)
    (later : Symbol) (found : after.get? id = some later) :
    word later.name ∨ ∃ symbol, table.get? id = some symbol ∧ symbol.name = later.name := by
  rw [gains.symbols] at found
  split at found
  · cases found
    exact .inl fine
  · exact .inr ⟨later, found, rfl⟩

/-- A change that gives no new symbol gives no new name. -/
theorem Grows.of_amends (amends : table.Amends after)
    (scopes : ∀ scope, table.HasScope scope → after.HasScope scope) : table.Grows word after where
  outcome := .same amends
  words := by
    intro id later found
    obtain ⟨symbol, present, same⟩ := amends.earlier found
    exact .inr ⟨symbol, present, congrArg Core.name same⟩
  scopes := scopes

theorem HasScope.modify (held : table.HasScope scope) (id : SymbolId) (change : Symbol → Symbol) :
    (table.modifySymbol id change).HasScope scope :=
  ((SameScopes.of_eq (tree_modifySymbol ..) (locals_modifySymbol ..)).hasScope scope).mpr held

theorem HasScope.createLocalScope (held : table.HasScope scope) (kind : LocalScopeKind)
    (parent : Scope) : (table.createLocalScope kind parent).2.HasScope scope := by
  have pushed : { table with locals := table.locals.push ⟨kind, parent, {}⟩ }.HasScope scope := by
    cases scope with
    | space node => exact held
    | localScope id =>
      rw [HasScope, local?_push]
      split
      · rfl
      · exact held
  cases kind <;> exact pushed.modify ..

theorem hasScope_created (table : SymbolTable) :
    (table.createLocalScope kind parent).2.HasScope
      (.localScope (table.createLocalScope kind parent).1) := by
  have pushed : { table with locals := table.locals.push ⟨kind, parent, {}⟩ }.HasScope
      (.localScope ⟨table.locals.size⟩) := by
    rw [HasScope, local?_push, if_pos rfl]
    rfl
  cases kind <;> exact pushed.modify ..

theorem HasScope.addUsing (held : table.HasScope scope) (user target : NamespaceId) :
    (table.addUsing user target).HasScope scope := by
  cases scope with
  | space node =>
    rw [HasScope, SymbolTable.addUsing, NamespaceTree.addUsing, NamespaceTree.node?_modify]
    split
    · rename_i same
      rw [same] at held
      rw [Option.isSome_map]
      exact held
    · exact held
  | localScope id => exact held

theorem GainsSpace.hasScope (gains : table.GainsSpace after parent symbol)
    (held : table.HasScope scope) : after.HasScope scope := by
  cases scope with
  | space node =>
    have framed := congrArg Option.isSome (gains.spaces node)
    simp only [spaceFrame?, Option.isSome_map] at framed
    rw [HasScope, framed]
    split
    · rfl
    · rwa [Option.isSome_map]
  | localScope id =>
    have framed := congrArg Option.isSome (congrFun gains.locals id)
    simp only [localFrame?, Option.isSome_map] at framed
    rw [HasScope, framed]
    exact held

/-- A tree that has some namespace has the global one. -/
theorem HasScope.root (held : table.HasScope (.space node)) :
    table.HasScope (.space NamespaceTree.root) := by
  obtain ⟨found, present⟩ := Option.isSome_iff_exists.mp held
  have below : node.index < table.tree.nodes.size := (Array.getElem?_eq_some_iff.mp present).1
  have inside : 0 < table.tree.nodes.size := by omega
  simp [HasScope, NamespaceTree.node?, NamespaceTree.root, inside]

/-- The namespace that is entered through a symbol is there. -/
theorem Coherent.hasScope_node (coherent : table.Coherent) (held : table.HasScope (.space parent))
    (id : SymbolId) : table.HasScope (.space ((table.symbol id).node.getD parent)) := by
  cases found : table.get? id with
  | none =>
    rw [symbol, found]
    exact held.root
  | some symbol =>
    rw [symbol_of_get? found]
    by_cases kind : symbol.kind = .space
    · obtain ⟨node, way, placed, framed⟩ := coherent.spaces id symbol found kind
      obtain ⟨present, holds, _⟩ := Option.map_eq_some_iff.mp framed
      rw [placed, Option.getD_some, HasScope, holds]
      rfl
    · rw [coherent.leaves id symbol found kind]
      exact held

namespace Addressed

section
variable (addressed : table.Addressed word)
include addressed

theorem declare (held : table.HasScope scope) (fine : word name) (other : kind ≠ .space)
    (declaration : Declaration) :
    table.Follows word (table.declare scope name kind declaration).2 := by
  obtain ⟨shadowed, _, gains, same, losers⟩ := declare_gains held name kind declaration
  refine addressed.grow ⟨.symbol other rfl gains same losers, words_of_gains gains fine,
    fun place => (same.hasScope place).mpr⟩ ?_
  exact addressed.homes.quiet (.of_gains gains rfl same.locals)

theorem modify (id : SymbolId) (change : Symbol → Symbol) (harmless : Harmless change) :
    table.Follows word (table.modifySymbol id change) :=
  addressed.grow (.of_amends (.modify id fun symbol => (harmless symbol).1)
    fun _ held => held.modify ..) (addressed.homes.quiet (.modify id harmless))

theorem openTemplate (owner : SymbolId) (parent : Scope) :
    table.Follows word (table.createLocalScope (.templateParameters owner) parent).2 :=
  addressed.grow (.of_amends (.createLocalScope ..) fun _ held => held.createLocalScope ..)
    (addressed.homes.quiet (.openTemplate owner parent))

theorem addUsing (user target : NamespaceId) : table.Follows word (table.addUsing user target) :=
  addressed.grow (.of_amends (.addUsing ..) fun _ held => held.addUsing ..)
    (addressed.homes.quiet ⟨fun _ symbol found => ⟨symbol, found, rfl, rfl, rfl⟩,
      fun _ later _ found members => ⟨later, found, members⟩, fun _ _ _ => Iff.rfl⟩)

theorem declareNamespace (held : table.HasScope (.space parent)) (fine : word name)
    (declaration : Option Declaration) :
    table.Follows word (table.declareNamespace parent name declaration).2 := by
  rcases table.declareNamespace_cases parent name declaration with ⟨id, same⟩ | ⟨same, first⟩
  · rw [same]
    exact addressed.modify id _ fun _ => ⟨rfl, rfl⟩
  · rw [same]
    obtain ⟨shadowed, _, gains⟩ := newNamespace_gains held
    refine addressed.grow ⟨gains.outcome first, words_of_gains gains.gains fine,
      fun _ => gains.hasScope⟩ ?_
    exact addressed.homes.quiet (.of_gains gains.gains rfl gains.locals)

end

theorem empty : SymbolTable.empty.Addressed word where
  coherent := .empty
  rooted := rfl
  homes := by
    refine ⟨fun scope owner parent framed => ?_, fun id symbol scope found members => ?_⟩
    · cases framed
    · rw [(Coherent.get?_empty found).2] at members
      cases members
  words := fun id symbol found other => absurd (Coherent.get?_empty found).1 other

end Addressed

end SymbolTable

/-- A table in the course of binding, with a scope in which declarations may stand. -/
structure SymbolTable.Ready (decorators : Nat) (word : String → Prop) (table : SymbolTable)
    (scope : Scope) : Prop where
  bound : table.Bound decorators
  addressed : table.Addressed word
  held : table.HasScope scope
  outer : table.Outer scope

/-- A later table of the same binding. -/
structure SymbolTable.Leads (decorators : Nat) (word : String → Prop) (before after : SymbolTable) :
    Prop extends Follows word before after where
  extended : before.Extends after
  bound : after.Bound decorators

/-! ### What is written -/

/-- A declaration as it stands in a text. -/
structure Entry where
  /-- The names on the way to what is declared, the last one its own. -/
  address : List String
  kind : SymbolKind
  /-- Where the name stands. -/
  location : Location
  /-- The place of a template parameter among those of its declaration. -/
  position : Nat := 0

/-- The entry of a name in a scope. -/
def Ident.entry (name : Ident) (file : FileId) (around : List String) (kind : SymbolKind)
    (position : Nat := 0) : Entry :=
  ⟨around ++ [name.name], kind, ⟨file, name.span⟩, position⟩

/-- The entries of template parameters, of which the first one has a given place. -/
def paramEntries (file : FileId) (owner : List String) (first : Nat) (params : List TemplateParam) :
    List Entry :=
  (params.zipIdx first).map fun param => param.1.name.entry file owner .templateParameter param.2

def ModelDecl.entries (decl : ModelDecl) (file : FileId) (around : List String) : List Entry :=
  decl.name.entry file around .model :: paramEntries file (around ++ [decl.name.name]) 0 decl.params

def OperationDecl.entries (decl : OperationDecl) (file : FileId) (around : List String) : List Entry :=
  decl.name.entry file around .operation ::
    paramEntries file (around ++ [decl.name.name]) 0 decl.params

def InterfaceDecl.entries (decl : InterfaceDecl) (file : FileId) (around : List String) : List Entry :=
  decl.name.entry file around .interface ::
    decl.operations.flatMap fun operation => operation.entries file (around ++ [decl.name.name])

/-- The entries of the namespaces of a path, each in the one before it. -/
def pathEntries (file : FileId) : List String → List Ident → List Entry
  | _, [] => []
  | around, segment :: rest =>
    segment.entry file around .space :: pathEntries file (around ++ [segment.name]) rest

mutual

/-- The entries of an item that stands in a namespace. -/
def Item.entries (file : FileId) (around : List String) : Item → List Entry
  | .space head items =>
    if head.path.isEmpty then []
    else pathEntries file around head.path ++
      itemEntries file (around ++ head.path.map (·.name)) items
  | .model decl => decl.entries file around
  | .operation decl => decl.entries file around
  | .interface decl => decl.entries file around
  | .using _ => []

def itemEntries (file : FileId) (around : List String) : List Item → List Entry
  | [] => []
  | item :: rest => item.entries file around ++ itemEntries file around rest

end

/-- The entries of a library and the files of a program. -/
def programEntries (names : List String) (scripts : List Script) : List Entry :=
  (names.map fun name => ⟨[name], .decorator, ⟨.library, ⟨0, 0, 0⟩⟩, 0⟩) ++
    scripts.flatMap fun script => itemEntries script.file [] script.items

/-! ### Binding, change by change -/

namespace Binding
variable {b : Binding}
open SymbolTable

/-- Declares a name for anything but a namespace and records what came of it. -/
def announce (b : Binding) (scope : Scope) (name : String) (kind : SymbolKind)
    (declaration : Declaration) (location : Option Location) : Binding :=
  { b with table := (b.table.declare scope name kind declaration).2 }.record
    (b.table.declare scope name kind declaration).1 name location

@[simp] theorem table_announce (b : Binding) (scope : Scope) (name : String) (kind : SymbolKind)
    (declaration : Declaration) (location : Option Location) :
    (b.announce scope name kind declaration location).table =
      (b.table.declare scope name kind declaration).2 :=
  table_record ..

theorem record_grows (b : Binding) (declared : Declared) :
    b.diagnostics ⊆ (b.record declared name location).diagnostics := by
  unfold record
  split
  · exact List.Subset.refl _
  · exact List.Subset.refl _
  · exact List.subset_append_left ..

/-- Changes one symbol. -/
def alter (b : Binding) (id : SymbolId) (change : Symbol → Symbol) : Binding :=
  { b with table := b.table.modifySymbol id change }

/-- Makes a local scope. -/
def openScope (b : Binding) (kind : LocalScopeKind) (parent : Scope) : Binding :=
  { b with table := (b.table.createLocalScope kind parent).2 }

/-- Declares one template parameter and lists it. -/
def declareParam (b : Binding) (file : FileId) (owner : SymbolId) (scope : LocalScopeId)
    (param : TemplateParam) : Binding :=
  let declared := b.declare file (.localScope scope) param.name .templateParameter
    (.templateParameter param)
  declared.2.alter owner fun s => { s with templateParams := s.templateParams ++ [declared.1] }

/-- Marks a declaration as a template and makes the scope of its parameters. -/
def openTemplate (b : Binding) (owner : SymbolId) (parent : Scope) : Binding :=
  (b.alter owner fun s => { s with templated := true }).openScope (.templateParameters owner) parent

section
variable (b : Binding) (file : FileId)

theorem declareParams_eq
    (params : List TemplateParam) : b.declareParams file owner parent params =
      if params.isEmpty then b
      else params.foldl (fun next param => next.declareParam file owner ⟨b.table.locals.size⟩ param)
        (b.openTemplate owner parent) := by
  have size : (b.table.modifySymbol owner fun s => { s with templated := true }).locals.size =
      b.table.locals.size := by rw [locals_modifySymbol]
  rw [← size]
  rfl

theorem bindOperation_eq (scope : Scope) (interfaceMember : Bool)
    (decl : OperationDecl) : b.bindOperation file scope interfaceMember decl =
      let declared := b.declare file scope decl.name .operation (.operation decl)
      (declared.2.alter declared.1 fun s => { s with interfaceMember }).declareParams file declared.1
        scope decl.params := rfl

theorem bindInterface_eq :
    b.bindInterface file scope decl =
      let declared := b.declare file scope decl.name .interface (.interface decl)
      decl.operations.foldl (fun next operation =>
        next.bindOperation file (.localScope ⟨declared.2.table.locals.size⟩) true operation)
        (declared.2.openScope (.interface declared.1) scope) := rfl

theorem declareParam_eq (owner : SymbolId) (scope : LocalScopeId)
    (param : TemplateParam) : b.declareParam file owner scope param =
      (b.announce (.localScope scope) param.name.name .templateParameter
        ⟨⟨file, param.name.span⟩, .templateParameter param⟩ (some ⟨file, param.name.span⟩)).alter owner
          fun s => { s with templateParams := s.templateParams ++ [⟨b.table.size⟩] } := by
  rw [← b.id_declare file (.localScope scope) param.name .templateParameter (.templateParameter param)]
  rfl

theorem enterNamespace_eq
    (definition : Definition) : b.enterNamespace file parent name definition =
      let declared := b.table.declareNamespace parent name.name (some ⟨⟨file, name.span⟩, definition⟩)
      ((declared.2.symbol declared.1.id).node.getD parent,
        { b with table := declared.2 }.record declared.1 name.name (some ⟨file, name.span⟩)) := rfl

end

theorem bindLibrary_eq (b : Binding) (names : List String) : b.bindLibrary names =
    names.zipIdx.foldl (fun next one => next.announce rootScope one.1 .decorator
      ⟨⟨.library, ⟨0, 0, 0⟩⟩, .decorator ⟨one.2⟩⟩ none) b := rfl

/-- The changes of which binding is made, with the number of declarations in each of them. That
its scope is there is asked for only if `strict`. -/
inductive Change (strict : Prop) : Nat → Binding → Binding → Prop where
  | announce (b : Binding) (scope : Scope) (name : String) (kind : SymbolKind)
      (declaration : Declaration) (location : Option Location)
      (held : strict → b.table.HasScope scope) :
      Change strict 1 b (b.announce scope name kind declaration location)
  | param (b : Binding) (file : FileId) (owner : SymbolId) (scope : LocalScopeId)
      (param : TemplateParam) (held : strict → b.table.HasScope (.localScope scope)) :
      Change strict 1 b (b.declareParam file owner scope param)
  | enter (b : Binding) (file : FileId) (parent : NamespaceId) (name : Ident)
      (definition : Definition) (held : strict → b.table.HasScope (.space parent)) :
      Change strict 1 b (b.enterNamespace file parent name definition).2
  | mark (b : Binding) (id : SymbolId) (interfaceMember : Bool) :
      Change strict 0 b (b.alter id fun s => { s with interfaceMember })
  | openTemplate (b : Binding) (owner : SymbolId) (parent : Scope) :
      Change strict 0 b (b.openTemplate owner parent)
  | openScope (b : Binding) (kind : LocalScopeKind) (parent : Scope) :
      Change strict 0 b (b.openScope kind parent)
  | wait (b : Binding) (pendingUsings : List PendingUsing) (filesBound : Nat) :
      Change strict 0 b { b with pendingUsings, filesBound }
  | use (b : Binding) (user target : NamespaceId) :
      Change strict 0 b { b with table := b.table.addUsing user target }
  | report (b : Binding) {finding : Diagnostic} (other : finding.code ≠ .duplicateSymbol) :
      Change strict 0 b { b with diagnostics := b.diagnostics ++ [finding] }

/-- Changes one after the other. That they keep the table in order is asked for only if `strict`,
which is where it is known to be in order at the start. -/
inductive Course (strict : Prop) (decorators : Nat) (word : String → Prop) :
    Nat → Binding → Binding → Prop where
  | refl (b : Binding) : Course strict decorators word 0 b b
  | trans {b middle after : Binding} (first : Course strict decorators word n b middle)
      (next : Course strict decorators word m middle after) :
      Course strict decorators word (n + m) b after
  | change {b after : Binding} (made : Change strict n b after)
      (leads : strict → b.table.Leads decorators word after.table) :
      Course strict decorators word n b after

theorem Change.grows (made : Change strict n b after) : b.diagnostics ⊆ after.diagnostics := by
  cases made with
  | announce b scope name kind declaration =>
    exact record_grows { b with table := (b.table.declare scope name kind declaration).2 } ..
  | param b file owner scope param =>
    rw [declareParam_eq]
    exact record_grows { b with table := (b.table.declare (.localScope scope) param.name.name
      .templateParameter ⟨⟨file, param.name.span⟩, .templateParameter param⟩).2 } ..
  | enter b file parent name definition =>
    exact record_grows { b with
      table := (b.table.declareNamespace parent name.name (some ⟨⟨file, name.span⟩, definition⟩)).2 } ..
  | report => exact List.subset_append_left ..
  | mark | openTemplate | openScope | wait | use => exact List.Subset.refl _

/-- Nothing that was reported is taken back, whatever the table is like. -/
theorem Course.grows (course : Course False 0 (fun _ => True) n b after) :
    b.diagnostics ⊆ after.diagnostics := by
  induction course with
  | refl => exact List.Subset.refl _
  | trans _ _ first next => exact List.Subset.trans first next
  | change made => exact made.grows

theorem Course.leads (course : Course strict decorators word n b after) (so : strict)
    (ready : b.table.Ready decorators word scope) :
    b.table.Leads decorators word after.table ∧ after.table.Ready decorators word scope := by
  induction course with
  | refl b => exact ⟨⟨.refl ready.addressed, .refl _, ready.bound⟩, ready⟩
  | trans _ _ first next =>
    obtain ⟨one, ready⟩ := first ready
    obtain ⟨two, ready⟩ := next ready
    exact ⟨⟨one.toFollows.trans two.toFollows, one.extended.trans two.extended, two.bound⟩, ready⟩
  | change _ leads =>
    have leads := leads so
    exact ⟨leads, leads.bound, leads.addressed, leads.scopes _ ready.held,
      leads.extended.outer ready.outer⟩

theorem Course.ready (course : Course strict decorators word n b after)
    (ready : strict → b.table.Ready decorators word scope) (so : strict) :
    after.table.Ready decorators word scope :=
  (course.leads so (ready so)).2

theorem foldl_course (scope : Scope) (l : List α)
    (each : ∀ one ∈ l, ∀ b : Binding, (strict → b.table.Ready decorators word scope) →
      Course strict decorators word (count one) b (step b one)) (b : Binding)
    (ready : strict → b.table.Ready decorators word scope) :
    Course strict decorators word (l.map count).sum b (l.foldl step b) := by
  induction l generalizing b with
  | nil => exact .refl b
  | cons one rest ih =>
    have first := each one (List.mem_cons_self ..) b ready
    rw [List.map_cons, List.sum_cons]
    exact first.trans (ih (fun other mem => each other (List.mem_cons_of_mem _ mem)) _
      (first.ready ready))

/-! ### Declarations -/

/-- What binding declares in a scope, template parameters apart. -/
structure Suits (decorators : Nat) (scope : Scope) (kind : SymbolKind) (definition : Definition) :
    Prop where
  other : kind ≠ .space
  plain : kind ≠ .templateParameter
  operation : ∀ place, scope = .localScope place → kind = .operation
  fits : definition.Fits decorators kind

theorem announce_course (ready : strict → b.table.Ready decorators word scope)
    (fine : strict → word name)
    (suits : strict → Suits decorators scope kind declaration.definition)
    (location : Option Location) :
    Course strict decorators word 1 b (b.announce scope name kind declaration location) := by
  apply Course.change (.announce _ _ _ _ _ _ fun so => (ready so).held)
  intro so
  have ready := ready so
  have suits := suits so
  rw [table_announce]
  obtain ⟨extended, bound⟩ := ready.bound.declare ready.held ready.outer name declaration
    suits.plain suits.operation suits.fits
  exact ⟨ready.addressed.declare ready.held (fine so) suits.other declaration, extended, bound⟩

theorem declare_course (b : Binding) (file : FileId)
    (suits : Suits decorators scope kind definition)
    (ready : strict → b.table.Ready decorators word scope) (fine : strict → word name.name) :
    Course strict decorators word 1 b (b.declare file scope name kind definition).2 :=
  announce_course ready fine (fun _ => suits) _

theorem get?_declare (held : b.table.HasScope scope) (file : FileId) (name : Ident)
    (kind : SymbolKind) (definition : Definition) : ∃ symbol,
      (b.declare file scope name kind definition).2.table.get?
        (b.declare file scope name kind definition).1 = some symbol ∧
      symbol.kind = kind ∧ symbol.parent = scope ∧ symbol.membersScope = none := by
  obtain ⟨_, _, gains, _⟩ := declare_gains held name.name kind ⟨⟨file, name.span⟩, definition⟩
  rw [id_declare, declare, table_record]
  exact ⟨_, gains.new, rfl, rfl, rfl⟩

theorem hasScope_of_templates {table : SymbolTable} (templates : table.Templates place owner) :
    table.HasScope (.localScope place) := by
  obtain ⟨⟨inner, inside, _⟩, _⟩ := templates
  rw [HasScope, inside]
  rfl

theorem declareParam_leads (bound : b.table.Bound decorators) (addressed : b.table.Addressed word)
    (file : FileId) {scope : LocalScopeId} (templates : b.table.Templates scope owner)
    (spelled : param.Spelled word) :
    b.table.Leads decorators word (b.declareParam file owner scope param).table ∧
      (b.declareParam file owner scope param).table.Templates scope owner := by
  have held := hasScope_of_templates templates
  have declared := addressed.declare held spelled (by simp : SymbolKind.templateParameter ≠ .space)
    ⟨⟨file, param.name.span⟩, .templateParameter param⟩
  have listed := declared.trans (declared.addressed.modify owner (fun s =>
    { s with templateParams := s.templateParams ++ [⟨b.table.size⟩] }) fun _ => ⟨rfl, rfl⟩)
  obtain ⟨extended, bound, templates⟩ := bound.addParam held templates param.name.name
    ⟨⟨file, param.name.span⟩, .templateParameter param⟩ ⟨rfl, nofun⟩
  rw [declareParam_eq, alter, table_announce]
  exact ⟨⟨listed, extended, bound⟩, templates⟩

theorem foldParams_course (file : FileId) (scope : Scope) {owner : SymbolId}
    (params : List TemplateParam) (spelled : strict → ∀ param ∈ params, param.Spelled word)
    (b : Binding) (ready : strict → b.table.Ready decorators word scope)
    (templates : strict → b.table.Templates place owner) :
    Course strict decorators word params.length b
      (params.foldl (fun next param => next.declareParam file owner place param) b) := by
  induction params generalizing b with
  | nil => exact .refl b
  | cons param rest ih =>
    have step (so : strict) := declareParam_leads (ready so).bound (ready so).addressed file
      (templates so) (spelled so param (List.mem_cons_self ..))
    have first : Course strict decorators word 1 b (b.declareParam file owner place param) :=
      .change (.param _ _ _ _ _ fun so => hasScope_of_templates (templates so)) fun so => (step so).1
    rw [List.length_cons, Nat.add_comm]
    exact first.trans (ih (fun so other mem => spelled so other (List.mem_cons_of_mem _ mem)) _
      (first.ready ready) fun so => (step so).2)

theorem openTemplate_leads (ready : b.table.Ready decorators word scope)
    (present : ∃ symbol, b.table.get? owner = some symbol ∧
      (symbol.kind = .model ∨ symbol.kind = .operation)) :
    b.table.Leads decorators word (b.openTemplate owner scope).table ∧
      (b.openTemplate owner scope).table.Templates ⟨b.table.locals.size⟩ owner := by
  obtain ⟨symbol, found, kind⟩ := present
  have marked := ready.addressed.modify owner (fun s => { s with templated := true })
    fun _ => ⟨rfl, rfl⟩
  obtain ⟨extended, bound, templates⟩ := ready.bound.openTemplate ready.outer found kind
  have size : (b.table.modifySymbol owner fun s => { s with templated := true }).locals.size =
      b.table.locals.size := by rw [locals_modifySymbol]
  refine ⟨⟨marked.trans (marked.addressed.openTemplate owner scope), extended, bound⟩, ?_⟩
  rw [← size]
  exact templates

theorem declareParams_course (b : Binding) (params : List TemplateParam)
    (ready : strict → b.table.Ready decorators word scope)
    (present : strict → ∃ symbol, b.table.get? owner = some symbol ∧
      (symbol.kind = .model ∨ symbol.kind = .operation))
    (spelled : strict → ∀ param ∈ params, param.Spelled word) :
    Course strict decorators word params.length b (b.declareParams file owner scope params) := by
  rw [declareParams_eq]
  split
  · rename_i empty
    rw [List.isEmpty_iff.mp empty]
    exact .refl b
  · have opened : Course strict decorators word 0 b (b.openTemplate owner scope) :=
      .change (.openTemplate ..) fun so => (openTemplate_leads (ready so) (present so)).1
    have filled := foldParams_course file scope params spelled (b.openTemplate owner scope)
      (opened.ready ready) fun so => (openTemplate_leads (ready so) (present so)).2
    rw [← Nat.zero_add params.length]
    exact opened.trans filled

theorem length_paramEntries (file : FileId) (owner : List String) (first : Nat)
    (params : List TemplateParam) : (paramEntries file owner first params).length = params.length := by
  simp [paramEntries]

theorem bindModel_course (b : Binding)
    (ready : strict → b.table.Ready decorators word (.space node))
    (spelled : strict → decl.Spelled word) :
    Course strict decorators word (decl.entries file around).length b
      (b.bindModel file (.space node) decl) := by
  have first := declare_course b file
    (⟨by simp, by simp, nofun, rfl, nofun⟩ : Suits decorators (.space node) .model (.model decl))
    ready fun so => (spelled so).1
  rw [ModelDecl.entries, List.length_cons, length_paramEntries, Nat.add_comm]
  refine first.trans (declareParams_course _ _ (first.ready ready) (fun so => ?_)
    fun so => (spelled so).2)
  obtain ⟨symbol, found, kind, _⟩ := get?_declare (ready so).held file decl.name .model (.model decl)
  exact ⟨symbol, found, .inl kind⟩

theorem bindOperation_course (b : Binding) (file : FileId) (interfaceMember : Bool)
    (around : List String) (ready : strict → b.table.Ready decorators word scope)
    (spelled : strict → decl.Spelled word) :
    Course strict decorators word (decl.entries file around).length b
      (b.bindOperation file scope interfaceMember decl) := by
  have first := declare_course b file (⟨by simp, by simp, fun _ _ => rfl, rfl, nofun⟩ :
    Suits decorators scope .operation (.operation decl)) ready fun so => (spelled so).1
  have present (so : strict) := get?_declare (ready so).held file decl.name .operation (.operation decl)
  rw [bindOperation_eq, OperationDecl.entries, List.length_cons, length_paramEntries, Nat.add_comm]
  generalize b.declare file scope decl.name .operation (.operation decl) = declared at first present ⊢
  have marked : Course strict decorators word 0 declared.2
      (declared.2.alter declared.1 fun s => { s with interfaceMember }) := by
    apply Course.change (.mark ..)
    intro so
    have ready := first.ready ready so
    obtain ⟨extended, bound⟩ := ready.bound.modify declared.1 (fun s => { s with interfaceMember })
      (fun _ => rfl) (fun _ _ mem => mem) fun s old => { old with }
    exact ⟨ready.addressed.modify _ _ fun _ => ⟨rfl, rfl⟩, extended, bound⟩
  have both := first.trans marked
  apply both.trans
  apply declareParams_course _ _ (both.ready ready) _ fun so => (spelled so).2
  intro so
  obtain ⟨symbol, found, kind, _⟩ := present so
  rw [alter, get?_modifySymbol, if_pos rfl, found]
  exact ⟨_, rfl, .inr kind⟩

/-- An interface gets the scope of its operations right after its symbol. -/
theorem openInterface_leads (ready : b.table.Ready decorators word (.space node))
    (present : ∃ symbol, b.table.get? owner = some symbol ∧ symbol.kind = .interface ∧
      symbol.parent = .space node ∧ symbol.membersScope = none) :
    b.table.Leads decorators word (b.openScope (.interface owner) (.space node)).table ∧
      (b.openScope (.interface owner) (.space node)).table.Ready decorators word
        (.localScope ⟨b.table.locals.size⟩) := by
  obtain ⟨symbol, found, kind, around, loose⟩ := present
  obtain ⟨extended, bound, outer⟩ := ready.bound.openInterface owner node
  have follows := ready.addressed.grow
    (.of_amends (.createLocalScope ..) fun _ held => held.createLocalScope ..)
    (ready.addressed.homes.openInterface found kind around loose (.space node))
  exact ⟨⟨follows, extended, bound⟩, bound, follows.addressed, hasScope_created .., outer⟩

theorem bindInterface_course (b : Binding)
    (ready : strict → b.table.Ready decorators word (.space node))
    (spelled : strict → decl.Spelled word) :
    Course strict decorators word (decl.entries file around).length b
      (b.bindInterface file (.space node) decl) := by
  have first := declare_course b file (⟨by simp, by simp, nofun, rfl, nofun⟩ :
    Suits decorators (.space node) .interface (.interface decl)) ready fun so => (spelled so).1
  rw [bindInterface_eq, InterfaceDecl.entries, List.length_cons, List.length_flatMap, Nat.add_comm]
  have opened (so : strict) := openInterface_leads (first.ready ready so)
    (get?_declare (ready so).held file decl.name .interface (.interface decl))
  apply (first.trans (.change (.openScope ..) fun so => (opened so).1)).trans
  exact foldl_course _ decl.operations (fun operation mem next ready =>
    bindOperation_course next file true _ ready fun so => (spelled so).2 operation mem) _
    fun so => (opened so).2

/-! ### Namespaces -/

theorem enterNamespace_course (b : Binding) (definition : Definition)
    (ready : strict → b.table.Ready decorators word (.space parent))
    (fine : strict → word name.name) :
    Course strict decorators word 1 b (b.enterNamespace file parent name definition).2 ∧
      (strict → (b.enterNamespace file parent name definition).2.table.Ready decorators word
        (.space (b.enterNamespace file parent name definition).1)) := by
  have leads (so : strict) :
      b.table.Leads decorators word (b.enterNamespace file parent name definition).2.table := by
    obtain ⟨extended, bound⟩ := (ready so).bound.declareNamespace (ready so).held name.name
      (some ⟨⟨file, name.span⟩, definition⟩)
    rw [enterNamespace_eq]
    dsimp only
    rw [table_record]
    exact ⟨(ready so).addressed.declareNamespace (ready so).held (fine so) _, extended, bound⟩
  refine ⟨.change (.enter _ _ _ _ _ fun so => (ready so).held) leads, fun so => ?_⟩
  have leads := leads so
  refine ⟨leads.bound, leads.addressed, ?_, outer_space ..⟩
  have held := leads.addressed.coherent.hasScope_node (leads.scopes _ (ready so).held)
  simp only [enterNamespace_eq, table_record] at held ⊢
  exact held _

theorem enterPath_course (path : List Ident) (b : Binding)
    (ready : strict → b.table.Ready decorators word (.space parent))
    (fine : strict → ∀ name ∈ path, word name.name) :
    Course strict decorators word path.length b (b.enterPath file parent head path).2 ∧
      (strict → (b.enterPath file parent head path).2.table.Ready decorators word
        (.space (b.enterPath file parent head path).1)) := by
  fun_induction enterPath b file parent head path with
  | case1 b => exact ⟨.refl b, ready⟩
  | case2 b parent last =>
    exact enterNamespace_course b _ ready fun so => fine so last (List.mem_cons_self ..)
  | case3 b parent segment rest _ node entered same ih =>
    obtain ⟨first, inside⟩ := enterNamespace_course b .implicitNamespace ready
      fun so => fine so segment (List.mem_cons_self ..)
    rw [same] at first inside
    obtain ⟨onward, innermost⟩ := ih inside fun so name mem =>
      fine so name (List.mem_cons_of_mem _ mem)
    rw [List.length_cons, Nat.add_comm]
    exact ⟨first.trans onward, innermost⟩

theorem length_pathEntries (path : List Ident) :
    (pathEntries file around path).length = path.length := by
  induction path generalizing around with
  | nil => rfl
  | cons segment rest ih => simp [pathEntries, ih]

/-! ### Programs -/

/-- What only waits, or is only reported, leaves the table alone. -/
theorem aside_course (made : Change strict 0 b after) (same : after.table = b.table)
    (ready : strict → b.table.Ready decorators word scope) :
    Course strict decorators word 0 b after := by
  apply Course.change made
  intro so
  rw [same]
  exact ⟨.refl (ready so).addressed, .refl _, (ready so).bound⟩

mutual

theorem bindItem_course (file : FileId) (item : Item) (around : List String) (b : Binding)
    (ready : strict → b.table.Ready decorators word (.space node))
    (spelled : strict → item.Spelled word) :
    Course strict decorators word (item.entries file around).length b (bindItem file node item b) := by
  cases item with
  | space head items =>
    have parts (so : strict) :
        (∀ name ∈ head.path, word name.name) ∧ ∀ item ∈ items, item.Spelled word := by
      cases spelled so with
      | space path inner => exact ⟨path, inner⟩
    unfold bindItem Item.entries
    split
    · exact .refl b
    · obtain ⟨entered, inside⟩ := enterPath_course head.path b ready fun so => (parts so).1
      rw [List.length_append, length_pathEntries]
      exact entered.trans (bindItems_course file items _ _ inside fun so => (parts so).2)
  | model decl =>
    apply bindModel_course b ready
    intro so
    cases spelled so with
    | model spelled => exact spelled
  | operation decl =>
    apply bindOperation_course b file false around ready
    intro so
    cases spelled so with
    | operation spelled => exact spelled
  | interface decl =>
    apply bindInterface_course b ready
    intro so
    cases spelled so with
    | interface spelled => exact spelled
  | «using» decl => exact aside_course (.wait ..) rfl ready

theorem bindItems_course (file : FileId) (items : List Item) (around : List String) (b : Binding)
    (ready : strict → b.table.Ready decorators word (.space node))
    (spelled : strict → ∀ item ∈ items, item.Spelled word) :
    Course strict decorators word (itemEntries file around items).length b
      (bindItems file node items b) := by
  cases items with
  | nil => exact .refl b
  | cons item rest =>
    have first := bindItem_course file item around b ready
      fun so => spelled so item (List.mem_cons_self ..)
    unfold bindItems itemEntries
    rw [List.length_append]
    exact first.trans (bindItems_course file rest around _ (first.ready ready)
      fun so other mem => spelled so other (List.mem_cons_of_mem _ mem))

end

theorem bindScript_course (b : Binding) (script : Script)
    (ready : strict → b.table.Ready decorators word rootScope)
    (spelled : strict → ∀ item ∈ script.items, item.Spelled word) :
    Course strict decorators word (itemEntries script.file [] script.items).length b
      (b.bindScript script) := by
  have bound := bindItems_course script.file script.items [] b ready spelled
  have counted : Course strict decorators word 0
      (bindItems script.file NamespaceTree.root script.items b) (b.bindScript script) :=
    aside_course (.wait ..) rfl (bound.ready ready)
  exact bound.trans counted

theorem bindLibrary_course (names : List String) (b : Binding)
    (ready : strict → b.table.Ready decorators word rootScope)
    (fine : strict → names.length ≤ decorators ∧ ∀ name ∈ names, word name) :
    Course strict decorators word names.length b (b.bindLibrary names) := by
  have each : ∀ one ∈ names.zipIdx, ∀ b : Binding,
      (strict → b.table.Ready decorators word rootScope) →
      Course strict decorators word 1 b (b.announce rootScope one.1 .decorator
        ⟨⟨.library, ⟨0, 0, 0⟩⟩, .decorator ⟨one.2⟩⟩ none) := by
    intro one mem b ready
    apply announce_course ready (fun so => (fine so).2 _ (List.fst_mem_of_mem_zipIdx mem))
    intro so
    refine ⟨by simp, by simp, nofun, rfl, fun id same => ?_⟩
    cases same
    have inside := (List.mem_zipIdx mem).2.1
    have few := (fine so).1
    dsimp only
    omega
  rw [bindLibrary_eq]
  simpa using foldl_course rootScope names.zipIdx each b ready

theorem resolveUsing_course (b : Binding) (pending : PendingUsing)
    (ready : strict → b.table.Ready decorators word rootScope) :
    Course strict decorators word 0 b (b.resolveUsing pending) := by
  unfold resolveUsing
  split
  · split
    · apply Course.change (.use ..)
      intro so
      obtain ⟨extended, bound⟩ := (ready so).bound.addUsing pending.node _
      exact ⟨(ready so).addressed.addUsing .., extended, bound⟩
    · exact .refl b
  · exact aside_course (.report b (by simp [Diagnostic.report])) rfl ready

theorem finish_course (b : Binding) (ready : strict → b.table.Ready decorators word rootScope) :
    Course strict decorators word 0 b b.finish := by
  have waited : Course strict decorators word 0 b { b with pendingUsings := [] } :=
    aside_course (.wait b [] b.filesBound) rfl ready
  have resolved := foldl_course rootScope b.pendingUsings
    (fun pending _ next ready => resolveUsing_course next pending ready) { b with pendingUsings := [] }
    (waited.ready ready)
  rw [show (b.pendingUsings.map fun _ => 0).sum = 0 by simp] at resolved
  exact waited.trans resolved

theorem empty_ready : SymbolTable.empty.Ready decorators word rootScope :=
  ⟨empty_bound, .empty, rfl, outer_space ..⟩

/-- The whole of binding makes the declarations that are written, one after the other. -/
theorem ofScripts_course {names : List String}
    (fine : names.length ≤ decorators ∧ ∀ name ∈ names, word name)
    (spelled : ∀ script ∈ scripts, ∀ item ∈ script.items, item.Spelled word) :
    Course True decorators word (programEntries names scripts).length {} (ofScripts names scripts) := by
  have library : Course True decorators word names.length {} (({} : Binding).bindLibrary names) :=
    bindLibrary_course names {} (fun _ => empty_ready) fun _ => fine
  have files := foldl_course rootScope scripts (fun script mem next ready =>
    bindScript_course next script ready fun _ => spelled script mem) _
    (library.ready fun _ => empty_ready)
  rw [programEntries, List.length_append, List.length_map, List.length_flatMap]
  have both := library.trans files
  exact both.trans (finish_course _ (both.ready fun _ => empty_ready))

/-- The table of a program whose names are all words. -/
theorem ofScripts_addressed {names : List String} (fine : ∀ name ∈ names, word name)
    (spelled : ∀ script ∈ scripts, ∀ item ∈ script.items, item.Spelled word) :
    (ofScripts names scripts).table.Addressed word :=
  ((ofScripts_course ⟨Nat.le_refl _, fine⟩ spelled).leads trivial empty_ready).1.addressed

mutual

theorem spelled_item (item : Item) : item.Spelled fun _ => True := by
  cases item with
  | space head items => exact .space (fun _ _ => trivial) (spelled_items items)
  | model decl => exact .model ⟨trivial, fun _ _ => trivial⟩
  | operation decl => exact .operation ⟨trivial, fun _ _ => trivial⟩
  | interface decl => exact .interface ⟨trivial, fun _ _ => ⟨trivial, fun _ _ => trivial⟩⟩
  | «using» decl => exact .using decl

theorem spelled_items (items : List Item) : ∀ item ∈ items, item.Spelled fun _ => True := by
  cases items with
  | nil => simp
  | cons first rest => exact List.forall_mem_cons.mpr ⟨spelled_item first, spelled_items rest⟩

end

/-- The course of a program, whatever its names. -/
theorem ofScripts_course_any (names : List String) (scripts : List Script) :
    Course True names.length (fun _ => True) (programEntries names scripts).length {}
      (ofScripts names scripts) :=
  ofScripts_course ⟨Nat.le_refl _, fun _ _ => trivial⟩ fun script _ => spelled_items script.items

/-- The symbols of every program are bound. -/
theorem ofScripts_bound (names : List String) (scripts : List Script) :
    (ofScripts names scripts).table.Bound names.length :=
  ((ofScripts_course_any names scripts).leads trivial empty_ready).1.bound

end Binding

/-! ### The words of a text -/

/-- A name that could be a part of a full name. -/
def Dotless (name : String) : Prop := '.' ∉ name.toList

theorem FirstLexeme.dotless (named : (of c cs).kind = .identifier) : '.' ∉ (of c cs).chars := by
  unfold of at named ⊢
  split at named
  · cases named
  · split at named
    · unfold ofNumber at named
      dsimp only at named
      split at named <;> cases named
    · split at named
      · have inside := Lexeme.not_mem_splitWhile (p := Text.isNamePart) (c := '.') (by decide) (c :: cs)
        rw [if_neg ‹_›, if_neg ‹_›, if_pos ‹_›]
        unfold ofWord
        dsimp only
        split <;> exact inside
      · unfold ofMark at named
        split at named
        · cases named
        · split at named <;> cases named

theorem Source.scan_dotless (s : Source) (named : s.scan.1.token.kind = .identifier) :
    Dotless s.scan.1.token.lexeme := by
  revert named
  unfold scan
  dsimp only
  split
  · intro named
    cases named
  · intro named
    rw [Dotless, String.toList_ofList]
    exact FirstLexeme.dotless named

theorem Syntax.Word.dotless (word : Word (tokenize text) name) : Dotless name := by
  obtain ⟨scanned, mem, named, rfl⟩ := word
  have each : ∀ scanned ∈ tokenize text, scanned.token.kind = .identifier →
      Dotless scanned.token.lexeme := Source.forall_tokens Source.scan_dotless _
  exact each scanned mem named

theorem Item.Spelled.mono {item : Item} (spelled : item.Spelled word)
    (weaken : ∀ name, word name → weaker name) : item.Spelled weaker := by
  induction spelled with
  | space path inner ih => exact .space (fun name mem => weaken _ (path name mem)) ih
  | model spelled =>
    exact .model ⟨weaken _ spelled.1, fun param mem => weaken _ (spelled.2 param mem)⟩
  | operation spelled =>
    exact .operation ⟨weaken _ spelled.1, fun param mem => weaken _ (spelled.2 param mem)⟩
  | interface spelled =>
    refine .interface ⟨weaken _ spelled.1, fun decl mem => ?_⟩
    have inner := spelled.2 decl mem
    exact ⟨weaken _ inner.1, fun param given => weaken _ (inner.2 param given)⟩
  | «using» decl => exact .using decl

/-- What is declared in a text that has been read has no dot in its name. -/
theorem Script.spelled_of_read {file : FileId} (ran : read file text = some (script, diagnostics)) :
    ∀ item ∈ script.items, item.Spelled Dotless := by
  have fits := Syntax.Reply.ofFile_fits file text (Nat.le_refl (stepLimit (tokenize text).length))
  unfold Syntax.Reply.ofFile at fits
  unfold read readWith at ran
  dsimp only at ran
  split at ran
  · rename_i items state reply
    cases ran
    rw [reply] at fits
    intro item mem
    exact ((fits.lands.value items state rfl).1 item mem).mono fun _ => Syntax.Word.dotless
  · cases ran
    exact fun item mem => absurd mem (List.not_mem_nil)
  · cases ran

end Idl
