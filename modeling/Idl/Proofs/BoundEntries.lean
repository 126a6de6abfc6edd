import Idl.Proofs.DeclaredEntries
import Mathlib.Data.List.Forall2

/-! What binding makes of what is written. As long as the entries of the texts are
compatible, binding reports nothing and its table is the one that the entries say. The
first entry that clashes with an earlier one is reported. So whether a name is reported
as a duplicate, and otherwise what the table is like, is said by the entries alone,
whatever the order in which the files come. -/
namespace Idl
variable {id : SymbolId} {middle : Binding} {symbol : Symbol}

/-! ### Usings stay as they are -/

theorem NamespaceTree.usings_insert {tree after : NamespaceTree}
    (ran : tree.insert node name id = .inserted after) : after.usings = tree.usings := by
  unfold insert at ran
  split at ran
  · cases ran
  · rename_i found present
    split at ran
    · cases ran
    · cases ran
      funext other
      simp only [usings, node?_modify]
      by_cases same : other = node
      · simp [same, present]
      · simp [same]

theorem NamespaceTree.usings_addChild (tree : NamespaceTree) (parent : NamespaceId) (name : String)
    (symbol : SymbolId) : (tree.addChild parent name symbol).2.usings = tree.usings := by
  funext other
  simp only [usings, SymbolTable.node?_addChild]
  by_cases new : other = ⟨tree.size⟩
  · simp [new, SymbolTable.node?_size]
  · simp [new]

namespace SymbolTable
variable {table : SymbolTable}

theorem usings_bind {scope : Scope} (ran : table.bind scope name id = .ok after) :
    after.tree.usings = table.tree.usings := by
  unfold bind at ran
  split at ran
  · split at ran
    · rename_i tree inserted
      cases ran
      exact NamespaceTree.usings_insert inserted
    · cases ran
    · cases ran
  · split at ran
    · cases ran
    · split at ran
      · cases ran
      · cases ran
        rfl

theorem usings_declare (table : SymbolTable) (scope : Scope) (name : String) (kind : SymbolKind)
    (declaration : Declaration) :
    (table.declare scope name kind declaration).2.tree.usings = table.tree.usings := by
  unfold declare
  dsimp only
  split
  · rename_i after ran
    rw [usings_bind ran, tree_modifySymbol]
    rfl
  · rw [tree_modifySymbol, tree_modifySymbol]
    rfl

theorem usings_newNamespace (table : SymbolTable) (parent : NamespaceId) (name : String)
    (declaration : Option Declaration) :
    (table.newNamespace parent name declaration).2.tree.usings = table.tree.usings := by
  unfold newNamespace
  dsimp only
  split
  · rename_i after ran
    rw [usings_bind ran, addDeclaration, tree_modifySymbol, tree_modifySymbol]
    exact NamespaceTree.usings_addChild ..
  · rw [tree_modifySymbol, addDeclaration, tree_modifySymbol, tree_modifySymbol]
    exact NamespaceTree.usings_addChild ..

theorem usings_declareNamespace (table : SymbolTable) (parent : NamespaceId) (name : String)
    (declaration : Option Declaration) :
    (table.declareNamespace parent name declaration).2.tree.usings = table.tree.usings := by
  rcases table.declareNamespace_cases parent name declaration with ⟨id, same⟩ | ⟨same, _⟩
  · rw [same, addDeclaration, tree_modifySymbol]
  · rw [same, usings_newNamespace]

theorem tree_createLocalScope (table : SymbolTable) (kind : LocalScopeKind) (parent : Scope) :
    (table.createLocalScope kind parent).2.tree = table.tree := by
  cases kind <;> exact tree_modifySymbol ..

/-! ### Scopes that are to be filled -/

/-- An interface has its scope, and who has a scope for parameters has parameters, except for
a symbol that is still being bound. -/
def Filled (table : SymbolTable) (waiting : Option SymbolId) : Prop :=
  ∀ id symbol, table.get? id = some symbol → some id ≠ waiting →
    (symbol.kind = .interface → symbol.membersScope.isSome) ∧
      (symbol.templateScope.isSome → symbol.templateParams ≠ [])

theorem Filled.add (filled : table.Filled waiting) (adds : table.Adds after symbol)
    (other : symbol.kind ≠ .interface) : after.Filled waiting := by
  intro id found present settled
  rw [adds.gains.symbols] at present
  split at present
  · cases present
    simp [other, adds.loose]
  · exact filled id found present settled

theorem Filled.modify (filled : table.Filled waiting) (id : SymbolId)
    (keeps : ∀ symbol, outline (change symbol) = outline symbol)
    (listed : ∀ symbol, (change symbol).templateParams = [] → symbol.templateParams = []) :
    (table.modifySymbol id change).Filled waiting := by
  intro other later found settled
  rw [get?_modifySymbol] at found
  split at found
  · rename_i same
    obtain ⟨symbol, present, rfl⟩ := Option.map_eq_some_iff.mp found
    have alike := keeps symbol
    simp only [outline, core, Prod.mk.injEq, Core.mk.injEq] at alike
    obtain ⟨interface, params⟩ := filled id symbol present (same ▸ settled)
    rw [alike.1.2.1, alike.2.1, alike.2.2]
    exact ⟨interface, fun given none => params given (listed symbol none)⟩
  · exact filled other later found settled

theorem Filled.open (filled : table.Filled waiting)
    (opens : table.Opens after owner symbol later kind)
    (awaited : waiting = none ∨ waiting = some owner) : after.Filled (some owner) := by
  intro id found present settled
  rw [opens.symbols, if_neg (by simpa using settled)] at present
  apply filled id found present
  rcases awaited with none | own
  · simp [none]
  · rwa [own]

/-- The symbol that was waited for is as it should be. -/
theorem Filled.settle (filled : table.Filled (some owner)) (found : table.get? owner = some symbol)
    (interface : symbol.kind = .interface → symbol.membersScope.isSome)
    (params : symbol.templateScope.isSome → symbol.templateParams ≠ []) : table.Filled none := by
  intro id other present _
  by_cases own : id = owner
  · subst own
    cases found.symm.trans present
    exact ⟨interface, params⟩
  · exact filled id other present (by simpa using own)

/-- A declaration that has no scope and no parameters yet. -/
structure Bare (table : SymbolTable) (id : SymbolId) (symbol : Symbol) (address : List String) :
    Prop where
  found : table.get? id = some symbol
  other : id ≠ global
  stands : table.Stands id address
  closed : symbol.inner? = none
  plain : symbol.templateParams = []

theorem Bare.modify (bare : table.Bare id symbol address) (change : Symbol → Symbol)
    (keeps : ∀ symbol, outline (change symbol) = outline symbol)
    (listed : ∀ symbol, (change symbol).templateParams = symbol.templateParams) :
    (table.modifySymbol id change).Bare id (change symbol) address where
  found := by rw [get?_modifySymbol, if_pos rfl, bare.found, Option.map_some]
  other := bare.other
  stands := bare.stands.keep (Retains.modify bare.other keeps).keeps
  closed := (inner?_of_outline (keeps symbol)).trans bare.closed
  plain := (listed symbol).trans bare.plain

/-- The scope of the parameters of a declaration, with so many of them declared. -/
structure Lists (table : SymbolTable) (owner : SymbolId) (scope : LocalScopeId)
    (address : List String) (count : Nat) : Prop where
  other : owner ≠ global
  held : table.holder? (.localScope scope) = some owner
  stands : table.Stands owner address
  found : ∃ symbol, table.get? owner = some symbol ∧ symbol.kind ≠ .interface ∧
    symbol.templateParams.length = count

end SymbolTable

namespace Binding
variable {b after : Binding}
open SymbolTable

/-! ### Reports -/

/-- A declaration lost its name. -/
def Reported (b : Binding) : Prop := ∃ finding ∈ b.diagnostics, finding.code = .duplicateSymbol

instance (b : Binding) : Decidable b.Reported :=
  inferInstanceAs (Decidable (∃ finding ∈ b.diagnostics, finding.code = .duplicateSymbol))

theorem Reported.mono (reported : b.Reported) (grows : b.diagnostics ⊆ after.diagnostics) :
    after.Reported := by
  obtain ⟨finding, member, code⟩ := reported
  exact ⟨finding, grows member, code⟩

theorem reported_record (b : Binding) (loser holder : SymbolId) (name : String)
    (location : Option Location) : (b.record (.duplicate loser holder) name location).Reported :=
  ⟨_, List.mem_append_right _ (List.mem_singleton_self _), rfl⟩

@[simp] theorem pendingUsings_record (b : Binding) (declared : Declared) (name : String)
    (location : Option Location) : (b.record declared name location).pendingUsings = b.pendingUsings := by
  unfold record
  split <;> rfl

@[simp] theorem pendingUsings_announce (b : Binding) (scope : Scope) (name : String)
    (kind : SymbolKind) (declaration : Declaration) (location : Option Location) :
    (b.announce scope name kind declaration location).pendingUsings = b.pendingUsings :=
  pendingUsings_record ..

/-! ### What has been bound so far -/

/-- All went well so far, and the table is the one that the entries say. -/
structure Traces (b : Binding) (entries : List Entry) (uses : List Usage)
    (waiting : Option SymbolId) : Prop where
  quiet : b.diagnostics = []
  mapped : b.table.Mapped entries
  filled : b.table.Filled waiting
  unused : ∀ node, b.table.tree.usings node = []
  pending : List.Forall₂ (fun (pending : PendingUsing) (use : Usage) => pending.path = use.path ∧
    pending.location = use.location ∧ b.table.Placed (.space pending.node) use.space) b.pendingUsings uses

/-- Two entries clash and this is reported, unless all went well. -/
inductive Fate (after : Binding) (entries : List Entry) (well : Prop) : Prop where
  | clash (reported : after.Reported) (apart : ¬ Compatible entries)
  | fine (so : well)

/-- What was reported stays reported, and what clashed clashes. -/
theorem Fate.andThen (fate : middle.Fate entries first)
    (grows : middle.diagnostics ⊆ after.diagnostics)
    (next : first → after.Fate (entries ++ more) last) : after.Fate (entries ++ more) last := by
  cases fate with
  | clash reported apart =>
    exact .clash (reported.mono grows) fun compatible => apart compatible.of_append
  | fine so => exact next so

theorem Fate.mono (fate : middle.Fate entries first)
    (grows : middle.diagnostics ⊆ after.diagnostics) (next : first → last) :
    after.Fate entries last := by
  cases fate with
  | clash reported apart => exact .clash (reported.mono grows) apart
  | fine so => exact .fine (next so)

theorem Fate.imp (fate : after.Fate entries first) (next : first → last) :
    after.Fate entries last :=
  fate.mono (List.Subset.refl _) next

/-- The fate of a part of a program that brings more entries and usings. -/
def Becomes (b after : Binding) (entries more : List Entry) (uses others : List Usage) : Prop :=
  after.Fate (entries ++ more)
    (after.Traces (entries ++ more) (uses ++ others) none ∧ b.table.Keeps after.table)

theorem Becomes.refl (traces : b.Traces entries uses none) : b.Becomes b entries [] uses [] := by
  apply Fate.fine
  simpa using ⟨traces, Keeps.refl b.table⟩

theorem Becomes.since (onward : middle.Becomes after entries more uses others)
    (keeps : b.table.Keeps middle.table) : b.Becomes after entries more uses others := by
  apply Fate.imp onward
  rintro ⟨traces, kept⟩
  exact ⟨traces, keeps.trans kept⟩

theorem Becomes.trans (first : b.Becomes middle entries more uses others)
    (grows : middle.diagnostics ⊆ after.diagnostics)
    (next : middle.Traces (entries ++ more) (uses ++ others) none → b.table.Keeps middle.table →
      middle.Becomes after (entries ++ more) rest (uses ++ others) last) :
    b.Becomes after entries (more ++ rest) uses (others ++ last) := by
  unfold Becomes
  rw [← List.append_assoc, ← List.append_assoc]
  apply Fate.andThen first grows
  rintro ⟨traces, keeps⟩
  exact (next traces keeps).since keeps

/-- The usings that wait, and the scopes in which they stand, are still there. -/
theorem Traces.follow (traces : b.Traces entries uses waiting) (quiet : after.diagnostics = [])
    (mapped : after.table.Mapped more) (filled : after.table.Filled later)
    (unused : after.table.tree.usings = b.table.tree.usings)
    (pending : after.pendingUsings = b.pendingUsings) (keeps : b.table.Keeps after.table) :
    after.Traces more uses later where
  quiet := quiet
  mapped := mapped
  filled := filled
  unused := by
    intro node
    rw [unused, traces.unused]
  pending := by
    rw [pending]
    apply traces.pending.imp
    rintro one use ⟨path, location, placed⟩
    exact ⟨path, location, placed.keep keeps⟩

/-- A change of a symbol that leaves its declarations, scopes and parameters alone. -/
theorem Traces.alter (traces : b.Traces entries uses waiting) (other : id ≠ global)
    (change : Symbol → Symbol) (keeps : ∀ symbol, outline (change symbol) = outline symbol)
    (declared : ∀ symbol, (change symbol).declarations = symbol.declarations)
    (listed : ∀ symbol, (change symbol).templateParams = symbol.templateParams) :
    (b.alter id change).Traces entries uses waiting ∧ b.table.Keeps (b.alter id change).table := by
  have kept : b.table.Keeps (b.alter id change).table := (Retains.modify other keeps).keeps
  refine ⟨traces.follow traces.quiet (traces.mapped.modify other keeps declared listed)
    (traces.filled.modify id keeps ?_) ?_ rfl kept, kept⟩
  · intro symbol none
    rwa [← listed symbol]
  · rw [Binding.alter, tree_modifySymbol]

/-- A scope is made for a declaration, which may be still to be filled. -/
theorem Traces.openScope (traces : b.Traces entries uses waiting)
    (opens : b.table.Opens (b.openScope kind parent).table owner symbol later kind)
    (awaited : waiting = none ∨ waiting = some owner)
    (declared : later.declarations = symbol.declarations)
    (listed : later.templateParams = symbol.templateParams) :
    (b.openScope kind parent).Traces entries uses (some owner) := by
  refine traces.follow traces.quiet (traces.mapped.opened opens declared listed)
    (traces.filled.open opens awaited) ?_ rfl opens.keeps
  rw [Binding.openScope, tree_createLocalScope]

/-! ### Declaring -/

/-- A name is had, or an entry clashes. -/
theorem announce_cases (traces : b.Traces entries uses waiting)
    (placed : b.table.Placed scope address) (name : String) (other : kind ≠ .space)
    (declaration : Declaration) (location : Option Location) (entry : Entry)
    (there : entry.address = address ++ [name]) (same : entry.kind = kind) :
    (b.announce scope name kind declaration location).Fate (entries ++ [entry])
      (b.table.binding? scope name = none ∧
        (b.announce scope name kind declaration location).diagnostics = [] ∧
        b.table.Adds (b.announce scope name kind declaration location).table
          { id := ⟨b.table.size⟩, name, kind, parent := scope, declarations := [declaration] } ∧
        (b.announce scope name kind declaration location).table.Coherent) := by
  have shaped := traces.mapped.shaped
  have held := placed.hasScope
  rw [table_announce]
  rcases declare_cases held with ⟨free, told, adds⟩ | ⟨taken, _, told⟩
  · refine .fine ⟨free, ?_, adds, shaped.coherent.step (Call.declare held other name declaration).outcome⟩
    unfold announce
    rw [told]
    exact traces.quiet
  · apply Fate.clash
    · unfold announce
      rw [told]
      exact reported_record ..
    · obtain ⟨id, bound⟩ := Option.isSome_iff_exists.mp taken
      obtain ⟨symbol, found, below, stood⟩ := placed.occupied shaped bound
      apply traces.mapped.recorded.clash shaped found below (there ▸ stood)
      rw [same]
      exact fun both => other both.2

/-- A declaration has its name and makes a symbol, or clashes. -/
theorem announce_fate (traces : b.Traces entries uses none) (placed : b.table.Placed scope address)
    (name : String) (declaration : Declaration) (location : Option Location) (other : kind ≠ .space)
    (plain : kind ≠ .templateParameter) (waits : kind = .interface ∧ waiting = some ⟨b.table.size⟩ ∨
      kind ≠ .interface ∧ waiting = none) :
    (b.announce scope name kind declaration location).Fate
      (entries ++ [⟨address ++ [name], kind, declaration.location, 0⟩])
      ((b.announce scope name kind declaration location).Traces
          (entries ++ [⟨address ++ [name], kind, declaration.location, 0⟩]) uses waiting ∧
        b.table.Keeps (b.announce scope name kind declaration location).table ∧
        (b.announce scope name kind declaration location).table.Bare ⟨b.table.size⟩
          { id := ⟨b.table.size⟩, name, kind, parent := scope, declarations := [declaration] }
          (address ++ [name])) := by
  apply (announce_cases traces placed name other declaration location
    ⟨address ++ [name], kind, declaration.location, 0⟩ rfl rfl).imp
  rintro ⟨free, quiet, adds, coherent⟩
  generalize announced : b.announce scope name kind declaration location = after at quiet adds coherent ⊢
  have mapped : after.table.Mapped (entries ++ [⟨address ++ [name], kind, declaration.location, 0⟩]) :=
    traces.mapped.add adds placed coherent free rfl rfl rfl rfl plain
  have filled : after.table.Filled waiting := by
    rcases waits with ⟨_, rfl⟩ | ⟨leaf, rfl⟩
    · intro id found present settled
      rw [adds.gains.symbols, if_neg (by simpa using settled)] at present
      exact traces.filled id found present (by simp)
    · exact traces.filled.add adds leaf
  refine ⟨traces.follow quiet mapped filled ?_ ?_ adds.keeps, adds.keeps, ?_⟩
  · rw [← announced, table_announce, usings_declare]
  · rw [← announced, pendingUsings_announce]
  · obtain ⟨holder, held, stands⟩ := placed
    have fresh : (⟨b.table.size⟩ : SymbolId) ≠ global := (ne_size traces.mapped.shaped.top).symm
    exact ⟨adds.gains.new, fresh, .inside adds.gains.new fresh (adds.keeps.holders _ _ held)
      (stands.keep adds.keeps), rfl, rfl⟩

theorem declare_fate (traces : b.Traces entries uses none) (placed : b.table.Placed scope address)
    (file : FileId) (name : Ident) (definition : Definition) (other : kind ≠ .space)
    (plain : kind ≠ .templateParameter)
    (waits : kind = .interface ∧ waiting = some (b.declare file scope name kind definition).1 ∨
      kind ≠ .interface ∧ waiting = none) :
    (b.declare file scope name kind definition).2.Fate (entries ++ [name.entry file address kind])
      ((b.declare file scope name kind definition).2.Traces
          (entries ++ [name.entry file address kind]) uses waiting ∧
        b.table.Keeps (b.declare file scope name kind definition).2.table ∧
        (b.declare file scope name kind definition).2.table.Bare
          (b.declare file scope name kind definition).1
          { id := ⟨b.table.size⟩, name := name.name, kind, parent := scope,
            declarations := [⟨⟨file, name.span⟩, definition⟩] } (address ++ [name.name])) := by
  rw [id_declare] at waits ⊢
  exact announce_fate traces placed name.name ⟨⟨file, name.span⟩, definition⟩ _ other plain waits

/-! ### Template parameters -/

theorem declareParam_fate (traces : b.Traces entries uses waiting) {scope : LocalScopeId}
    (lists : b.table.Lists owner scope address count)
    (awaited : waiting = none ∨ waiting = some owner) (file : FileId) (param : TemplateParam) :
    (b.declareParam file owner scope param).Fate
      (entries ++ [param.name.entry file address .templateParameter count])
      ((b.declareParam file owner scope param).Traces
          (entries ++ [param.name.entry file address .templateParameter count]) uses none ∧
        b.table.Keeps (b.declareParam file owner scope param).table ∧
        (b.declareParam file owner scope param).table.Lists owner scope address (count + 1)) := by
  obtain ⟨other, held, stands, symbol, found, leaf, length⟩ := lists
  have fate := announce_cases traces ⟨owner, held, stands⟩ param.name.name
    (by simp : SymbolKind.templateParameter ≠ .space)
    ⟨⟨file, param.name.span⟩, .templateParameter param⟩ (some ⟨file, param.name.span⟩)
    (param.name.entry file address .templateParameter count) rfl rfl
  rw [declareParam_eq]
  generalize announced : b.announce (.localScope scope) param.name.name .templateParameter
    ⟨⟨file, param.name.span⟩, .templateParameter param⟩ (some ⟨file, param.name.span⟩) = middle at fate ⊢
  generalize listed : middle.alter owner (fun s =>
    { s with templateParams := s.templateParams ++ [⟨b.table.size⟩] }) = last
  have grows : middle.diagnostics ⊆ last.diagnostics := listed ▸ List.Subset.refl _
  apply fate.mono grows
  rintro ⟨free, quiet, adds, coherent⟩
  have mapped : last.table.Mapped (entries ++ [param.name.entry file address .templateParameter count]) :=
    listed ▸ traces.mapped.addParam adds held stands found coherent free rfl rfl rfl rfl rfl
      length.symm other
  have retains : middle.table.Retains last.table := listed ▸ .modify other fun _ => rfl
  have present : last.table.get? owner =
      some { symbol with templateParams := symbol.templateParams ++ [⟨b.table.size⟩] } := by
    rw [← listed, alter, get?_modifySymbol, if_pos rfl, adds.gains.kept found]
    rfl
  have filled : last.table.Filled waiting :=
    listed ▸ (traces.filled.add adds (by simp)).modify owner (fun _ => rfl) (by simp)
  have settled : last.table.Filled none := by
    rcases awaited with rfl | rfl
    · exact filled
    · exact filled.settle present (fun kind => absurd kind leaf) (by simp)
  have keeps := adds.keeps.trans retains.keeps
  refine ⟨traces.follow (listed ▸ quiet) mapped settled ?_ ?_ keeps, keeps, ?_⟩
  · rw [← listed, alter, tree_modifySymbol, ← announced, table_announce, usings_declare]
  · rw [← listed, alter, ← announced, pendingUsings_announce]
  · exact ⟨other, keeps.holders _ _ held, stands.keep keeps, _, present, leaf, by simp [length]⟩

/-- The parameters of a declaration, one after the other. -/
theorem foldParams_becomes (file : FileId) {scope : LocalScopeId} (params : List TemplateParam)
    (b : Binding) (entries : List Entry) (count : Nat) (traces : b.Traces entries uses waiting)
    (lists : b.table.Lists owner scope address count)
    (awaited : waiting = none ∨ waiting = some owner ∧ params ≠ []) :
    b.Becomes (params.foldl (fun next param => next.declareParam file owner scope param) b) entries
      (paramEntries file address count params) uses [] := by
  induction params generalizing b entries count waiting with
  | nil =>
    obtain rfl : waiting = none := by simpa using awaited
    exact .refl traces
  | cons param rest ih =>
    have fate := declareParam_fate traces lists (awaited.imp_right And.left) file param
    unfold Becomes
    rw [List.foldl_cons, paramEntries, List.zipIdx_cons, List.map_cons, List.append_cons]
    apply fate.andThen (foldParams_course file rootScope rest False.elim _ False.elim False.elim).grows
    rintro ⟨traces, keeps, lists⟩
    exact (ih _ _ (count + 1) traces lists (.inl rfl)).since keeps

section
variable (traces : b.Traces entries uses none) (bare : b.table.Bare owner symbol address)
  (kind : symbol.kind = .model ∨ symbol.kind = .operation)
include traces bare kind

/-- The scope of the parameters stands beside the declaration, and is to be filled. -/
theorem openTemplate_traces :
    (b.openTemplate owner symbol.parent).Traces entries uses (some owner) ∧
      b.table.Keeps (b.openTemplate owner symbol.parent).table ∧
      (b.openTemplate owner symbol.parent).table.Lists owner ⟨b.table.locals.size⟩ address 0 := by
  generalize altered : b.alter owner (fun s => { s with templated := true }) = middle
  have marked : middle.Traces entries uses none ∧ b.table.Keeps middle.table :=
    altered ▸ traces.alter bare.other _ (fun _ => rfl) (fun _ => rfl) fun _ => rfl
  have still : middle.table.Bare owner { symbol with templated := true } address :=
    altered ▸ bare.modify _ (fun _ => rfl) fun _ => rfl
  have size : b.table.locals.size = middle.table.locals.size := by
    rw [← altered, alter, locals_modifySymbol]
  have opens := openTemplate_opens still.found still.other still.closed kind
  rw [openTemplate, altered, size]
  have keeps := opens.keeps
  refine ⟨marked.1.openScope opens (.inl rfl) rfl rfl, marked.2.trans keeps, still.other, ?_,
    still.stands.keep keeps, _, (opens.symbols owner).trans (if_pos rfl), ?_, ?_⟩
  · exact (opens.holders _).trans (if_pos rfl)
  · rcases kind with model | operation
    · simp [model]
    · simp [operation]
  · exact congrArg List.length bare.plain

theorem declareParams_becomes (file : FileId) (params : List TemplateParam) :
    b.Becomes (b.declareParams file owner symbol.parent params) entries
      (paramEntries file address 0 params) uses [] := by
  rw [declareParams_eq]
  by_cases empty : params = []
  · subst empty
    exact .refl traces
  · rw [if_neg (by simpa using empty)]
    obtain ⟨opened, keeps, lists⟩ := openTemplate_traces traces bare kind
    exact (foldParams_becomes file params _ entries 0 opened lists (.inr ⟨rfl, empty⟩)).since keeps

end

/-! ### Models, operations and interfaces -/

/-- A declaration and what stands in it. -/
theorem Fate.within (fate : middle.Fate (entries ++ [entry]) well)
    (grows : middle.diagnostics ⊆ after.diagnostics)
    (next : well → b.Becomes after (entries ++ [entry]) more uses others) :
    b.Becomes after entries (entry :: more) uses others := by
  unfold Becomes
  rw [List.append_cons]
  exact fate.andThen grows next

/-- What stands in one scope, one after the other. -/
theorem foldl_becomes {step : Binding → α → Binding} {count : α → Nat}
    (each : ∀ b one, Course False 0 (fun _ => True) (count one) b (step b one))
    (bind : ∀ (b : Binding) (one : α) (entries : List Entry) (uses : List Usage),
      b.Traces entries uses none → b.table.Placed scope address →
        b.Becomes (step b one) entries (parts one) uses (brought one)) (l : List α)
    (traces : b.Traces entries uses none) (placed : b.table.Placed scope address) :
    b.Becomes (l.foldl step b) entries (l.flatMap parts) uses (l.flatMap brought) := by
  induction l generalizing b entries uses with
  | nil => exact .refl traces
  | cons first rest ih =>
    rw [List.foldl_cons, List.flatMap_cons, List.flatMap_cons]
    apply (bind b first entries uses traces placed).trans
      (foldl_course rootScope rest (fun one _ b _ => each b one) _ False.elim).grows
    intro traces keeps
    exact ih traces (placed.keep keeps)

section
variable (traces : b.Traces entries uses none) (placed : b.table.Placed scope address)
  (file : FileId)
include traces placed

theorem bindModel_becomes (decl : ModelDecl) :
    b.Becomes (b.bindModel file scope decl) entries (decl.entries file address) uses [] := by
  have fate := declare_fate traces placed file decl.name (.model decl)
    (by simp : SymbolKind.model ≠ .space) (by simp) (.inr ⟨by simp, rfl⟩)
  apply fate.within (declareParams_course _ _ False.elim False.elim False.elim).grows
  rintro ⟨traces, keeps, bare⟩
  exact (declareParams_becomes traces bare (.inl rfl) file decl.params).since keeps

theorem bindOperation_becomes (interfaceMember : Bool) (decl : OperationDecl) :
    b.Becomes (b.bindOperation file scope interfaceMember decl) entries (decl.entries file address)
      uses [] := by
  have fate := declare_fate traces placed file decl.name (.operation decl)
    (by simp : SymbolKind.operation ≠ .space) (by simp) (.inr ⟨by simp, rfl⟩)
  rw [bindOperation_eq]
  apply fate.within (declareParams_course (alter ..) _ False.elim False.elim False.elim).grows
  rintro ⟨traces, keeps, bare⟩
  have marked := bare.modify (fun s => { s with interfaceMember }) (fun _ => rfl) fun _ => rfl
  obtain ⟨traces, kept⟩ := traces.alter bare.other (fun s => { s with interfaceMember })
    (fun _ => rfl) (fun _ => rfl) fun _ => rfl
  exact (declareParams_becomes traces marked (.inr rfl) file decl.params).since (keeps.trans kept)

end

/-- The scope of the operations stands beside the interface. -/
theorem openInterface_traces (traces : b.Traces entries uses (some owner))
    (bare : b.table.Bare owner symbol address) (kind : symbol.kind = .interface) :
    (b.openScope (.interface owner) symbol.parent).Traces entries uses none ∧
      b.table.Keeps (b.openScope (.interface owner) symbol.parent).table ∧
      (b.openScope (.interface owner) symbol.parent).table.Placed (.localScope ⟨b.table.locals.size⟩)
        address := by
  have opens : b.table.Opens (b.openScope (.interface owner) symbol.parent).table owner symbol _ _ :=
    openInterface_opens bare.found bare.other bare.closed kind
  obtain ⟨_, _, loose⟩ := inner?_eq_none bare.closed
  have opened := traces.openScope opens (.inr rfl) rfl rfl
  have filled := opened.filled.settle ((opens.symbols owner).trans (if_pos rfl)) (by simp) (by simp [loose])
  exact ⟨{ opened with filled }, opens.keeps, owner, (opens.holders _).trans (if_pos rfl),
    bare.stands.keep opens.keeps⟩

theorem bindInterface_becomes (traces : b.Traces entries uses none) {address : List String}
    (placed : b.table.Placed scope address) (file : FileId) (decl : InterfaceDecl) :
    b.Becomes (b.bindInterface file scope decl) entries (decl.entries file address) uses [] := by
  have fate := declare_fate traces placed file decl.name (.interface decl)
    (by simp : SymbolKind.interface ≠ .space) (by simp) (.inl ⟨rfl, rfl⟩)
  rw [bindInterface_eq]
  have each (next : Binding) (operation : OperationDecl) : Course False 0 (fun _ => True) _ next
      (next.bindOperation file (.localScope ⟨(b.declare file scope decl.name .interface
        (.interface decl)).2.table.locals.size⟩) true operation) :=
    next.bindOperation_course file true (address ++ [decl.name.name]) False.elim False.elim
  apply fate.within (foldl_course rootScope decl.operations (fun one _ b _ => each b one) (openScope ..)
    False.elim).grows
  rintro ⟨traces, keeps, bare⟩
  obtain ⟨traces, kept, placed⟩ := openInterface_traces traces bare rfl
  have onward := foldl_becomes each
    (fun next operation entries uses traces placed =>
      bindOperation_becomes traces placed file true operation) decl.operations traces placed
  have unused : decl.operations.flatMap (fun _ => ([] : List Usage)) = [] := by
    simp [List.flatMap_eq_nil_iff]
  rw [unused] at onward
  exact onward.since (keeps.trans kept)

/-! ### Namespaces -/

/-- A namespace is entered, be it new or not, unless its name belongs to something else. -/
theorem enterNamespace_fate (traces : b.Traces entries uses none)
    (placed : b.table.Placed (.space parent) address) (file : FileId) (name : Ident)
    (definition : Definition) :
    (b.enterNamespace file parent name definition).2.Fate (entries ++ [name.entry file address .space])
      ((b.enterNamespace file parent name definition).2.Traces
          (entries ++ [name.entry file address .space]) uses none ∧
        b.table.Keeps (b.enterNamespace file parent name definition).2.table ∧
        (b.enterNamespace file parent name definition).2.table.Placed
          (.space (b.enterNamespace file parent name definition).1) (address ++ [name.name])) := by
  generalize written : (⟨⟨file, name.span⟩, definition⟩ : Declaration) = declaration
  have here : name.entry file address .space =
      ⟨address ++ [name.name], .space, declaration.location, 0⟩ := by
    rw [← written]
    rfl
  have shaped := traces.mapped.shaped
  have held := placed.hasScope
  have unused := b.table.usings_declareNamespace parent name.name (some declaration)
  have coherent := shaped.coherent.step (declareNamespace_outcome held name.name (some declaration))
  have cases := declareNamespace_adds held name.name (some declaration)
  rw [enterNamespace_eq, here, written]
  generalize b.table.declareNamespace parent name.name (some declaration) = declared
    at unused coherent cases ⊢
  obtain ⟨told, table⟩ := declared
  rcases cases with ⟨free, rfl, adds⟩ | ⟨existing, bound, ⟨kind, merged⟩ | ⟨kind, loser, winner, rfl⟩⟩
  · obtain ⟨mapped, inside⟩ := traces.mapped.newSpace placed adds coherent free
    have filled := traces.filled.add adds (by simp)
    exact .fine ⟨traces.follow traces.quiet mapped filled unused rfl adds.keeps, adds.keeps, inside⟩
  · cases merged
    obtain ⟨mapped, keeps, inside⟩ := traces.mapped.mergeSpace placed bound kind declaration
    have filled : (b.table.addDeclaration existing (some declaration)).Filled none :=
      traces.filled.modify existing (fun _ => rfl) fun _ none => none
    exact .fine ⟨traces.follow traces.quiet mapped filled unused rfl keeps, keeps, inside⟩
  · refine .clash (reported_record _ loser winner _ _) ?_
    obtain ⟨symbol, found, other, stood⟩ := placed.occupied shaped bound
    rw [symbol_of_get? found] at kind
    exact traces.mapped.recorded.clash shaped found other stood fun both => kind both.1

theorem enterPath_fate (file : FileId) (head : NamespaceHead) (path : List Ident) (b : Binding)
    (entries : List Entry) (traces : b.Traces entries uses none)
    (placed : b.table.Placed (.space parent) address) :
    (b.enterPath file parent head path).2.Fate (entries ++ pathEntries file address path)
      ((b.enterPath file parent head path).2.Traces (entries ++ pathEntries file address path) uses none ∧
        b.table.Keeps (b.enterPath file parent head path).2.table ∧
        (b.enterPath file parent head path).2.table.Placed
          (.space (b.enterPath file parent head path).1) (address ++ path.map (·.name))) := by
  fun_induction enterPath b file parent head path generalizing entries address with
  | case1 b parent =>
    apply Fate.fine
    simpa [pathEntries] using ⟨traces, Keeps.refl b.table, placed⟩
  | case2 b parent last => exact enterNamespace_fate traces placed file last (.space head)
  | case3 b parent segment rest _ node entered same ih =>
    have fate := enterNamespace_fate traces placed file segment .implicitNamespace
    rw [same] at fate
    rw [pathEntries, List.append_cons]
    apply fate.andThen (enterPath_course _ _ False.elim False.elim).1.grows
    rintro ⟨traces, keeps, inside⟩
    apply (ih _ traces inside).imp
    rintro ⟨traces, kept, innermost⟩
    refine ⟨traces, keeps.trans kept, ?_⟩
    simpa using innermost

/-! ### Programs -/

/-- A using waits for its target, in the namespace where it stands. -/
theorem bindUsing_becomes (traces : b.Traces entries uses none)
    (placed : b.table.Placed (.space node) address) (file : FileId) (decl : UsingDecl) :
    b.Becomes (b.bindUsing file node decl) entries [] uses
      [⟨address, decl.path.map (·.name), ⟨file, decl.span⟩⟩] := by
  apply Fate.fine
  rw [List.append_nil]
  refine ⟨⟨traces.quiet, traces.mapped, traces.filled, traces.unused, ?_⟩, .refl b.table⟩
  exact List.rel_append traces.pending (.cons ⟨rfl, rfl, placed⟩ .nil)

mutual

theorem bindItem_becomes (file : FileId) (item : Item) {b : Binding} {entries : List Entry}
    {uses : List Usage} (traces : b.Traces entries uses none)
    (placed : b.table.Placed (.space node) address) :
    b.Becomes (bindItem file node item b) entries (item.entries file address) uses
      (item.uses file address) := by
  cases item with
  | space head items =>
    unfold bindItem Item.entries Item.uses
    split
    · exact .refl traces
    · unfold Becomes
      rw [← List.append_assoc]
      apply (enterPath_fate file head head.path b entries traces placed).andThen
        (bindItems_course file items address _ False.elim False.elim).grows
      rintro ⟨traces, keeps, inside⟩
      exact (bindItems_becomes file items traces inside).since keeps
  | model decl => exact bindModel_becomes traces placed file decl
  | operation decl => exact bindOperation_becomes traces placed file false decl
  | interface decl => exact bindInterface_becomes traces placed file decl
  | «using» decl => exact bindUsing_becomes traces placed file decl

theorem bindItems_becomes (file : FileId) {node : NamespaceId} {address : List String}
    (items : List Item) {b : Binding} {entries : List Entry} {uses : List Usage}
    (traces : b.Traces entries uses none) (placed : b.table.Placed (.space node) address) :
    b.Becomes (bindItems file node items b) entries (itemEntries file address items) uses
      (itemUses file address items) := by
  cases items with
  | nil => exact .refl traces
  | cons item rest =>
    apply (bindItem_becomes file item traces placed).trans
      (bindItems_course file rest address _ False.elim False.elim).grows
    intro traces keeps
    exact bindItems_becomes file rest traces (placed.keep keeps)

end

theorem bindScript_becomes (traces : b.Traces entries uses none)
    (placed : b.table.Placed rootScope []) (script : Script) :
    b.Becomes (b.bindScript script) entries (itemEntries script.file [] script.items) uses
      (itemUses script.file [] script.items) := by
  have bound := bindItems_becomes script.file script.items traces placed
  have grows : (bindItems script.file NamespaceTree.root script.items b).diagnostics ⊆
      (b.bindScript script).diagnostics := List.Subset.refl _
  apply Fate.mono bound grows
  rintro ⟨traces, keeps⟩
  exact ⟨traces.follow traces.quiet traces.mapped traces.filled rfl rfl (.refl _), keeps⟩

theorem bindLibrary_becomes (traces : b.Traces entries uses none)
    (placed : b.table.Placed rootScope []) (names : List String) :
    b.Becomes (b.bindLibrary names) entries
      (names.map fun name => ⟨[name], .decorator, ⟨.library, ⟨0, 0, 0⟩⟩, 0⟩) uses [] := by
  have bound : b.Becomes (b.bindLibrary names) entries
      (names.zipIdx.flatMap fun one => [⟨[one.1], .decorator, ⟨.library, ⟨0, 0, 0⟩⟩, 0⟩]) uses
      (names.zipIdx.flatMap fun _ => []) := by
    rw [bindLibrary_eq]
    refine foldl_becomes (fun next one => .change (.announce _ _ _ _ _ _ False.elim) False.elim) ?_
      names.zipIdx traces placed
    intro next one entries uses traces placed
    have fate := announce_fate traces placed one.1 ⟨⟨.library, ⟨0, 0, 0⟩⟩, .decorator ⟨one.2⟩⟩ none
      (by simp : SymbolKind.decorator ≠ .space) (by simp) (.inr ⟨by simp, rfl⟩)
    apply fate.imp
    rintro ⟨traces, keeps, _⟩
    exact ⟨by simpa using traces, keeps⟩
  rw [← List.map_eq_flatMap, List.flatMap_eq_nil_iff.mpr (by simp)] at bound
  have listed (entry : String → Entry) :
      names.zipIdx.map (fun one => entry one.1) = names.map entry := by
    have firsts := congrArg (List.map entry) (List.zipIdx_map_fst 0 names)
    rwa [List.map_map] at firsts
  rwa [listed fun name => ⟨[name], .decorator, ⟨.library, ⟨0, 0, 0⟩⟩, 0⟩] at bound

theorem empty_traces : ({} : Binding).Traces [] [] none where
  quiet := rfl
  mapped := by
    refine ⟨.empty, ⟨.nil, by simp, ?_⟩, ?_⟩
    · intro id symbol address found other
      exact absurd (Coherent.get?_empty found).1 other
    · intro id symbol address found _ position param
      rw [(Coherent.get?_empty found).2]
      simp [globalSymbol, IsParam]
  filled := by
    intro id symbol found _
    rw [(Coherent.get?_empty found).2]
    simp [globalSymbol]
  unused := by
    rintro ⟨_ | index⟩
    · rfl
    · rfl
  pending := .nil

end Binding

end Idl
