import Idl.Proofs.BoundEntries

/-! Usings are resolved when every file is bound. What a using brings in and whether it is
reported depends on the paths of the table only, so with what binding makes of the
entries it is known what a program is bound to. -/
namespace Idl

theorem NamespaceTree.member?_addUsing (tree : NamespaceTree) (user target : NamespaceId) :
    (tree.addUsing user target).member? = tree.member? := by
  funext node name
  simp only [member?, addUsing, node?_modify]
  by_cases same : node = user
  · subst same
    cases tree.node? node with
    | none => simp
    | some found =>
      simp only [↓reduceIte, Option.map_some, Option.bind_some]
      split <;> rfl
  · simp [same]

theorem NamespaceTree.mem_usings_addUsing {tree : NamespaceTree}
    (present : (tree.node? user).isSome) (target node other : NamespaceId) :
    other ∈ (tree.addUsing user target).usings node ↔
      other ∈ tree.usings node ∨ node = user ∧ other = target := by
  obtain ⟨found, there⟩ := Option.isSome_iff_exists.mp present
  simp only [usings, addUsing, node?_modify]
  by_cases same : node = user
  · simp only [same, there, ↓reduceIte, Option.map_some, true_and]
    by_cases known : target ∈ found.usings
    · simp only [known, ↓reduceIte]
      constructor
      · exact .inl
      · rintro (old | rfl)
        · exact old
        · exact known
    · simp [known]
  · simp [same]

namespace SymbolTable
variable {table : SymbolTable}

theorem namespacePath?_addUsing (table : SymbolTable) (user target : NamespaceId) :
    (table.addUsing user target).namespacePath? = table.namespacePath? := by
  funext names
  simp only [namespacePath?, member?, addUsing, NamespaceTree.member?_addUsing]
  rfl

theorem Mapped.addUsing (mapped : table.Mapped entries) (user target : NamespaceId) :
    (table.addUsing user target).Mapped entries := by
  have retains : table.Retains (table.addUsing user target) := .addUsing user target
  have shaped := mapped.shaped.retain retains
  exact ⟨shaped, mapped.recorded.same mapped.shaped retains.keeps fun _ => rfl,
    mapped.params.same mapped.recorded mapped.shaped retains.keeps shaped fun _ => rfl⟩

/-- A path names a namespace. -/
def Targets (table : SymbolTable) (path : List String) (target : NamespaceId) : Prop :=
  ∃ id, table.namespacePath? path = some id ∧ (table.symbol id).node = some target

end SymbolTable

/-- The report of a using whose target is nowhere. -/
def unknownNamespace (path : List String) (location : Location) : Diagnostic :=
  let name := ".".intercalate path
  .report .unknownNamespace s!"Unknown namespace '{name}'." (some location)

/-- The reports of the usings with given paths and places. -/
def SymbolTable.reports (table : SymbolTable) (wanted : List (List String × Location)) :
    List Diagnostic :=
  (wanted.filter fun one => (table.namespacePath? one.1).isNone).map fun one =>
    unknownNamespace one.1 one.2

namespace Binding
variable {b : Binding}
open SymbolTable

/-- Some of the usings of a program are resolved. -/
structure Resolves (b after : Binding) (entries : List Entry) (done : List PendingUsing) : Prop where
  mapped : after.table.Mapped entries
  symbols : after.table.symbols = b.table.symbols
  keeps : b.table.Keeps after.table
  paths : after.table.namespacePath? = b.table.namespacePath?
  brought : ∀ node target, target ∈ after.table.tree.usings node ↔
    target ∈ b.table.tree.usings node ∨
      ∃ pending ∈ done, pending.node = node ∧ b.table.Targets pending.path target
  told : after.diagnostics =
    b.diagnostics ++ b.table.reports (done.map fun pending => (pending.path, pending.location))

theorem Resolves.symbol (resolves : b.Resolves after entries done) (id : SymbolId) :
    after.table.symbol id = b.table.symbol id := by
  rw [SymbolTable.symbol, SymbolTable.symbol, get?_of_symbols resolves.symbols]

theorem mem_concat_targets (done : List PendingUsing) (pending : PendingUsing) (node target : NamespaceId) :
    (∃ one ∈ done ++ [pending], one.node = node ∧ b.table.Targets one.path target) ↔
      (∃ one ∈ done, one.node = node ∧ b.table.Targets one.path target) ∨
        pending.node = node ∧ b.table.Targets pending.path target := by
  simp [or_and_right, exists_or]

/-- One more using is resolved, or reported. -/
theorem Resolves.step {done : List PendingUsing} (resolves : b.Resolves after entries done)
    (held : b.table.HasScope (.space pending.node)) :
    b.Resolves (after.resolveUsing pending) entries (done ++ [pending]) := by
  obtain ⟨holder, owned⟩ := (hasScope_iff _).mp held
  have present : (after.table.tree.node? pending.node).isSome :=
    (hasScope_iff _).mpr ⟨holder, resolves.keeps.holders _ _ owned⟩
  unfold resolveUsing
  rw [resolves.paths]
  cases path : b.table.namespacePath? pending.path with
  | none =>
    have nowhere (target : NamespaceId) : ¬ b.table.Targets pending.path target := by
      rintro ⟨id, found, _⟩
      cases path.symm.trans found
    refine { resolves with brought := ?_, told := ?_ }
    · intro node target
      rw [mem_concat_targets, resolves.brought]
      simp [nowhere]
    · simp [resolves.told, reports, path, unknownNamespace]
  | some id =>
    have told : b.diagnostics ++ b.table.reports ((done ++ [pending]).map fun one =>
        (one.path, one.location)) = after.diagnostics := by
      simp [resolves.told, reports, path]
    have targets (target : NamespaceId) :
        b.table.Targets pending.path target ↔ (b.table.symbol id).node = some target := by
      simp [SymbolTable.Targets, path]
    dsimp only
    rw [resolves.symbol]
    cases own : (b.table.symbol id).node with
    | none =>
      refine { resolves with brought := ?_, told := told.symm }
      intro node target
      rw [mem_concat_targets, resolves.brought, targets, own]
      simp
    | some space =>
      refine ⟨resolves.mapped.addUsing .., resolves.symbols, ?_, ?_, ?_, told.symm⟩
      · exact resolves.keeps.trans (Retains.addUsing ..).keeps
      · rw [namespacePath?_addUsing, resolves.paths]
      · intro node target
        have added := NamespaceTree.mem_usings_addUsing present space node target
        rw [mem_concat_targets, targets, own]
        refine added.trans ?_
        rw [resolves.brought, or_assoc]
        simp [eq_comm]

/-- The table of a program whose entries do not clash, and what was reported. -/
structure Settled (b : Binding) (entries : List Entry) (uses : List Usage) : Prop where
  mapped : b.table.Mapped entries
  filled : b.table.Filled none
  brought : ∀ node target, target ∈ b.table.tree.usings node ↔
    ∃ use ∈ uses, b.table.Placed (.space node) use.space ∧ b.table.Targets use.path target
  told : b.diagnostics = b.table.reports (uses.map fun use => (use.path, use.location))

theorem foldUsings_resolves (resolves : b.Resolves after entries done) (rest : List PendingUsing)
    (held : ∀ pending ∈ rest, b.table.HasScope (.space pending.node)) :
    b.Resolves (rest.foldl resolveUsing after) entries (done ++ rest) := by
  induction rest generalizing after done with
  | nil => simpa using resolves
  | cons pending rest ih =>
    rw [List.foldl_cons, List.append_cons]
    apply ih (resolves.step (held pending (List.mem_cons_self ..)))
    intro other member
    exact held other (List.mem_cons_of_mem _ member)

theorem exists_related (both : List.Forall₂ related l m) (member : one ∈ l) :
    ∃ two ∈ m, related one two := by
  induction both with
  | nil => cases member
  | cons first _ ih =>
    rcases List.mem_cons.mp member with rfl | later
    · exact ⟨_, List.mem_cons_self .., first⟩
    · obtain ⟨two, listed, so⟩ := ih later
      exact ⟨two, List.mem_cons_of_mem _ listed, so⟩

theorem finish_settled (traces : b.Traces entries uses none) : b.finish.Settled entries uses := by
  have start : b.Resolves { b with pendingUsings := [] } entries [] :=
    ⟨traces.mapped, rfl, .refl _, rfl, by simp, by simp [reports]⟩
  have resolves : b.Resolves b.finish entries b.pendingUsings := by
    apply foldUsings_resolves start
    intro pending member
    obtain ⟨_, _, _, _, placed⟩ := exists_related traces.pending member
    exact placed.hasScope
  have targets (path : List String) (target : NamespaceId) :
      b.finish.table.Targets path target ↔ b.table.Targets path target := by
    simp only [SymbolTable.Targets, resolves.paths, resolves.symbol]
  have keys : b.pendingUsings.map (fun pending => (pending.path, pending.location)) =
      uses.map fun use => (use.path, use.location) := by
    rw [← List.forall₂_eq_eq_eq, List.forall₂_map_left_iff, List.forall₂_map_right_iff]
    apply traces.pending.imp
    rintro pending use ⟨path, location, _⟩
    rw [path, location]
  constructor
  · exact resolves.mapped
  · intro id symbol found
    rw [get?_of_symbols resolves.symbols] at found
    exact traces.filled id symbol found
  · intro node target
    rw [resolves.brought, traces.unused]
    constructor
    · rintro (none | ⟨pending, member, rfl, led⟩)
      · cases none
      · obtain ⟨use, listed, path, _, placed⟩ := exists_related traces.pending member
        exact ⟨use, listed, placed.keep resolves.keeps, (targets ..).mpr (path ▸ led)⟩
    · rintro ⟨use, listed, placed, led⟩
      obtain ⟨pending, member, path, _, there⟩ := exists_related traces.pending.flip listed
      have same := (there.keep resolves.keeps).unique placed resolves.mapped.shaped
      exact .inr ⟨pending, member, Scope.space.inj same, path ▸ (targets ..).mp led⟩
  · rw [resolves.told, traces.quiet, keys, List.nil_append, reports, reports, resolves.paths]

/-- Two entries of a program clash and this is reported, or its table is the one that its entries
and usings say. -/
theorem ofScripts_fate (names : List String) (scripts : List Script) :
    (ofScripts names scripts).Fate (programEntries names scripts)
      ((ofScripts names scripts).Settled (programEntries names scripts) (programUses scripts)) := by
  have library := bindLibrary_becomes empty_traces SymbolTable.Shaped.empty.placed_root names
  have each (b : Binding) (script : Script) :
      Course False 0 (fun _ => True) _ b (b.bindScript script) :=
    b.bindScript_course script False.elim False.elim
  have grows := (foldl_course rootScope scripts (fun one _ b _ => each b one)
    (({} : Binding).bindLibrary names) False.elim).grows
  have bound := library.trans grows fun traces _ => foldl_becomes each
    (fun _ script _ _ traces placed => bindScript_becomes traces placed script) scripts traces
    traces.mapped.shaped.placed_root
  apply Fate.mono bound (finish_course _ False.elim).grows
  rintro ⟨traces, _⟩
  exact finish_settled traces

end Binding

end Idl
