import Idl.Proofs.FileOrder
import Mathlib.Data.List.Perm.Subperm

/-! What a name means at a place. The scopes around a place form a chain that ends in the
global namespace. The innermost scope of the chain that has an accepted symbol decides,
whatever is brought in. Only a name that no scope of the chain has is searched among what
the namespaces of the chain bring in, where the symbols count once each and come in the
order of their first using: by the namespace that it stands in, innermost first, and then
by its age. This says for every table what looking a name up gives. -/
namespace Idl

/-! ### The order of candidates -/

theorem Resolution.ofCandidates_eq_ambiguous {found : List (NamespaceId × SymbolId)} :
    ofCandidates found = .ambiguous candidates ↔ found = candidates ∧ 2 ≤ found.length := by
  rcases found with _ | ⟨first, _ | ⟨second, rest⟩⟩
  · simp [ofCandidates]
  · simp [ofCandidates]
  · simp [ofCandidates]

namespace NamespaceTree

theorem mem_symbols_addCandidates {more : List (NamespaceId × SymbolId)} (id : SymbolId) :
    id ∈ (more.foldl addCandidate found).map (·.2) ↔
      id ∈ found.map (·.2) ∨ id ∈ more.map (·.2) := by
  induction more generalizing found with
  | nil => simp
  | cons first rest ih =>
    rw [List.foldl_cons, ih]
    by_cases known : first.2 ∈ found.map (·.2)
    · rw [addCandidate, if_pos known, List.map_cons, List.mem_cons]
      constructor
      · exact Or.imp_right .inr
      · rintro (old | rfl | new)
        · exact .inl old
        · exact .inl known
        · exact .inr new
    · rw [addCandidate, if_neg known]
      simp [or_assoc]

/-- Of two candidates the first one is met while the symbol of the other one is still unknown. -/
theorem pairwise_addCandidates (all : List (NamespaceId × SymbolId)) :
    (all.foldl addCandidate []).Pairwise fun one two =>
      ∃ front back, all = front ++ one :: back ∧ ∀ earlier ∈ front ++ [one], earlier.2 ≠ two.2 := by
  induction all using List.reverseRecOn with
  | nil => exact .nil
  | append_singleton all last ih =>
    have longer : (all.foldl addCandidate []).Pairwise fun one two => ∃ front back,
        all ++ [last] = front ++ one :: back ∧ ∀ earlier ∈ front ++ [one], earlier.2 ≠ two.2 := by
      apply ih.imp
      rintro one two ⟨front, back, rfl, apart⟩
      exact ⟨front, back ++ [last], by simp, apart⟩
    rw [List.foldl_append, List.foldl_cons, List.foldl_nil, addCandidate]
    split
    · exact longer
    · rename_i unknown
      rw [List.pairwise_append]
      refine ⟨longer, List.pairwise_singleton .., ?_⟩
      intro one listed two new
      obtain rfl := List.mem_singleton.mp new
      have member : one ∈ all := (mem_addCandidates listed).resolve_left List.not_mem_nil
      obtain ⟨front, back, rfl⟩ := List.append_of_mem member
      refine ⟨front, back ++ [two], by simp, ?_⟩
      intro earlier met same
      apply unknown
      rw [mem_symbols_addCandidates]
      refine .inr (List.mem_map.mpr ⟨earlier, ?_, same⟩)
      rcases List.mem_append.mp met with before | itself
      · exact List.mem_append_left _ before
      · simp [List.mem_singleton.mp itself]

/-- The usings of a namespace and those around it, with who uses what, in the order in which
they are searched. -/
def usingsAround (tree : NamespaceTree) (node : NamespaceId) : List (NamespaceId × NamespaceId) :=
  (tree.enclosing node).flatMap fun user => (tree.usings user).map (user, ·)

theorem mem_usingsAround {tree : NamespaceTree} :
    edge ∈ tree.usingsAround node ↔ edge.1 ∈ tree.enclosing node ∧ edge.2 ∈ tree.usings edge.1 := by
  obtain ⟨user, target⟩ := edge
  simp [usingsAround]

theorem usings_addUsing {tree : NamespaceTree} (target : NamespaceId)
    (present : (tree.node? user).isSome) (node : NamespaceId) :
    (tree.addUsing user target).usings node =
      if node = user ∧ target ∉ tree.usings user then tree.usings user ++ [target]
      else tree.usings node := by
  obtain ⟨found, there⟩ := Option.isSome_iff_exists.mp present
  simp only [usings, addUsing, node?_modify]
  by_cases same : node = user
  · by_cases known : target ∈ found.usings
    · simp [same, there, known]
    · simp [same, there, known]
  · simp [same]

end NamespaceTree

/-! ### The scopes around a place -/

/-- A scope was there before another one. -/
def Scope.Older : Scope → Scope → Prop
  | .space one, .space two => one.index < two.index
  | .space _, .localScope _ => True
  | .localScope _, .space _ => False
  | .localScope one, .localScope two => one.index < two.index

theorem Scope.Older.trans {one : Scope} (first : one.Older two) (second : two.Older three) :
    one.Older three := by
  cases one <;> cases two <;> cases three <;> simp only [Older] at * <;> omega

namespace SymbolTable
variable {table after : SymbolTable}

/-- The scope directly around a scope. -/
def outer? (table : SymbolTable) : Scope → Option Scope
  | .space node => (table.tree.parent? node).map .space
  | .localScope id => (table.local? id).map LocalScope.parent

/-- The scopes from a place out to the global namespace. -/
inductive Chain (table : SymbolTable) : Scope → List Scope → Prop where
  | root : Chain table rootScope [rootScope]
  | step {inner outer : Scope} {rest : List Scope} (out : table.outer? inner = some outer)
      (chain : Chain table outer rest) : Chain table inner (inner :: rest)

/-- Every scope but the global namespace stands in an older one. -/
structure Nested (table : SymbolTable) : Prop where
  held : table.HasScope rootScope
  top : table.outer? rootScope = none
  inside : ∀ scope, table.HasScope scope → scope ≠ rootScope →
    ∃ outer, table.outer? scope = some outer ∧ table.HasScope outer ∧ outer.Older scope

theorem Nested.empty : SymbolTable.empty.Nested where
  held := rfl
  top := rfl
  inside := by
    intro scope held other
    cases scope with
    | space node =>
      obtain ⟨index⟩ := node
      cases index with
      | zero => exact absurd rfl other
      | succ index => simp [HasScope, SymbolTable.empty, NamespaceTree.ofGlobal, NamespaceTree.node?] at held
    | localScope id => simp [HasScope, SymbolTable.empty, local?] at held

theorem outer?_space (table : SymbolTable) (node : NamespaceId) :
    table.outer? (.space node) =
      ((table.spaceFrame? node).bind fun frame => frame.2.map (·.1)).map .space := by
  simp only [outer?, NamespaceTree.parent?, spaceFrame?]
  cases table.tree.node? node <;> rfl

theorem outer?_local (table : SymbolTable) (id : LocalScopeId) :
    table.outer? (.localScope id) = (table.localFrame? id).map (·.2) := by
  simp only [outer?, localFrame?]
  cases table.local? id <;> rfl

theorem SameScopes.outer? (same : table.SameScopes after) : after.outer? = table.outer? := by
  funext scope
  cases scope with
  | space node => rw [outer?_space, outer?_space, same.spaces]
  | localScope id => rw [outer?_local, outer?_local, same.locals]

theorem SameScopes.addUsing (user target : NamespaceId) : table.SameScopes (table.addUsing user target) :=
  ⟨(Amends.addUsing user target).spaces, rfl⟩

namespace Nested

variable (nested : table.Nested)
include nested

theorem same (scopes : table.SameScopes after) : after.Nested where
  held := (scopes.hasScope _).mpr nested.held
  top := scopes.outer? ▸ nested.top
  inside := by
    intro scope held other
    rw [scopes.outer?]
    obtain ⟨outer, out, there, older⟩ := nested.inside scope ((scopes.hasScope scope).mp held) other
    exact ⟨outer, out, (scopes.hasScope outer).mpr there, older⟩

/-- A table in which one more scope stands in a scope that was there. -/
theorem grow (new : Scope) (fresh : ¬table.HasScope new) (around : table.HasScope outer)
    (older : outer.Older new) (out : after.outer? new = some outer)
    (kept : ∀ scope, scope ≠ new → after.outer? scope = table.outer? scope ∧
      (after.HasScope scope ↔ table.HasScope scope)) : after.Nested := by
  have old {scope : Scope} (held : table.HasScope scope) : scope ≠ new := by
    rintro rfl
    exact fresh held
  constructor
  · exact (kept _ (old nested.held)).2.mpr nested.held
  · rw [(kept _ (old nested.held)).1]
    exact nested.top
  · intro scope held other
    by_cases same : scope = new
    · subst same
      exact ⟨outer, out, (kept _ (old around)).2.mpr around, older⟩
    · obtain ⟨further, out, there, older⟩ := nested.inside scope ((kept _ same).2.mp held) other
      exact ⟨further, (kept _ same).1.trans out, (kept _ (old there)).2.mpr there, older⟩

theorem gainSpace {symbol : Symbol} (held : table.HasScope (.space parent))
    (gains : table.GainsSpace after parent symbol) : after.Nested := by
  apply nested.grow (.space ⟨table.tree.size⟩) ?_ held
  · obtain ⟨found, present⟩ := Option.isSome_iff_exists.mp held
    exact (Array.getElem?_eq_some_iff.mp present).1
  · rw [outer?_space, gains.spaces, if_pos rfl]
    rfl
  · intro scope other
    cases scope with
    | space node =>
      have framed := gains.spaces node
      rw [if_neg fun same => other (congrArg _ same)] at framed
      rw [outer?_space, outer?_space, framed]
      have present := congrArg Option.isSome framed
      simp only [spaceFrame?, Option.isSome_map] at present
      simp [HasScope, present]
    | localScope id =>
      rw [outer?_local, outer?_local, gains.locals]
      have present := congrArg Option.isSome (congrFun gains.locals id)
      simp only [localFrame?, Option.isSome_map] at present
      simp [HasScope, present]
  · simp [HasScope, node?_size]

theorem openLocal (kind : LocalScopeKind) (held : table.HasScope parent) :
    (table.createLocalScope kind parent).2.Nested := by
  have pushed : { table with locals := table.locals.push ⟨kind, parent, {}⟩ }.Nested := by
    apply nested.grow (.localScope ⟨table.locals.size⟩) ?_ held
    · cases parent with
      | space node => trivial
      | localScope id =>
        obtain ⟨found, present⟩ := Option.isSome_iff_exists.mp held
        exact (Array.getElem?_eq_some_iff.mp present).1
    · rw [outer?_local, localFrame?_push, if_pos rfl]
      rfl
    · intro scope other
      cases scope with
      | space node => exact ⟨rfl, Iff.rfl⟩
      | localScope id =>
        have old : id ≠ ⟨table.locals.size⟩ := fun same => other (congrArg _ same)
        rw [outer?_local, outer?_local, localFrame?_push, if_neg old, HasScope, HasScope, local?_push,
          if_neg old]
        exact ⟨rfl, Iff.rfl⟩
    · simp [HasScope, local?]
  cases kind <;> exact pushed.same (.of_eq (tree_modifySymbol ..) (locals_modifySymbol ..))

theorem older (node parent : NamespaceId) (up : table.tree.parent? node = some parent) :
    parent.index < node.index := by
  have out : table.outer? (.space node) = some (.space parent) := by rw [outer?, up]; rfl
  have held : table.HasScope (.space node) := by
    obtain ⟨found, present, _⟩ := Option.bind_eq_some_iff.mp up
    rw [HasScope, present]
    rfl
  have other : Scope.space node ≠ rootScope := by
    intro root
    rw [root, nested.top] at out
    cases out
  obtain ⟨outer, found, _, older⟩ := nested.inside _ held other
  cases out.symm.trans found
  exact older

/-- The chain of a namespace: those around it. -/
theorem chain_space (node : NamespaceId) (held : table.HasScope (.space node)) :
    table.Chain (.space node) ((table.tree.enclosing node).map .space) := by
  -- The induction is on the number of the namespace: the one around it is older.
  generalize index : node.index = number
  induction number using Nat.strongRecOn generalizing node with
  | ind number ih =>
    subst index
    by_cases root : Scope.space node = rootScope
    · cases root
      exact .root
    · obtain ⟨outer, out, there, _⟩ := nested.inside _ held root
      obtain ⟨parent, up, rfl⟩ := Option.map_eq_some_iff.mp out
      rw [NamespaceTree.enclosing_of_parent nested.older up]
      exact .step out (ih _ (nested.older node parent up) parent there rfl)

theorem chain_within (steps : Nat) (held : table.HasScope scope) (enough : depth scope ≤ steps) :
    table.Chain scope ((table.wayOutWithin steps scope).1.map .localScope ++
      (table.tree.enclosing (table.wayOutWithin steps scope).2).map .space) := by
  induction steps generalizing scope with
  | zero =>
    cases scope with
    | space node => exact nested.chain_space node held
    | localScope id => exact absurd enough (Nat.not_succ_le_zero _)
  | succ steps ih =>
    cases scope with
    | space node => exact nested.chain_space node held
    | localScope id =>
      obtain ⟨outer, out, there, older⟩ := nested.inside _ held (by simp [rootScope])
      obtain ⟨⟨kind, parent⟩, framed, rfl⟩ := Option.map_eq_some_iff.mp (outer?_local .. ▸ out)
      rw [wayOutWithin_local framed]
      refine .step out (ih there ?_)
      cases parent with
      | space node => exact Nat.zero_le _
      | localScope outer => exact Nat.le_trans older (Nat.le_of_succ_le_succ enough)

/-- The scopes in which a name is searched lead out to the global namespace. -/
theorem chain_scopeChain (held : table.HasScope scope) :
    table.Chain scope (table.scopeChain scope) :=
  nested.chain_within table.locals.size held held.depth_le

end Nested

theorem Chain.unique (nested : table.Nested) (one : table.Chain scope chain)
    (two : table.Chain scope other) : chain = other := by
  induction one generalizing other with
  | root =>
    cases two with
    | root => rfl
    | step out => cases nested.top.symm.trans out
  | step out _ ih =>
    cases two with
    | root => cases nested.top.symm.trans out
    | step out' further =>
      cases out.symm.trans out'
      rw [ih further]

theorem Chain.nodup (nested : table.Nested) (held : table.HasScope scope)
    (chain : table.Chain scope list) : list.Nodup := by
  have sorted : list.Pairwise fun inner outer => outer.Older inner := by
    induction chain with
    | root => exact List.pairwise_singleton ..
    | @step inner outer rest out chain ih =>
      have other : inner ≠ rootScope := by
        rintro rfl
        cases nested.top.symm.trans out
      obtain ⟨_, found, there, older⟩ := nested.inside inner held other
      cases out.symm.trans found
      have sorted := ih there
      refine List.pairwise_cons.mpr ⟨?_, sorted⟩
      have first : ∃ further, rest = outer :: further := by
        cases chain with
        | root => exact ⟨[], rfl⟩
        | step _ _ => exact ⟨_, rfl⟩
      obtain ⟨further, rfl⟩ := first
      refine List.forall_mem_cons.mpr ⟨older, fun scope later => ?_⟩
      exact ((List.pairwise_cons.mp sorted).1 scope later).trans older
  apply sorted.imp
  rintro inner _ older rfl
  cases inner <;> exact Nat.lt_irrefl _ older

/-! ### What a name is to mean -/

section
variable (table : SymbolTable) (edges : List (NamespaceId × NamespaceId)) (chain : List Scope)
  (name : String) (accept : Symbol → Bool)

/-- The symbol of a name in one scope, if it is accepted. -/
def accepted? (scope : Scope) : Option SymbolId :=
  (table.binding? scope name).filter fun id => accept (table.symbol id)

/-- The innermost accepted symbol of a name. -/
def Innermost (id : SymbolId) : Prop :=
  ∃ inner scope outer, chain = inner ++ scope :: outer ∧
    table.accepted? name accept scope = some id ∧
    ∀ other ∈ inner, table.accepted? name accept other = none

/-- A using in a namespace of the chain brings in an accepted symbol, which is a member of the used
namespace itself. -/
structure Brought (edge : NamespaceId × NamespaceId) (id : SymbolId) : Prop where
  written : edge ∈ edges
  around : .space edge.1 ∈ chain
  bound : table.accepted? name accept (.space edge.2) = some id

/-- A using stands further in than another one, or in the same namespace and is older. -/
def Sooner (one two : NamespaceId × NamespaceId) : Prop :=
  chain.idxOf (.space one.1) < chain.idxOf (.space two.1) ∨
    one.1 = two.1 ∧ edges.idxOf one < edges.idxOf two

/-- A symbol is brought in by a using that comes before every using that brings in another one. -/
def Precedes (one two : NamespaceId × SymbolId) : Prop :=
  ∃ edge, table.Brought edges chain name accept edge one.2 ∧
    ∀ other, table.Brought edges chain name accept other two.2 → Sooner edges chain edge other

/-- What a name means, given the chain of scopes around it and the usings, oldest first. -/
inductive Means : Resolution → Prop where
  | lexical {id} (first : table.Innermost chain name accept id) : Means (.found id)
  | brought {id} (free : ∀ scope ∈ chain, table.accepted? name accept scope = none)
      (only : ∀ other, (∃ edge, table.Brought edges chain name accept edge other) ↔ other = id) :
      Means (.found id)
  | ambiguous {candidates} (free : ∀ scope ∈ chain, table.accepted? name accept scope = none)
      (several : 2 ≤ candidates.length) (once : (candidates.map (·.2)).Nodup)
      (listed : ∀ space id, (space, id) ∈ candidates ↔
        ∃ user, table.Brought edges chain name accept (user, space) id)
      (ordered : candidates.Pairwise (table.Precedes edges chain name accept)) :
      Means (.ambiguous candidates)
  | notFound (free : ∀ scope ∈ chain, table.accepted? name accept scope = none)
      (missing : ∀ edge id, ¬table.Brought edges chain name accept edge id) : Means .notFound

end

theorem Sooner.asymm (before : Sooner edges chain one two) (after : Sooner edges chain two one) :
    False := by
  rcases before with less | ⟨same, less⟩
  · rcases after with less' | ⟨same, _⟩
    · omega
    · rw [same] at less
      omega
  · rcases after with less' | ⟨_, less'⟩
    · rw [same] at less'
      omega
    · omega

/-! ### The usings of a table -/

/-- A table that calls made, and the usings that were added, oldest first. -/
inductive Made : List (NamespaceId × NamespaceId) → SymbolTable → Prop where
  | empty : Made [] .empty
  | declare {table : SymbolTable} (made : Made edges table) (held : table.HasScope scope)
      (other : kind ≠ .space) (name : String) (declaration : Declaration) :
      Made edges (table.declare scope name kind declaration).2
  | declareNamespace {table : SymbolTable} (made : Made edges table) (held : table.HasScope (.space parent))
      (name : String) (declaration : Option Declaration) :
      Made edges (table.declareNamespace parent name declaration).2
  | createLocalScope {table : SymbolTable} (made : Made edges table)
      (owned : (table.get? kind.owner).isSome) (held : table.HasScope parent) :
      Made edges (table.createLocalScope kind parent).2
  | addUsing {table : SymbolTable} (made : Made edges table) (held : table.HasScope (.space user))
      (brought : table.HasScope (.space target)) :
      Made (edges ++ [(user, target)]) (table.addUsing user target)

namespace Made

theorem calls (made : Made edges table) : Relation.ReflTransGen Call .empty table := by
  induction made with
  | empty => exact .refl
  | declare _ held other name declaration ih => exact ih.tail (.declare held other name declaration)
  | declareNamespace _ held name declaration ih => exact ih.tail (.declareNamespace held name declaration)
  | createLocalScope _ owned held ih => exact ih.tail (.createLocalScope owned held)
  | addUsing _ held brought ih => exact ih.tail (.addUsing held brought)

theorem nested (made : Made edges table) : table.Nested := by
  induction made with
  | empty => exact .empty
  | @declare _ scope kind table _ held other name declaration ih =>
    obtain ⟨_, _, _, scopes, _⟩ := declare_gains held name kind declaration
    exact ih.same scopes
  | @declareNamespace _ parent table _ held name declaration ih =>
    rcases table.declareNamespace_cases parent name declaration with ⟨id, same⟩ | ⟨same, _⟩
    · rw [same]
      exact ih.same (.of_eq (tree_modifySymbol ..) (locals_modifySymbol ..))
    · obtain ⟨_, _, gains⟩ := newNamespace_gains held
      exact ih.gainSpace held (same ▸ gains)
  | createLocalScope _ _ held ih => exact ih.openLocal _ held
  | addUsing _ _ _ ih => exact ih.same (.addUsing ..)

/-- The usings of a namespace are those that were added there, in that order, each once. -/
theorem usings (made : Made edges table) (user : NamespaceId) :
    (∀ target, target ∈ table.tree.usings user ↔ (user, target) ∈ edges) ∧
      (table.tree.usings user).Pairwise fun one two =>
        edges.idxOf (user, one) < edges.idxOf (user, two) := by
  induction made with
  | empty =>
    have none : SymbolTable.empty.tree.usings user = [] := by
      obtain ⟨_ | index⟩ := user <;> rfl
    simp [none]
  | declare _ _ _ _ _ ih => rwa [usings_declare]
  | declareNamespace _ _ _ _ ih => rwa [usings_declareNamespace]
  | createLocalScope _ _ _ ih => rwa [tree_createLocalScope]
  | @addUsing edges here target table _ held _ ih =>
    obtain ⟨members, ordered⟩ := ih
    rw [SymbolTable.addUsing, NamespaceTree.usings_addUsing target held]
    -- What was added before stands where it stood.
    have kept : (table.tree.usings user).Pairwise fun one two =>
        (edges ++ [(here, target)]).idxOf (user, one) < (edges ++ [(here, target)]).idxOf (user, two) := by
      apply ordered.imp_of_mem
      intro one two first second less
      rwa [List.idxOf_append_of_mem ((members one).mp first),
        List.idxOf_append_of_mem ((members two).mp second)]
    split
    · rename_i new
      obtain ⟨rfl, unknown⟩ := new
      refine ⟨fun other => by simp [members], ?_⟩
      rw [List.pairwise_append]
      refine ⟨kept, List.pairwise_singleton .., ?_⟩
      intro one listed two last
      obtain rfl := List.mem_singleton.mp last
      have early := (members one).mp listed
      rw [List.idxOf_append_of_mem early,
        List.idxOf_append_of_notMem fun old => unknown ((members _).mpr old)]
      exact Nat.lt_add_right _ (List.idxOf_lt_length_of_mem early)
    · rename_i old
      refine ⟨fun other => ?_, kept⟩
      rw [members, List.mem_append, List.mem_singleton, Prod.mk.injEq]
      constructor
      · exact .inl
      · rintro (known | ⟨rfl, rfl⟩)
        · exact known
        · by_contra new
          exact old ⟨rfl, fun listed => new ((members _).mp listed)⟩

end Made

/-! ### Looking up -/

theorem find?_bindings (table : SymbolTable) (chain : List Scope) (name : String)
    (accept : Symbol → Bool) :
    (chain.filterMap fun scope => table.binding? scope name).find?
        (fun id => accept (table.symbol id)) =
      chain.findSome? (table.accepted? name accept) := by
  induction chain with
  | nil => rfl
  | cons scope rest ih =>
    rw [List.findSome?_cons, List.filterMap_cons, accepted?]
    cases table.binding? scope name with
    | none => exact ih
    | some id =>
      dsimp only
      rw [List.find?_cons, ih]
      by_cases yes : accept (table.symbol id) = true
      · simp [Option.filter, yes]
      · simp [Option.filter, yes]

/-- The candidates of a name at a place. -/
def candidates (table : SymbolTable) (scope : Scope) (name : String) (accept : Symbol → Bool) :
    List (NamespaceId × SymbolId) :=
  table.tree.candidatesViaUsings (table.enclosingNamespace scope) name fun id =>
    accept (table.symbol id)

theorem lookupWhere_eq (table : SymbolTable) (scope : Scope) (name : String)
    (accept : Symbol → Bool) : table.lookupWhere scope name accept =
      ((table.scopeChain scope).findSome? (table.accepted? name accept)).elim
        (.ofCandidates (table.candidates scope name accept)) .found := by
  rw [← find?_bindings]
  unfold lookupWhere
  dsimp only
  split
  · rename_i found
    rw [found]
    rfl
  · rename_i none
    rw [none]
    rfl

theorem lookupWhere_of_innermost {id : SymbolId}
    (first : table.Innermost (table.scopeChain scope) name accept id) :
    table.lookupWhere scope name accept = .found id := by
  rw [lookupWhere_eq, List.findSome?_eq_some_iff.mpr first]
  rfl

theorem lookupWhere_of_free
    (free : ∀ place ∈ table.scopeChain scope, table.accepted? name accept place = none) :
    table.lookupWhere scope name accept = .ofCandidates (table.candidates scope name accept) := by
  rw [lookupWhere_eq, List.findSome?_eq_none_iff.mpr free]
  rfl

/-- Some scope of the chain has the name, or none has. -/
theorem innermost_or_free (table : SymbolTable) (chain : List Scope) (name : String)
    (accept : Symbol → Bool) : (∃ id, table.Innermost chain name accept id) ∨
      ∀ scope ∈ chain, table.accepted? name accept scope = none := by
  cases found : chain.findSome? (table.accepted? name accept) with
  | none => exact .inr (List.findSome?_eq_none_iff.mp found)
  | some id => exact .inl ⟨id, List.findSome?_eq_some_iff.mp found⟩

theorem nodup_symbols (table : SymbolTable) (scope : Scope) (name : String) (accept : Symbol → Bool) :
    ((table.candidates scope name accept).map (·.2)).Nodup :=
  table.nodup_candidates ..

theorem mem_scopeChain (table : SymbolTable) (scope : Scope) (user : NamespaceId) :
    .space user ∈ table.scopeChain scope ↔
      user ∈ table.tree.enclosing (table.enclosingNamespace scope) := by
  simp [scopeChain, enclosingNamespace]

theorem Coherent.mem_candidates_at (coherent : table.Coherent) (candidate : NamespaceId × SymbolId) :
    candidate ∈ table.candidates scope name accept ↔
      (∃ user, .space user ∈ table.scopeChain scope ∧ candidate.1 ∈ table.tree.usings user) ∧
        table.accepted? name accept (.space candidate.1) = some candidate.2 := by
  rw [candidates, coherent.mem_candidates, accepted?, Option.filter_eq_some_iff]
  simp only [List.mem_flatMap, mem_scopeChain]

/-- The candidates, each met with the using that brings it in. -/
theorem candidates_eq (table : SymbolTable) (scope : Scope) (name : String)
    (accept : Symbol → Bool) : table.candidates scope name accept =
      ((table.tree.usingsAround (table.enclosingNamespace scope)).filterMap fun edge =>
        (table.accepted? name accept (.space edge.2)).map (edge.2, ·)).foldl
          NamespaceTree.addCandidate [] := by
  have used (node : NamespaceId) : (table.tree.enclosing node).flatMap table.tree.usings =
      (table.tree.usingsAround node).map (·.2) := by
    simp [NamespaceTree.usingsAround, List.map_flatMap]
  have each (edge : NamespaceId × NamespaceId) :
      ((table.tree.member? edge.2 name).map (edge.2, ·)).filter
          (fun candidate => accept (table.symbol candidate.2)) =
        (table.accepted? name accept (.space edge.2)).map (edge.2, ·) := by
    rw [accepted?, binding?]
    cases table.tree.member? edge.2 name with
    | none => rfl
    | some id => by_cases yes : accept (table.symbol id) = true <;> simp [Option.filter, yes]
  rw [candidates, NamespaceTree.candidatesViaUsings, used, List.filterMap_map, List.filter_filterMap]
  exact congrArg (fun f => List.foldl _ _ (List.filterMap f _)) (funext each)

namespace Made

variable (made : Made edges table)
include made

theorem coherent : table.Coherent := Coherent.empty.run made.calls

theorem brought_iff (edge : NamespaceId × NamespaceId) (id : SymbolId) :
    table.Brought edges (table.scopeChain scope) name accept edge id ↔
      edge ∈ table.tree.usingsAround (table.enclosingNamespace scope) ∧
        table.accepted? name accept (.space edge.2) = some id := by
  rw [NamespaceTree.mem_usingsAround, (made.usings edge.1).1, ← mem_scopeChain]
  constructor
  · rintro ⟨written, around, bound⟩
    exact ⟨⟨around, written⟩, bound⟩
  · rintro ⟨⟨around, written⟩, bound⟩
    exact ⟨written, around, bound⟩

theorem mem_candidates (scope : Scope) (name : String) (accept : Symbol → Bool)
    (space : NamespaceId) (id : SymbolId) :
    (space, id) ∈ table.candidates scope name accept ↔
      ∃ user, table.Brought edges (table.scopeChain scope) name accept (user, space) id := by
  rw [made.coherent.mem_candidates_at]
  constructor
  · rintro ⟨⟨user, around, used⟩, bound⟩
    exact ⟨user, ((made.usings user).1 _).mp used, around, bound⟩
  · rintro ⟨user, written, around, bound⟩
    exact ⟨⟨user, around, ((made.usings user).1 _).mpr written⟩, bound⟩

variable (held : table.HasScope scope)
include held

/-- Usings are searched from the innermost namespace outwards, and in the order of their age. -/
theorem sooner :
    (table.tree.usingsAround (table.enclosingNamespace scope)).Pairwise
      (Sooner edges (table.scopeChain scope)) := by
  have apart := (made.nested.chain_scopeChain held).nodup made.nested held
  have outward : (table.scopeChain scope).Pairwise fun inner outer =>
      (table.scopeChain scope).idxOf inner < (table.scopeChain scope).idxOf outer := by
    rw [List.pairwise_iff_getElem]
    intro i j first second less
    rwa [apart.idxOf_getElem, apart.idxOf_getElem]
  rw [NamespaceTree.usingsAround, List.pairwise_flatMap]
  constructor
  · intro user _
    rw [List.pairwise_map]
    exact (made.usings user).2.imp fun less => .inr ⟨rfl, less⟩
  · have spaces := List.pairwise_map.mp (outward.sublist (List.sublist_append_right _ _))
    apply spaces.imp
    intro inner outer less one first two second
    obtain ⟨_, _, rfl⟩ := List.mem_map.mp first
    obtain ⟨_, _, rfl⟩ := List.mem_map.mp second
    exact .inl less

theorem ordered (name : String) (accept : Symbol → Bool) :
    (table.candidates scope name accept).Pairwise
      (table.Precedes edges (table.scopeChain scope) name accept) := by
  have sorted := made.sooner held
  rw [candidates_eq]
  apply (NamespaceTree.pairwise_addCandidates _).imp
  rintro one two ⟨front, back, met, apart⟩
  obtain ⟨early, late, around, before, after⟩ := List.filterMap_eq_append_iff.mp met
  obtain ⟨skipped, edge, later, rfl, none, given, _⟩ := List.filterMap_eq_cons_iff.mp after
  obtain ⟨id, bound, rfl⟩ := Option.map_eq_some_iff.mp given
  refine ⟨edge, (made.brought_iff edge id).mpr ⟨by simp [around], bound⟩, ?_⟩
  intro other brought
  obtain ⟨listed, bound'⟩ := (made.brought_iff other two.2).mp brought
  have later : other ∈ later := by
    rw [around] at listed
    rcases List.mem_append.mp listed with first | listed
    · have member : (other.2, two.2) ∈ front := by
        rw [← before, List.mem_filterMap]
        exact ⟨other, first, by rw [bound']; rfl⟩
      exact (apart (other.2, two.2) (List.mem_append_left _ member) rfl).elim
    · rcases List.mem_append.mp listed with passed | listed
      · have missing := none other passed
        rw [bound'] at missing
        cases missing
      · rcases List.mem_cons.mp listed with rfl | later
        · cases bound.symm.trans bound'
          exact (apart (other.2, two.2) (List.mem_append_right _ (List.mem_singleton_self _)) rfl).elim
        · exact later
  rw [around, ← List.append_assoc] at sorted
  exact (List.pairwise_cons.mp (List.pairwise_append.mp sorted).2.1).1 other later

/-- Looking up gives what is meant. -/
theorem means (name : String) (accept : Symbol → Bool) :
    table.Means edges (table.scopeChain scope) name accept
      (table.lookupWhere scope name accept) := by
  rcases table.innermost_or_free (table.scopeChain scope) name accept with ⟨id, first⟩ | free
  · rw [lookupWhere_of_innermost first]
    exact .lexical first
  · rw [lookupWhere_of_free free]
    have members := made.mem_candidates scope name accept
    have once := table.nodup_symbols scope name accept
    have sorted := made.ordered held name accept
    generalize table.candidates scope name accept = found at members once sorted
    rcases found with _ | ⟨⟨space, only⟩, _ | ⟨second, rest⟩⟩
    · refine .notFound free fun edge id brought => ?_
      cases (members edge.2 id).mpr ⟨edge.1, brought⟩
    · refine .brought free fun other => ⟨?_, ?_⟩
      · rintro ⟨edge, brought⟩
        cases List.mem_singleton.mp ((members edge.2 other).mpr ⟨edge.1, brought⟩)
        rfl
      · rintro rfl
        obtain ⟨user, brought⟩ := (members space other).mp (List.mem_singleton_self _)
        exact ⟨(user, space), brought⟩
    · exact .ambiguous free (by simp) once members sorted

/-- Nothing else is meant. -/
theorem lookupWhere_of_means
    (means : table.Means edges (table.scopeChain scope) name accept answer) :
    table.lookupWhere scope name accept = answer := by
  have members := made.mem_candidates scope name accept
  have once := table.nodup_symbols scope name accept
  cases means with
  | lexical first => exact lookupWhere_of_innermost first
  | @brought id free only =>
    rw [lookupWhere_of_free free]
    have same (candidate : NamespaceId × SymbolId)
        (listed : candidate ∈ table.candidates scope name accept) : candidate.2 = id := by
      obtain ⟨user, brought⟩ := (members candidate.1 candidate.2).mp listed
      exact (only candidate.2).mp ⟨(user, candidate.1), brought⟩
    obtain ⟨edge, brought⟩ := (only id).mpr rfl
    have some := (members edge.2 id).mpr ⟨edge.1, brought⟩
    generalize table.candidates scope name accept = found at same some once
    rcases found with _ | ⟨⟨space, first⟩, _ | ⟨second, rest⟩⟩
    · cases some
    · exact congrArg _ (same (space, first) (by simp))
    · have alike : first = second.2 := (same (space, first) (by simp)).trans (same second (by simp)).symm
      simp [alike] at once
  | @ambiguous candidates free several once' members' sorted =>
    have alike : table.candidates scope name accept = candidates := by
      refine List.Perm.eq_of_pairwise ?_ (made.ordered held name accept) sorted ?_
      · rintro one two _ _ ⟨edge, first, before⟩ ⟨edge', first', before'⟩
        exact ((before _ first').asymm (before' _ first)).elim
      · rw [List.perm_ext_iff_of_nodup (.of_map _ once) (.of_map _ once')]
        rintro ⟨space, id⟩
        rw [members, members']
    rw [lookupWhere_of_free free, alike, Resolution.ofCandidates_eq_ambiguous]
    exact ⟨rfl, several⟩
  | notFound free missing =>
    have none : table.candidates scope name accept = [] := by
      apply List.eq_nil_iff_forall_not_mem.mpr
      rintro ⟨space, id⟩ listed
      obtain ⟨user, brought⟩ := (members space id).mp listed
      exact missing _ _ brought
    rw [lookupWhere_of_free free, none]
    rfl

end Made

/-! ### One more using -/

theorem SameScopes.chain (same : table.SameScopes after) (chain : table.Chain scope list) :
    after.Chain scope list := by
  induction chain with
  | root => exact .root
  | step out _ ih => exact .step (same.outer? ▸ out) ih

theorem scopeChain_addUsing (nested : table.Nested) (held : table.HasScope scope)
    (user target : NamespaceId) :
    (table.addUsing user target).scopeChain scope = table.scopeChain scope := by
  have same : table.SameScopes (table.addUsing user target) := .addUsing user target
  exact ((nested.same same).chain_scopeChain ((same.hasScope scope).mpr held)).unique
    (nested.same same) (same.chain (nested.chain_scopeChain held))

theorem accepted?_addUsing (table : SymbolTable) (user target : NamespaceId) (name : String)
    (accept : Symbol → Bool) :
    (table.addUsing user target).accepted? name accept = table.accepted? name accept := by
  funext scope
  rw [accepted?, accepted?, binding?_eq, binding?_eq, (Amends.addUsing user target).names]
  rfl

/-- What was a candidate is one still. -/
theorem Coherent.candidates_addUsing (coherent : table.Coherent) (nested : table.Nested)
    (held : table.HasScope scope) (name : String) (accept : Symbol → Bool)
    (user target : NamespaceId) : table.candidates scope name accept ⊆
      (table.addUsing user target).candidates scope name accept := by
  intro candidate listed
  obtain ⟨⟨node, around, used⟩, bound⟩ := (coherent.mem_candidates_at candidate).mp listed
  rw [(coherent.amend (.addUsing user target)).mem_candidates_at, scopeChain_addUsing nested held,
    accepted?_addUsing]
  refine ⟨⟨node, around, ?_⟩, bound⟩
  by_cases present : (table.tree.node? user).isSome
  · exact (NamespaceTree.mem_usings_addUsing present ..).mpr (.inl used)
  · have missing : table.tree.node? user = none := by simpa using present
    simpa [SymbolTable.addUsing, NamespaceTree.addUsing, NamespaceTree.modify, missing] using used

/-- Looking a name up gives what it means along the one chain of scopes that leads from the place
to the global namespace. One more using, whatever it brings in, never changes what the chain says,
and an ambiguous name stays ambiguous. -/
theorem lookupWhere_iff_means {edges : List (NamespaceId × NamespaceId)} {table : SymbolTable}
    (made : Made edges table) {scope : Scope} (held : table.HasScope scope) (name : String)
    (accept : Symbol → Bool) :
    (∃! chain, table.Chain scope chain) ∧ ∀ chain, table.Chain scope chain →
      (∀ answer, table.lookupWhere scope name accept = answer ↔
        table.Means edges chain name accept answer) ∧
      ∀ user target,
        (∀ id, table.Innermost chain name accept id →
          (table.addUsing user target).lookupWhere scope name accept = .found id) ∧
        ∀ candidates, table.lookupWhere scope name accept = .ambiguous candidates →
          ∃ more, (table.addUsing user target).lookupWhere scope name accept = .ambiguous more ∧
            candidates ⊆ more := by
  have nested := made.nested
  have there := nested.chain_scopeChain held
  refine ⟨⟨_, there, fun other chain => chain.unique nested there⟩, ?_⟩
  intro chain leads
  obtain rfl := leads.unique nested there
  refine ⟨fun answer => ⟨?_, made.lookupWhere_of_means held⟩, fun user target => ⟨?_, ?_⟩⟩
  · rintro rfl
    exact made.means held name accept
  · rintro id ⟨inner, place, outer, split, bound, free⟩
    apply lookupWhere_of_innermost
    rw [scopeChain_addUsing nested held, Innermost, accepted?_addUsing]
    exact ⟨inner, place, outer, split, bound, free⟩
  · intro candidates found
    have means := made.means held name accept
    rw [found] at means
    cases means with
    | ambiguous free several =>
      rw [lookupWhere_of_free free] at found
      obtain ⟨rfl, _⟩ := Resolution.ofCandidates_eq_ambiguous.mp found
      have kept := made.coherent.candidates_addUsing nested held name accept user target
      refine ⟨_, ?_, kept⟩
      rw [lookupWhere_of_free, Resolution.ofCandidates_eq_ambiguous]
      · have apart := List.Nodup.of_map _ (table.nodup_symbols scope name accept)
        exact ⟨rfl, Nat.le_trans several (List.subperm_of_subset apart kept).length_le⟩
      · rw [scopeChain_addUsing nested held, accepted?_addUsing]
        exact free

/-- Two namespaces with a member of one name, both used by a namespace in a third one, which uses
one of them as well. -/
def crossing : SymbolTable :=
  let declaration : Declaration := ⟨⟨.library, ⟨0, 0, 0⟩⟩, .decorator ⟨0⟩⟩
  let first := (empty.declareNamespace NamespaceTree.root "A" none).2
  let second := (first.declareNamespace NamespaceTree.root "B" none).2
  let named := (second.declare (.space ⟨1⟩) "x" .decorator declaration).2
  let both := (named.declare (.space ⟨2⟩) "x" .decorator declaration).2
  let outer := (both.declareNamespace NamespaceTree.root "C" none).2
  let inner := (outer.declareNamespace ⟨3⟩ "D" none).2
  ((inner.addUsing ⟨3⟩ ⟨1⟩).addUsing ⟨4⟩ ⟨2⟩).addUsing ⟨4⟩ ⟨1⟩

theorem lookupWhere_iff_means_crossing :
    Made [(⟨3⟩, ⟨1⟩), (⟨4⟩, ⟨2⟩), (⟨4⟩, ⟨1⟩)] crossing ∧ crossing.HasScope (.space ⟨4⟩) ∧
    crossing.Chain (.space ⟨4⟩) [.space ⟨4⟩, .space ⟨3⟩, rootScope] ∧
    crossing.Means [(⟨3⟩, ⟨1⟩), (⟨4⟩, ⟨2⟩), (⟨4⟩, ⟨1⟩)] [.space ⟨4⟩, .space ⟨3⟩, rootScope] "x"
      (fun _ => true) (.ambiguous [(⟨2⟩, ⟨4⟩), (⟨1⟩, ⟨3⟩)]) := by
  have made : Made [(⟨3⟩, ⟨1⟩), (⟨4⟩, ⟨2⟩), (⟨4⟩, ⟨1⟩)] crossing := by
    refine .addUsing (.addUsing (.addUsing (.declareNamespace (.declareNamespace (.declare
      (.declare (.declareNamespace (.declareNamespace .empty ?_ ..) ?_ ..) ?_ ?_ ..) ?_ ?_ ..) ?_ ..)
      ?_ ..) ?_ ?_) ?_ ?_) ?_ ?_
    all_goals first | rfl | decide
  have chain : crossing.Chain (.space ⟨4⟩) [.space ⟨4⟩, .space ⟨3⟩, rootScope] :=
    .step rfl (.step rfl .root)
  have held : crossing.HasScope (.space ⟨4⟩) := rfl
  exact ⟨made, held, chain,
    (((lookupWhere_iff_means made held "x" fun _ => true).2 _ chain).1 _).mp (by decide +kernel)⟩

end SymbolTable

end Idl
