import Idl.Proofs.MatchingTables
import Mathlib.Data.List.Nodup

/-! The order of files. The entries and the usings of a program are those of its files,
so for two orders of the same files they are the same up to their order. Hence a name is
reported as a duplicate in both or in neither, and otherwise the two tables are the same
up to a renaming, along which every name is looked up alike. -/
namespace Idl
variable {id : SymbolId}

/-! ### Candidates -/

namespace NamespaceTree

/-- Where a candidate is known by its symbol, none is left out. -/
theorem mem_addCandidates_iff {more : List (NamespaceId × SymbolId)}
    (sole : ∀ one ∈ found ++ more, ∀ two ∈ found ++ more, one.2 = two.2 → one = two)
    (candidate : NamespaceId × SymbolId) :
    candidate ∈ more.foldl addCandidate found ↔ candidate ∈ found ∨ candidate ∈ more := by
  induction more generalizing found with
  | nil => simp
  | cons first rest ih =>
    rw [List.foldl_cons]
    by_cases known : first.2 ∈ found.map (·.2)
    · have added : addCandidate found first = found := by simp only [addCandidate, if_pos known]
      obtain ⟨other, member, same⟩ := List.mem_map.mp known
      obtain rfl : other = first := sole other (List.mem_append_left _ member) first (by simp) same
      rw [added, ih]
      · constructor
        · rintro (old | new)
          · exact .inl old
          · exact .inr (List.mem_cons_of_mem _ new)
        · rintro (old | new)
          · exact .inl old
          · rcases List.mem_cons.mp new with rfl | later
            · exact .inl member
            · exact .inr later
      · intro one listed two listed'
        apply sole one ?_ two ?_
        · simp only [List.mem_append, List.mem_cons] at listed ⊢
          exact listed.imp_right .inr
        · simp only [List.mem_append, List.mem_cons] at listed' ⊢
          exact listed'.imp_right .inr
    · have added : addCandidate found first = found ++ [first] := by
        simp only [addCandidate, if_neg known]
      rw [added, ih]
      · simp [or_assoc]
      · intro one listed two listed'
        apply sole one ?_ two ?_
        · simpa [or_assoc] using listed
        · simpa [or_assoc] using listed'

theorem nodup_addCandidates (apart : (found.map (·.2)).Nodup)
    (more : List (NamespaceId × SymbolId)) : ((more.foldl addCandidate found).map (·.2)).Nodup := by
  induction more generalizing found with
  | nil => exact apart
  | cons first rest ih =>
    apply ih
    unfold addCandidate
    split
    · exact apart
    · rename_i new
      rw [List.map_append, List.nodup_append]
      refine ⟨apart, by simp, ?_⟩
      rintro one listed two last rfl
      rw [List.mem_singleton.mp last] at listed
      exact new listed

end NamespaceTree

/-- Two answers are the same but for numbers. -/
def Renaming.Agrees (map : Renaming) : Resolution → Resolution → Prop
  | .found id, .found other => other = map.symbol id
  | .ambiguous candidates, .ambiguous others =>
    (candidates.map fun one => (map.space one.1, map.symbol one.2)).Perm others
  | .notFound, .notFound => True
  | _, _ => False

theorem Renaming.agrees_ofCandidates {map : Renaming}
    (same : (candidates.map fun one => (map.space one.1, map.symbol one.2)).Perm others) :
    map.Agrees (.ofCandidates candidates) (.ofCandidates others) := by
  rcases candidates with _ | ⟨⟨space, only⟩, _ | ⟨second, rest⟩⟩
  · obtain rfl := same.nil_eq
    trivial
  · obtain rfl := List.perm_singleton.mp same.symm
    rfl
  · have length := same.length_eq
    rcases others with _ | ⟨other, _ | ⟨next, more⟩⟩
    · simp at length
    · simp at length
    · exact same

namespace SymbolTable
variable {table one : SymbolTable}

/-- The members of a name that are brought in know their namespace. -/
theorem Coherent.space_unique (coherent : table.Coherent)
    (bound : table.binding? (.space space) name = some id)
    (bound' : table.binding? (.space other) name = some id) : space = other := by
  rw [binding?_eq] at bound bound'
  obtain ⟨symbol, found, _, parent, _⟩ := coherent.entries _ _ (Dictionary.mem_entries_of_get? bound)
  obtain ⟨same, present, _, parent', _⟩ := coherent.entries _ _ (Dictionary.mem_entries_of_get? bound')
  cases found.symm.trans present
  exact Scope.space.inj (parent.symm.trans parent')

/-- The candidates of a name are the accepted members that are brought in. -/
theorem Coherent.mem_candidates (coherent : table.Coherent) (node : NamespaceId) (name : String)
    (accept : SymbolId → Bool) (candidate : NamespaceId × SymbolId) :
    candidate ∈ table.tree.candidatesViaUsings node name accept ↔
      candidate.1 ∈ (table.tree.enclosing node).flatMap table.tree.usings ∧
        table.binding? (.space candidate.1) name = some candidate.2 ∧ accept candidate.2 := by
  have named (used : List NamespaceId) (one : NamespaceId × SymbolId) :
      one ∈ (used.filterMap fun space => (table.tree.member? space name).map (space, ·)) ↔
        one.1 ∈ used ∧ table.binding? (.space one.1) name = some one.2 := by
    rw [List.mem_filterMap]
    constructor
    · rintro ⟨space, listed, given⟩
      obtain ⟨id, held, rfl⟩ := Option.map_eq_some_iff.mp given
      exact ⟨listed, held⟩
    · rintro ⟨listed, held⟩
      exact ⟨one.1, listed, Option.map_eq_some_iff.mpr ⟨one.2, held, rfl⟩⟩
  rw [NamespaceTree.candidatesViaUsings, NamespaceTree.mem_addCandidates_iff, List.mem_filter, named]
  · simp [and_assoc]
  · intro one listed two listed' same
    rw [List.nil_append, List.mem_filter, named] at listed listed'
    exact Prod.ext (coherent.space_unique listed.1.2 (same ▸ listed'.1.2)) same

theorem nodup_candidates (table : SymbolTable) (node : NamespaceId) (name : String)
    (accept : SymbolId → Bool) :
    ((table.tree.candidatesViaUsings node name accept).map (·.2)).Nodup := by
  have none : (([] : List (NamespaceId × SymbolId)).map (·.2)).Nodup := List.nodup_nil
  exact NamespaceTree.nodup_addCandidates none _

namespace Matched

/-! ### The scopes around a scope -/

/-- The symbol of a scope is taken to the symbol of the other scope. -/
theorem holder (matched : one.Matched two map) (held : one.holder? scope = some id) :
    two.holder? (map.scope scope) = some (map.symbol id) := by
  obtain ⟨symbol, found, _⟩ := (matched.first.scopes _ _).mp held
  obtain ⟨address, stands⟩ := matched.first.exists_stands found
  obtain ⟨other, owned, stood⟩ := matched.scopes scope address ⟨id, held, stands⟩
  rw [owned, matched.symbol_eq stands stood]

end Matched

/-- The namespace around a namespace is the one in which its symbol was declared. -/
theorem Shaped.parent?_eq (shaped : table.Shaped) {symbol : Symbol}
    (held : table.holder? (.space node) = some id) (found : table.get? id = some symbol) :
    id = global ∧ table.tree.parent? node = none ∨
      id ≠ global ∧ ∃ parent, symbol.parent = .space parent ∧ table.tree.parent? node = some parent := by
  obtain ⟨present, there, rfl⟩ := Option.map_eq_some_iff.mp held
  obtain ⟨same, found', own, ⟨_, is, top⟩ | ⟨parent, around, way, below⟩⟩ :=
    shaped.coherent.nodes _ _ _ (spaceFrame?_of_node there)
  · left
    exact ⟨is, by simp [NamespaceTree.parent?, there, top]⟩
  · right
    cases found.symm.trans found'
    refine ⟨?_, parent, around, by simp [NamespaceTree.parent?, there, way]⟩
    intro is
    rw [is] at found
    cases found.symm.trans shaped.top
    cases own
    exact Nat.not_lt_zero _ below

namespace Matched

theorem parent? (matched : one.Matched two map) {node : NamespaceId}
    (held : one.HasScope (.space node)) :
    two.tree.parent? (map.space node) = (one.tree.parent? node).map map.space ∧
      ∀ outer, one.tree.parent? node = some outer → one.HasScope (.space outer) := by
  obtain ⟨id, owned⟩ := (hasScope_iff _).mp held
  obtain ⟨found, present, _⟩ := (matched.first.scopes _ _).mp owned
  obtain ⟨later, there, carries⟩ := matched.get? present
  have mine := matched.first.parent?_eq owned present
  have yours := matched.second.parent?_eq (matched.holder owned) there
  by_cases top : id = global
  · have top' : map.symbol id = global := by rw [top, matched.symbol_global]
    obtain ⟨_, up⟩ := mine.resolve_right fun both => both.1 top
    obtain ⟨_, up'⟩ := yours.resolve_right fun both => both.1 top'
    simp [up, up']
  · have top' : map.symbol id ≠ global := by
      intro same
      rw [← matched.symbol_global] at same
      exact top (matched.symbol_injective present matched.first.top same)
    obtain ⟨_, parent, around, up⟩ := mine.resolve_left fun both => top both.1
    obtain ⟨_, other, around', up'⟩ := yours.resolve_left fun both => top' both.1
    rw [carries.parent, around] at around'
    cases around'
    refine ⟨by rw [up, up']; rfl, ?_⟩
    intro outer same
    cases up.symm.trans same
    obtain ⟨holder, inside, _⟩ := matched.first.around id found present top
    rw [around] at inside
    exact (hasScope_iff _).mpr ⟨holder, inside⟩

/-- The namespaces around a namespace, in both tables. -/
theorem enclosingWithin (matched : one.Matched two map) (steps : Nat)
    (held : one.HasScope (.space node)) :
    two.tree.enclosingWithin steps (map.space node) =
        (one.tree.enclosingWithin steps node).map map.space ∧
      ∀ outer ∈ one.tree.enclosingWithin steps node, one.HasScope (.space outer) := by
  induction steps generalizing node with
  | zero => simpa [NamespaceTree.enclosingWithin] using held
  | succ steps ih =>
    obtain ⟨up, present⟩ := matched.parent? held
    rw [NamespaceTree.enclosingWithin, NamespaceTree.enclosingWithin, up]
    cases parent : one.tree.parent? node with
    | none => simpa using held
    | some outer =>
      obtain ⟨same, inside⟩ := ih (present outer parent)
      simp only [Option.map_some, List.map_cons, List.mem_cons]
      refine ⟨by rw [same], ?_⟩
      rintro other (rfl | further)
      · exact held
      · exact inside other further

theorem enclosing (matched : one.Matched two map) (held : one.HasScope (.space node)) :
    two.tree.enclosing (map.space node) = (one.tree.enclosing node).map map.space ∧
      ∀ outer ∈ one.tree.enclosing node, one.HasScope (.space outer) := by
  -- Both ways up end by themselves, so both may take as many steps as the longer one.
  have within := matched.enclosingWithin (node.index + (map.space node).index) held
  rwa [NamespaceTree.enclosingWithin_of_le matched.first.coherent.older (Nat.le_add_right ..),
    NamespaceTree.enclosingWithin_of_le matched.second.coherent.older (Nat.le_add_left ..)] at within

end Matched

/-- The number of steps that lead out of a scope, at most. -/
def depth : Scope → Nat
  | .space _ => 0
  | .localScope id => id.index + 1

theorem wayOutWithin_space (table : SymbolTable) (steps : Nat) (node : NamespaceId) :
    table.wayOutWithin steps (.space node) = ([], node) := by
  cases steps <;> rfl

theorem wayOutWithin_local {id : LocalScopeId}
    (framed : table.localFrame? id = some (frame, parent)) (steps : Nat) :
    table.wayOutWithin (steps + 1) (.localScope id) =
      (id :: (table.wayOutWithin steps parent).1, (table.wayOutWithin steps parent).2) := by
  obtain ⟨found, present, same⟩ := Option.map_eq_some_iff.mp framed
  cases same
  rw [wayOutWithin, present]

/-- A local scope stands in an older one, or in a namespace. -/
theorem Shaped.depth_parent (shaped : table.Shaped) {id : LocalScopeId}
    (framed : table.localFrame? id = some (frame, parent)) : depth parent ≤ id.index := by
  obtain ⟨_, _, older⟩ := shaped.nested id frame parent framed
  cases parent with
  | space node => exact Nat.zero_le _
  | localScope outer => exact older outer rfl

theorem HasScope.depth_le (held : table.HasScope scope) : depth scope ≤ table.locals.size := by
  cases scope with
  | space node => exact Nat.zero_le _
  | localScope id =>
    obtain ⟨found, present⟩ := Option.isSome_iff_exists.mp held
    exact (Array.getElem?_eq_some_iff.mp present).1

namespace Matched

variable (matched : one.Matched two map)
include matched

/-- What a local scope belongs to and stands in, in both tables. -/
theorem localFrame? {id : LocalScopeId} (framed : one.localFrame? id = some (frame, parent)) :
    one.HasScope parent ∧ ∃ other, two.localFrame? (map.inner id) = some (other, map.scope parent) := by
  obtain ⟨below, ⟨found, present, rfl⟩, _⟩ := matched.first.nested id frame parent framed
  have owned : one.holder? (.localScope id) = some frame.owner := by rw [holder?_local, framed]; rfl
  have owned' := matched.holder owned
  rw [Renaming.scope, holder?_local] at owned'
  obtain ⟨⟨other, around⟩, framed', same⟩ := Option.map_eq_some_iff.mp owned'
  obtain ⟨_, ⟨later, there, rfl⟩, _⟩ := matched.second.nested _ other around framed'
  have own : other.owner = map.symbol frame.owner := same
  rw [own] at there
  have carries := matched.carries _ found later present there
  obtain ⟨holder, held, _⟩ := matched.first.around _ found present below
  exact ⟨(hasScope_iff _).mpr ⟨holder, held⟩, other, by rw [framed', carries.parent]⟩

/-- The local scopes around a scope and the namespace around them, in both tables. -/
theorem wayOutWithin (steps : Nat) (held : one.HasScope scope) (enough : depth scope ≤ steps)
    (enough' : depth (map.scope scope) ≤ others) :
    two.wayOutWithin others (map.scope scope) =
        ((one.wayOutWithin steps scope).1.map map.inner, map.space (one.wayOutWithin steps scope).2) ∧
      (∀ id ∈ (one.wayOutWithin steps scope).1, one.HasScope (.localScope id)) ∧
      one.HasScope (.space (one.wayOutWithin steps scope).2) := by
  induction steps generalizing scope others with
  | zero =>
    cases scope with
    | space node =>
      rw [Renaming.scope, wayOutWithin_space, wayOutWithin_space]
      simpa using held
    | localScope id => exact absurd enough (Nat.not_succ_le_zero _)
  | succ steps ih =>
    cases scope with
    | space node =>
      rw [Renaming.scope, wayOutWithin_space, wayOutWithin_space]
      simpa using held
    | localScope id =>
      obtain ⟨found, present⟩ := Option.isSome_iff_exists.mp held
      have framed : one.localFrame? id = some (found.kind, found.parent) := by
        rw [SymbolTable.localFrame?, present]
        rfl
      obtain ⟨around, other, framed'⟩ := matched.localFrame? framed
      have up := matched.first.depth_parent framed
      have up' := matched.second.depth_parent framed'
      cases others with
      | zero => exact absurd enough' (Nat.not_succ_le_zero _)
      | succ others =>
        have below : id.index ≤ steps := Nat.le_of_succ_le_succ enough
        have below' : (map.inner id).index ≤ others := Nat.le_of_succ_le_succ enough'
        obtain ⟨same, inside, outside⟩ := ih around (up.trans below) (up'.trans below')
        rw [Renaming.scope, wayOutWithin_local framed', wayOutWithin_local framed, same]
        refine ⟨rfl, ?_, outside⟩
        exact List.forall_mem_cons.mpr ⟨held, inside⟩

variable (held : one.HasScope scope)
include held

theorem wayOut :
    two.wayOut (map.scope scope) =
        ((one.wayOut scope).1.map map.inner, map.space (one.wayOut scope).2) ∧
      (∀ id ∈ (one.wayOut scope).1, one.HasScope (.localScope id)) ∧
      one.HasScope (.space (one.wayOut scope).2) :=
  matched.wayOutWithin one.locals.size held held.depth_le (matched.hasScope held).depth_le

/-- The scopes in which a name is searched, in both tables. -/
theorem scopeChain :
    two.scopeChain (map.scope scope) = (one.scopeChain scope).map map.scope ∧
      ∀ place ∈ one.scopeChain scope, one.HasScope place := by
  obtain ⟨same, inside, outside⟩ := matched.wayOut held
  obtain ⟨around, further⟩ := matched.enclosing outside
  simp only [SymbolTable.scopeChain, same, around, List.map_append, List.map_map]
  refine ⟨rfl, ?_⟩
  intro place listed
  rcases List.mem_append.mp listed with inner | outer
  · obtain ⟨id, member, rfl⟩ := List.mem_map.mp inner
    exact inside id member
  · obtain ⟨node, member, rfl⟩ := List.mem_map.mp outer
    exact further node member

theorem bindings (name : String) :
    ((two.scopeChain (map.scope scope)).filterMap fun place => two.binding? place name) =
      ((one.scopeChain scope).filterMap fun place => one.binding? place name).map map.symbol := by
  obtain ⟨same, present⟩ := matched.scopeChain held
  rw [same, List.filterMap_map, List.map_filterMap]
  apply List.filterMap_congr
  intro place listed
  exact matched.binding? (present place listed) name

end Matched

/-! ### What is brought in -/

/-- The usings of a table are those that are written. -/
def Brings (table : SymbolTable) (uses : List Usage) : Prop :=
  ∀ node target, target ∈ table.tree.usings node ↔
    ∃ use ∈ uses, table.Placed (.space node) use.space ∧ table.Targets use.path target

namespace Matched

theorem targets (matched : one.Matched two map) (led : one.Targets path target) :
    two.Targets path (map.space target) ∧ one.HasScope (.space target) := by
  obtain ⟨id, found, own⟩ := led
  obtain ⟨symbol, present, _⟩ := matched.first.coherent.unshadowed (Given.namespacePath found).visible
  obtain ⟨later, there, carries⟩ := matched.get? present
  rw [symbol_of_get? present] at own
  constructor
  · refine ⟨map.symbol id, by rw [matched.namespacePath?, found]; rfl, ?_⟩
    rw [symbol_of_get? there, carries.node, own]
    rfl
  · exact matched.first.hasScope_inner present (by simp [Symbol.inner?, own])

theorem exists_target (matched : one.Matched two map) (led : two.Targets path target) :
    ∃ earlier, one.Targets path earlier ∧ map.space earlier = target := by
  obtain ⟨other, found, own⟩ := led
  rw [matched.namespacePath?] at found
  obtain ⟨id, before, rfl⟩ := Option.map_eq_some_iff.mp found
  obtain ⟨symbol, present, _⟩ := matched.first.coherent.unshadowed (Given.namespacePath before).visible
  obtain ⟨later, there, carries⟩ := matched.get? present
  rw [symbol_of_get? there, carries.node] at own
  obtain ⟨earlier, here, same⟩ := Option.map_eq_some_iff.mp own
  exact ⟨earlier, ⟨id, before, by rw [symbol_of_get? present, here]⟩, same⟩

theorem placed_iff (matched : one.Matched two map) (held : one.HasScope scope)
    (address : List String) : two.Placed (map.scope scope) address ↔ one.Placed scope address := by
  constructor
  · intro there
    obtain ⟨path, placed⟩ := matched.first.exists_placed held
    rwa [← (matched.scopes scope path placed).address_unique there]
  · exact matched.scopes scope address

variable (matched : one.Matched two map) (brings : one.Brings uses)
include matched brings

section
variable (brings' : two.Brings others) (same : uses.Perm others) (held : one.HasScope (.space node))
  (target : NamespaceId)
include brings' same held

theorem mem_usings :
    target ∈ two.tree.usings (map.space node) ↔
      ∃ earlier ∈ one.tree.usings node, map.space earlier = target := by
  rw [brings']
  constructor
  · rintro ⟨use, listed, placed, led⟩
    obtain ⟨earlier, here, alike⟩ := matched.exists_target led
    have there := (matched.placed_iff held use.space).mp placed
    exact ⟨earlier, (brings node earlier).mpr ⟨use, same.mem_iff.mpr listed, there, here⟩, alike⟩
  · rintro ⟨earlier, member, rfl⟩
    obtain ⟨use, listed, placed, led⟩ := (brings node earlier).mp member
    exact ⟨use, same.mem_iff.mp listed, (matched.placed_iff held use.space).mpr placed,
      (matched.targets led).1⟩

/-- The namespaces that are brought into a namespace or one around it. -/
theorem mem_used :
    target ∈ (two.tree.enclosing (map.space node)).flatMap two.tree.usings ↔
      ∃ earlier ∈ (one.tree.enclosing node).flatMap one.tree.usings, map.space earlier = target := by
  obtain ⟨around, present⟩ := matched.enclosing held
  rw [around]
  simp only [List.mem_flatMap, List.mem_map]
  constructor
  · rintro ⟨_, ⟨outer, listed, rfl⟩, member⟩
    obtain ⟨earlier, here, alike⟩ :=
      (matched.mem_usings brings brings' same (present outer listed) target).mp member
    exact ⟨earlier, ⟨outer, listed, here⟩, alike⟩
  · rintro ⟨earlier, ⟨outer, listed, here⟩, alike⟩
    exact ⟨_, ⟨outer, listed, rfl⟩,
      (matched.mem_usings brings brings' same (present outer listed) target).mpr ⟨earlier, here, alike⟩⟩

end

theorem hasScope_used (member : used ∈ (one.tree.enclosing node).flatMap one.tree.usings) :
    one.HasScope (.space used) := by
  obtain ⟨outer, _, listed⟩ := List.mem_flatMap.mp member
  obtain ⟨use, _, _, led⟩ := (brings outer used).mp listed
  exact (matched.targets led).2

variable (brings' : two.Brings others) (same : uses.Perm others)
include brings' same

theorem mem_candidates
    (held : one.HasScope (.space node)) (name : String) (candidate : NamespaceId × SymbolId) :
    candidate ∈ two.tree.candidatesViaUsings (map.space node) name (fun _ => true) ↔
      candidate ∈ (one.tree.candidatesViaUsings node name fun _ => true).map fun earlier =>
        (map.space earlier.1, map.symbol earlier.2) := by
  rw [matched.second.coherent.mem_candidates, matched.mem_used brings brings' same held, List.mem_map]
  simp only [matched.first.coherent.mem_candidates, and_true]
  obtain ⟨space, id⟩ := candidate
  constructor
  · rintro ⟨⟨earlier, used, rfl⟩, bound⟩
    have present := matched.hasScope_used brings used
    have both := matched.binding? present name
    rw [Renaming.scope, bound] at both
    obtain ⟨other, here, rfl⟩ := Option.map_eq_some_iff.mp both.symm
    exact ⟨(earlier, other), ⟨used, here⟩, rfl⟩
  · rintro ⟨⟨earlier, other⟩, ⟨used, bound⟩, alike⟩
    cases alike
    have both := matched.binding? (matched.hasScope_used brings used) name
    exact ⟨⟨earlier, used, rfl⟩, both.trans (by rw [bound]; rfl)⟩

theorem candidates_perm (held : one.HasScope (.space node)) (name : String) :
    ((one.tree.candidatesViaUsings node name fun _ => true).map fun earlier =>
        (map.space earlier.1, map.symbol earlier.2)).Perm
      (two.tree.candidatesViaUsings (map.space node) name fun _ => true) := by
  have apart := List.Nodup.of_map _ (two.nodup_candidates (map.space node) name fun _ => true)
  have apart' : ((one.tree.candidatesViaUsings node name fun _ => true).map fun earlier =>
      (map.space earlier.1, map.symbol earlier.2)).Nodup := by
    apply (List.Nodup.of_map _ (one.nodup_candidates node name _)).map_on
    intro first listed second listed' alike
    have bound := ((matched.first.coherent.mem_candidates node name _ first).mp listed).2.1
    have bound' := ((matched.first.coherent.mem_candidates node name _ second).mp listed').2.1
    obtain ⟨_, present, _⟩ := matched.first.coherent.unshadowed (.of_binding bound)
    obtain ⟨_, there, _⟩ := matched.first.coherent.unshadowed (.of_binding bound')
    have id := matched.symbol_injective present there (congrArg Prod.snd alike)
    exact Prod.ext (matched.first.coherent.space_unique bound (id ▸ bound')) id
  rw [List.perm_ext_iff_of_nodup apart' apart]
  intro candidate
  exact (matched.mem_candidates brings brings' same held name candidate).symm

/-- A name is looked up alike in both tables. -/
theorem lookup (held : one.HasScope scope)
    (name : String) : map.Agrees (one.lookup scope name) (two.lookup (map.scope scope) name) := by
  obtain ⟨alike, _, inside⟩ := matched.wayOut held
  have outer : two.enclosingNamespace (map.scope scope) = map.space (one.enclosingNamespace scope) :=
    congrArg Prod.snd alike
  unfold SymbolTable.lookup lookupWhere
  dsimp only
  rw [matched.bindings held]
  cases ((one.scopeChain scope).filterMap fun place => one.binding? place name) with
  | cons first rest => rfl
  | nil =>
    rw [outer]
    exact Renaming.agrees_ofCandidates (matched.candidates_perm brings brings' same inside name)

end Matched

/-! ### Programs -/

/-- Two tables are the same but for numbers: each symbol and each scope of one is taken to its like
in the other, and names are found alike. -/
structure Renamed (one two : SymbolTable) (map : Renaming) : Prop where
  symbols : Set.BijOn map.symbol {id | (one.get? id).isSome} {id | (two.get? id).isSome}
  scopes : Set.BijOn map.scope {scope | one.HasScope scope} {scope | two.HasScope scope}
  global : map.symbol SymbolTable.global = SymbolTable.global
  root : map.scope rootScope = rootScope
  carries : ∀ id found, one.get? id = some found →
    ∃ later, two.get? (map.symbol id) = some later ∧ map.Carries found later
  holders : ∀ scope id, one.holder? scope = some id →
    two.holder? (map.scope scope) = some (map.symbol id)
  qualified : ∀ name, two.qualified? name = (one.qualified? name).map map.symbol
  lookup : ∀ scope, one.HasScope scope → ∀ name,
    map.Agrees (one.lookup scope name) (two.lookup (map.scope scope) name)

theorem Matched.renamed (matched : one.Matched two map) (brings : one.Brings uses)
    (brings' : two.Brings others) (same : uses.Perm others) : one.Renamed two map where
  symbols := matched.symbols_bijOn
  scopes := matched.scopes_bijOn
  global := matched.symbol_global
  root := matched.scope_root
  carries := fun _ _ present => matched.get? present
  holders := fun _ _ held => matched.holder held
  qualified := fun _ => matched.memberPath? _
  lookup := fun _ held name => matched.lookup brings brings' same held name

theorem Matched.reports (matched : one.Matched two map) (wanted : List (List String × Location)) :
    two.reports wanted = one.reports wanted := by
  simp only [SymbolTable.reports, matched.namespacePath?, Option.isNone_map]

theorem reports_perm (table : SymbolTable) (same : wanted.Perm others) :
    (table.reports wanted).Perm (table.reports others) :=
  (same.filter _).map _

end SymbolTable

theorem programEntries_perm (names : List String) (same : scripts.Perm others) :
    (programEntries names scripts).Perm (programEntries names others) :=
  (same.flatMap_right _).append_left _

theorem programUses_perm (same : scripts.Perm others) :
    (programUses scripts).Perm (programUses others) :=
  same.flatMap_right _

namespace Binding

/-- A duplicate is reported if and only if two entries of the program clash. -/
theorem reported_iff (names : List String) (scripts : List Script) :
    (ofScripts names scripts).Reported ↔ ¬ Compatible (programEntries names scripts) := by
  cases ofScripts_fate names scripts with
  | clash reported apart => exact iff_of_true reported apart
  | fine settled =>
    refine iff_of_false ?_ fun apart => apart settled.mapped.recorded.compatible
    rintro ⟨finding, member, code⟩
    rw [settled.told] at member
    obtain ⟨_, _, rfl⟩ := List.mem_map.mp member
    cases code

theorem ofScripts_settled (names : List String) (quiet : ¬ (ofScripts names scripts).Reported) :
    (ofScripts names scripts).Settled (programEntries names scripts) (programUses scripts) := by
  cases ofScripts_fate names scripts with
  | clash reported => exact absurd reported quiet
  | fine settled => exact settled

theorem ofScripts_complete (names : List String) (quiet : ¬ (ofScripts names scripts).Reported) :
    (ofScripts names scripts).table.Complete (programEntries names scripts) where
  mapped := (ofScripts_settled names quiet).mapped
  filled := (ofScripts_settled names quiet).filled
  templates := by
    intro id symbol found some
    exact (((ofScripts_bound names scripts).symbols id symbol found).templates some).2

/-- Binding does not depend on the order of files. A duplicate name is reported for both orders or
for none. If none is reported, only unknown namespaces are, the same ones for both orders, and the
tables are the same up to the numbers of symbols and scopes. -/
theorem ofScripts_perm (names : List String) {scripts others : List Script}
    (same : scripts.Perm others) :
    ((ofScripts names scripts).Reported ↔ (ofScripts names others).Reported) ∧
      (¬ (ofScripts names scripts).Reported →
        (∀ finding ∈ (ofScripts names scripts).diagnostics, finding.code = .unknownNamespace) ∧
        (ofScripts names scripts).diagnostics.Perm (ofScripts names others).diagnostics ∧
        ∃ map, (ofScripts names scripts).table.Renamed (ofScripts names others).table map) := by
  have alike : (ofScripts names scripts).Reported ↔ (ofScripts names others).Reported := by
    rw [reported_iff, reported_iff, Compatible.perm (programEntries_perm names same)]
  refine ⟨alike, fun quiet => ?_⟩
  have quiet' := mt alike.mpr quiet
  have first := ofScripts_settled names quiet
  have second := ofScripts_settled names quiet'
  have uses := programUses_perm same
  have matched := (ofScripts_complete names quiet).matched (ofScripts_complete names quiet')
    (programEntries_perm names same)
  refine ⟨?_, ?_, _, matched.renamed first.brought second.brought uses⟩
  · intro finding member
    rw [first.told] at member
    obtain ⟨_, _, rfl⟩ := List.mem_map.mp member
    rfl
  · rw [first.told, second.told, matched.reports]
    exact SymbolTable.reports_perm _ (uses.map _)

/-- Two files that both add to a namespace. One brings in a name from two namespaces, one of which
is in the other file, and one brings in a namespace that is nowhere. -/
def sharedSpace : List Script :=
  let texts := [
    "using A; using B; namespace A \x7b model M<T, U> \x7b \x7d interface I \x7b f(): string; \x7d \x7d",
    "namespace B \x7b model M \x7b \x7d \x7d using Nowhere; namespace A.C \x7b op g(): string; \x7d"]
  texts.zipIdx.filterMap fun text => (Script.read ⟨text.2 + 1⟩ text.1).map Prod.fst

theorem ofScripts_perm_shared :
    sharedSpace.length = 2 ∧ sharedSpace.Perm sharedSpace.reverse ∧
    ¬ (ofScripts ["doc"] sharedSpace).Reported ∧ ¬ (ofScripts ["doc"] sharedSpace.reverse).Reported ∧
    (ofScripts ["doc"] sharedSpace).diagnostics.map (·.message) = ["Unknown namespace 'Nowhere'."] ∧
    (ofScripts ["doc"] sharedSpace).diagnostics.Perm
      (ofScripts ["doc"] sharedSpace.reverse).diagnostics ∧
    (ofScripts ["doc"] sharedSpace).table.lookup SymbolTable.rootScope "M" =
      .ambiguous [(⟨1⟩, ⟨3⟩), (⟨2⟩, ⟨9⟩)] ∧
    (ofScripts ["doc"] sharedSpace.reverse).table.lookup SymbolTable.rootScope "M" =
      .ambiguous [(⟨2⟩, ⟨7⟩), (⟨1⟩, ⟨3⟩)] ∧
    ∃ map, (ofScripts ["doc"] sharedSpace).table.Renamed
      (ofScripts ["doc"] sharedSpace.reverse).table map := by
  have same : sharedSpace.Perm sharedSpace.reverse := (List.reverse_perm _).symm
  have facts : sharedSpace.length = 2 ∧ ¬ (ofScripts ["doc"] sharedSpace).Reported ∧
      (ofScripts ["doc"] sharedSpace).diagnostics.map (·.message) = ["Unknown namespace 'Nowhere'."] ∧
      (ofScripts ["doc"] sharedSpace).table.lookup SymbolTable.rootScope "M" =
        .ambiguous [(⟨1⟩, ⟨3⟩), (⟨2⟩, ⟨9⟩)] ∧
      (ofScripts ["doc"] sharedSpace.reverse).table.lookup SymbolTable.rootScope "M" =
        .ambiguous [(⟨2⟩, ⟨7⟩), (⟨1⟩, ⟨3⟩)] := by
    decide +kernel
  obtain ⟨both, quiet, messages, first, second⟩ := facts
  obtain ⟨alike, settled⟩ := ofScripts_perm ["doc"] same
  obtain ⟨_, told, renamed⟩ := settled quiet
  exact ⟨both, same, quiet, mt alike.mpr quiet, messages, told, first, second, renamed⟩

end Binding

end Idl
