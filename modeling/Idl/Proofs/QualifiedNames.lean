import Idl.Proofs.BoundNames

/-! Full names and what they name. A full name is told by going out, through the parents
of the namespaces and the owners of the scopes, and it is looked up by going in, from
member to member. The two ways meet in where a symbol lies: the path of names from the
global namespace to it. Going out tells the path of every symbol, shadowed or not.
Going in finds a symbol by its path as long as nothing on the way is shadowed. -/
namespace Idl

/-! ### The way up the tree -/

namespace NamespaceTree
variable {tree : NamespaceTree}

section
variable (older : ∀ node parent, tree.parent? node = some parent → parent.index < node.index)
include older

private theorem enclosingWithin_succ (enough : node.index ≤ steps) :
    tree.enclosingWithin (steps + 1) node = tree.enclosingWithin steps node := by
  induction steps generalizing node with
  | zero =>
    rw [enclosingWithin, enclosingWithin]
    split
    · rename_i parent up
      have := older node parent up
      omega
    · rfl
  | succ steps ih =>
    rw [enclosingWithin, enclosingWithin]
    split
    · rename_i parent up
      have := older node parent up
      rw [ih (by omega)]
    · rfl

/-- Where parents are older, going up ends by itself. -/
theorem enclosingWithin_of_le (enough : node.index ≤ steps) :
    tree.enclosingWithin steps node = tree.enclosing node := by
  induction enough with
  | refl => rfl
  | step enough ih => rw [enclosingWithin_succ older enough, ih]

theorem enclosing_of_parent (up : tree.parent? node = some parent) :
    tree.enclosing node = node :: tree.enclosing parent := by
  have below := older node parent up
  obtain ⟨steps, index⟩ : ∃ steps, node.index = steps + 1 := ⟨node.index - 1, by omega⟩
  rw [enclosing, index, enclosingWithin, up]
  exact congrArg (node :: ·) (enclosingWithin_of_le older (by omega))

theorem path_of_parent (present : tree.node? node = some found)
    (way : found.parent = some (parent, name)) : tree.path node = tree.path parent ++ [name] := by
  have up : tree.parent? node = some parent := by simp [parent?, present, way]
  have named : tree.name? node = some name := by simp [name?, present, way]
  rw [path, path, enclosing_of_parent older up, List.filterMap_cons, named, List.reverse_cons]

end

theorem path_of_root (present : tree.node? node = some found) (top : found.parent = none) :
    tree.path node = [] := by
  have up : tree.parent? node = none := by simp [parent?, present, top]
  have named : tree.name? node = none := by simp [name?, present, top]
  have chain : tree.enclosing node = [node] := by
    rw [enclosing]
    cases node.index with
    | zero => rfl
    | succ steps => rw [enclosingWithin, up]
  simp [path, chain, named]

end NamespaceTree

namespace SymbolTable
variable {id : SymbolId} {symbol : Symbol}
variable {table : SymbolTable}

/-! ### Where a symbol lies -/

/-- The path of names from the global namespace to a symbol outside templates. -/
inductive Lies (table : SymbolTable) : SymbolId → List String → Prop where
  | global : Lies table global []
  | inSpace {id container : SymbolId} {symbol : Symbol} {node : NamespaceId}
      {way : Option (NamespaceId × String)} {path : List String}
      (found : table.get? id = some symbol) (other : id ≠ SymbolTable.global)
      (around : symbol.parent = .space node) (framed : table.spaceFrame? node = some (container, way))
      (outer : Lies table container path) : Lies table id (path ++ [symbol.name])
  | inInterface {id owner : SymbolId} {symbol : Symbol} {scope : LocalScopeId} {parent : Scope}
      {path : List String} (found : table.get? id = some symbol) (other : id ≠ SymbolTable.global)
      (around : symbol.parent = .localScope scope)
      (framed : table.localFrame? scope = some (.interface owner, parent))
      (outer : Lies table owner path) : Lies table id (path ++ [symbol.name])

theorem Lies.present (coherent : table.Coherent) (lies : table.Lies id path) :
    ∃ symbol, table.get? id = some symbol := by
  cases lies with
  | global =>
    obtain ⟨symbol, found, _⟩ := coherent.global
    exact ⟨symbol, found⟩
  | inSpace found => exact ⟨_, found⟩
  | inInterface found => exact ⟨_, found⟩

theorem Lies.words (addressed : table.Addressed word) (lies : table.Lies id path) :
    ∀ name ∈ path, word name := by
  induction lies with
  | global => simp
  | inSpace found other around framed outer ih | inInterface found other around framed outer ih =>
    simpa [or_imp, forall_and] using ⟨ih, addressed.words _ _ found other⟩

theorem Lies.eq_nil_iff (lies : table.Lies id path) : path = [] ↔ id = SymbolTable.global := by
  cases lies with
  | global => simp
  | inSpace found other => simp [other]
  | inInterface found other => simp [other]

/-! ### Namespaces -/

namespace Coherent

theorem older (coherent : table.Coherent) (node parent : NamespaceId)
    (up : table.tree.parent? node = some parent) : parent.index < node.index := by
  obtain ⟨found, present, above⟩ := Option.bind_eq_some_iff.mp up
  obtain ⟨way, placed, rfl⟩ := Option.map_eq_some_iff.mp above
  obtain ⟨symbol, _, _, ⟨_, _, top⟩ | ⟨parent, _, same, below⟩⟩ :=
    coherent.nodes _ _ _ (spaceFrame?_of_node present)
  · cases top.symm.trans placed
  · cases same.symm.trans placed
    exact below

/-- A symbol with a node is the symbol of that node. -/
theorem frame_of_node (coherent : table.Coherent) {id : SymbolId}
    (found : table.get? id = some symbol) (placed : symbol.node = some node) :
    symbol.kind = .space ∧ ∃ way, table.spaceFrame? node = some (id, way) := by
  have kind : symbol.kind = .space := by
    refine Classical.byContradiction fun other => ?_
    cases (coherent.leaves id symbol found other).symm.trans placed
  obtain ⟨own, way, same, framed⟩ := coherent.spaces id symbol found kind
  cases placed.symm.trans same
  exact ⟨kind, way, framed⟩

end Coherent

namespace Addressed

section
variable (addressed : table.Addressed word)
include addressed

theorem root_frame : table.spaceFrame? NamespaceTree.root = some (global, none) := by
  obtain ⟨found, present⟩ := Option.isSome_iff_exists.mp addressed.rooted
  have framed := spaceFrame?_of_node present
  obtain ⟨symbol, _, _, ⟨_, is, top⟩ | ⟨parent, _, _, below⟩⟩ :=
    addressed.coherent.nodes _ _ _ framed
  · rw [framed, is, top]
  · exact absurd below (Nat.not_lt_zero _)

/-- Every namespace but the root stands in an older one, and is not the global one. -/
theorem frame_cases (framed : table.spaceFrame? node = some (id, way)) :
    id = global ∧ way = none ∨
      ∃ symbol parent, table.get? id = some symbol ∧ id ≠ global ∧ symbol.parent = .space parent ∧
        way = some (parent, symbol.name) ∧ parent.index < node.index := by
  obtain ⟨symbol, found, placed, ⟨_, is, top⟩ | ⟨parent, around, same, below⟩⟩ :=
    addressed.coherent.nodes _ _ _ framed
  · exact .inl ⟨is, top⟩
  · refine .inr ⟨symbol, parent, found, ?_, around, same, below⟩
    rintro rfl
    obtain ⟨top, present, root, _⟩ := addressed.coherent.nodes _ _ _ addressed.root_frame
    cases found.symm.trans present
    cases placed.symm.trans root
    exact Nat.not_lt_zero _ below

/-- Every namespace lies somewhere. -/
theorem space_lies (framed : table.spaceFrame? node = some (id, way)) :
    ∃ path, table.Lies id path := by
  -- The induction is on the number of the node: a parent has a smaller one.
  generalize index : node.index = number
  induction number using Nat.strongRecOn generalizing node id way with
  | ind number ih =>
    subst index
    rcases addressed.frame_cases framed with ⟨rfl, _⟩ | ⟨symbol, parent, found, other, around, _, below⟩
    · exact ⟨[], .global⟩
    · obtain ⟨own, present, _⟩ := Option.map_eq_some_iff.mp framed
      have inside : node.index < table.tree.nodes.size := (Array.getElem?_eq_some_iff.mp present).1
      have held : table.tree.node? parent = some table.tree.nodes[parent.index] :=
        Array.getElem?_eq_getElem (Nat.lt_trans below inside)
      have above := spaceFrame?_of_node held
      obtain ⟨path, outer⟩ := ih parent.index below above rfl
      exact ⟨_, .inSpace found other around above outer⟩

/-- The path up the tree is where a namespace lies. -/
theorem path_of_lies (lies : table.Lies id path)
    (framed : table.spaceFrame? node = some (id, way)) : table.tree.path node = path := by
  induction lies generalizing node way with
  | global =>
    rcases addressed.frame_cases framed with ⟨_, top⟩ | ⟨_, _, _, other, _⟩
    · obtain ⟨own, present, same⟩ := Option.map_eq_some_iff.mp framed
      exact NamespaceTree.path_of_root present ((Prod.mk.inj same).2.trans top)
    · exact absurd rfl other
  | inSpace found other around outside outer ih =>
    rcases addressed.frame_cases framed with ⟨is, _⟩ | ⟨symbol, parent, present, _, place, above, _⟩
    · exact absurd is other
    · cases found.symm.trans present
      cases around.symm.trans place
      obtain ⟨own, held, same⟩ := Option.map_eq_some_iff.mp framed
      cases same
      rw [NamespaceTree.path_of_parent addressed.coherent.older held above, ih outside]
  | inInterface found other around outside outer ih =>
    rcases addressed.frame_cases framed with ⟨is, _⟩ | ⟨symbol, parent, present, _, place, _⟩
    · exact absurd is other
    · cases found.symm.trans present
      cases around.symm.trans place

end

/-! ### Going out -/

/-- An interface of a program is not the global namespace. -/
theorem interface_ne_global (addressed : table.Addressed word) (found : table.get? id = some symbol)
    (kind : symbol.kind = .interface) : id ≠ global := by
  rintro rfl
  obtain ⟨top, present, placed, _⟩ := addressed.coherent.nodes _ _ _ addressed.root_frame
  cases found.symm.trans present
  have space := (addressed.coherent.frame_of_node found placed).1
  cases kind.symm.trans space

private theorem name_in_space (addressed : table.Addressed word)
    (found : table.get? id = some symbol) (other : id ≠ global)
    (around : symbol.parent = .space node) (framed : table.spaceFrame? node = some (container, way))
    (outer : table.Lies container path) (steps : Nat) :
    table.qualifiedNameWithin (steps + 1) id = ".".intercalate (path ++ [symbol.name]) := by
  rw [qualifiedNameWithin, symbol_of_get? found, if_neg other]
  simp only [around]
  rw [NamespaceTree.qualifiedName, addressed.path_of_lies outer framed]

/-- The full name is told of every symbol, shadowed or not. -/
theorem qualifiedName_of_lies (addressed : table.Addressed word) (lies : table.Lies id path)
    (other : id ≠ global) : table.qualifiedName id = ".".intercalate path := by
  cases lies with
  | global => exact absurd rfl other
  | inSpace found _ around framed outer =>
    exact addressed.name_in_space found other around framed outer id.index
  | @inInterface _ owner symbol scope parent path found _ around framed outer =>
    obtain ⟨interface, node, present, kind, place, _⟩ := addressed.homes.owned _ _ _ framed
    have positive : id.index ≠ 0 := fun zero => other (congrArg SymbolId.mk zero)
    obtain ⟨steps, index⟩ : ∃ steps, id.index = steps + 1 := ⟨id.index - 1, by omega⟩
    obtain ⟨held, here, same⟩ := Option.map_eq_some_iff.mp framed
    have named : table.qualifiedNameWithin (steps + 1) owner = ".".intercalate path := by
      -- An interface stands in a namespace, never in another interface.
      cases outer with
      | global => exact absurd rfl (addressed.interface_ne_global present kind)
      | inSpace found' other' around' framed' outer' =>
        exact addressed.name_in_space found' other' around' framed' outer' steps
      | inInterface found' _ around' =>
        cases present.symm.trans found'
        cases place.symm.trans around'
    have nonempty := mt outer.eq_nil_iff.mp (addressed.interface_ne_global present kind)
    rw [qualifiedName, qualifiedNameWithin, symbol_of_get? found, if_neg other]
    simp only [around, here, Option.map_some, (Prod.mk.inj same).1, index, named]
    rw [String.intercalate_append_of_ne_nil nonempty (by simp)]
    rfl

/-! ### Going in -/

/-- The members of a container are the names of its scope. -/
theorem member_in_space (addressed : table.Addressed word)
    (framed : table.spaceFrame? node = some (container, way)) (name : String) :
    table.member? container name = table.binding? (.space node) name := by
  obtain ⟨symbol, found, placed, _⟩ := addressed.coherent.nodes _ _ _ framed
  rw [member?, symbol_of_get? found]
  simp only [placed]
  rfl

theorem member_in_interface (addressed : table.Addressed word)
    (framed : table.localFrame? scope = some (.interface owner, parent)) (name : String) :
    table.member? owner name = table.binding? (.localScope scope) name := by
  obtain ⟨symbol, node, found, kind, _, members⟩ := addressed.homes.owned _ _ _ framed
  have leaf := addressed.coherent.leaves owner symbol found (by simp [kind])
  rw [member?, symbol_of_get? found]
  simp only [leaf, members]
  rfl

end Addressed

/-- The symbol to which a scope belongs. -/
def holder? (table : SymbolTable) : Scope → Option SymbolId
  | .space node => (table.tree.node? node).map NamespaceNode.symbol
  | .localScope scope => (table.local? scope).map fun found => found.kind.owner

/-- A symbol stands directly in another one. -/
def Inside (table : SymbolTable) (id container : SymbolId) : Prop :=
  id ≠ global ∧ ∃ symbol, table.get? id = some symbol ∧ table.holder? symbol.parent = some container

/-- Neither a symbol nor anything around it is shadowed. -/
def Clear (table : SymbolTable) (id : SymbolId) : Prop :=
  ∀ outer, Relation.ReflTransGen table.Inside id outer → (table.symbol outer).shadowed = false

theorem Clear.unmarked (clear : table.Clear id) (found : table.get? id = some symbol) :
    symbol.shadowed = false := by
  rw [← symbol_of_get? found]
  exact clear id .refl

theorem Clear.outward (clear : table.Clear id) (inside : table.Inside id container) :
    table.Clear container :=
  fun outer further => clear outer (.head inside further)

theorem Clear.inward (unmarked : (table.symbol id).shadowed = false)
    (outer : ∀ container, id ≠ global → table.holder? (table.symbol id).parent = some container →
      table.Clear container) : table.Clear id := by
  intro top further
  rcases further.cases_head with rfl | ⟨container, ⟨other, symbol, found, held⟩, onward⟩
  · exact unmarked
  · rw [← symbol_of_get? found] at held
    exact outer container other held top onward

theorem inside_space (found : table.get? id = some symbol) (other : id ≠ global)
    (around : symbol.parent = .space node) (framed : table.spaceFrame? node = some (container, way))
    : table.Inside id container := by
  obtain ⟨own, present, same⟩ := Option.map_eq_some_iff.mp framed
  refine ⟨other, symbol, found, ?_⟩
  rw [around, holder?, present, ← (Prod.mk.inj same).1]
  rfl

theorem inside_interface (found : table.get? id = some symbol) (other : id ≠ global)
    (around : symbol.parent = .localScope scope)
    (framed : table.localFrame? scope = some (.interface owner, parent)) :
    table.Inside id owner := by
  obtain ⟨own, present, same⟩ := Option.map_eq_some_iff.mp framed
  refine ⟨other, symbol, found, ?_⟩
  rw [around, holder?, present, Option.map_some, (Prod.mk.inj same).1]
  rfl

theorem memberPath?_concat (table : SymbolTable) : table.memberPath? start (path ++ [name]) =
      (table.memberPath? start path).bind fun container => table.member? container name := by
  simp [memberPath?, List.foldlM_append, Option.bind_eq_bind]

namespace Addressed

section
variable (addressed : table.Addressed word)
include addressed

/-- The path of a symbol leads to it where nothing on it is shadowed. -/
theorem memberPath_of_lies (lies : table.Lies id path) (clear : table.Clear id) :
    table.memberPath? global path = some id := by
  induction lies with
  | global => rfl
  | inSpace found other around framed outer ih =>
    rw [memberPath?_concat, ih (clear.outward (inside_space found other around framed)),
      Option.bind_some, addressed.member_in_space framed, binding?_eq, ← around]
    exact addressed.coherent.settled _ _ found other (clear.unmarked found)
  | inInterface found other around framed outer ih =>
    rw [memberPath?_concat, ih (clear.outward (inside_interface found other around framed)),
      Option.bind_some, addressed.member_in_interface framed, binding?_eq, ← around]
    exact addressed.coherent.settled _ _ found other (clear.unmarked found)

/-- What has a name in a scope says so, and is not the global namespace. -/
theorem named (held : table.binding? scope name = some id) :
    ∃ symbol, table.get? id = some symbol ∧
      id ≠ global ∧ symbol.name = name ∧ symbol.parent = scope := by
  rw [binding?_eq] at held
  have listed := Dictionary.mem_entries_of_get? held
  obtain ⟨symbol, found, named, around, _⟩ := addressed.coherent.entries scope _ listed
  refine ⟨symbol, found, ?_, named, around⟩
  rintro rfl
  exact addressed.coherent.unlisted scope (List.mem_map.mpr ⟨_, listed, rfl⟩)

/-- A member lies in the container of which it is one. -/
theorem lies_of_member (outer : table.Lies container path)
    (step : table.member? container name = some id) : table.Lies id (path ++ [name]) := by
  obtain ⟨symbol, present⟩ := outer.present addressed.coherent
  cases placed : symbol.node with
  | some node =>
    obtain ⟨_, way, framed⟩ := addressed.coherent.frame_of_node present placed
    rw [addressed.member_in_space framed] at step
    obtain ⟨member, found, other, rfl, around⟩ := addressed.named step
    exact .inSpace found other around framed outer
  | none =>
    cases members : symbol.membersScope with
    | none =>
      rw [member?, symbol_of_get? present] at step
      simp [placed, members] at step
    | some scope =>
      obtain ⟨parent, framed⟩ := addressed.homes.attached container symbol scope present members
      rw [addressed.member_in_interface framed] at step
      obtain ⟨member, found, other, rfl, around⟩ := addressed.named step
      exact .inInterface found other around framed outer

theorem lies_of_memberPath :
    ∀ {id : SymbolId}, table.memberPath? global path = some id → table.Lies id path := by
  induction path using List.reverseRecOn with
  | nil =>
    intro id found
    cases found
    exact .global
  | append_singleton path name ih =>
    intro id found
    rw [memberPath?_concat] at found
    obtain ⟨container, earlier, step⟩ := Option.bind_eq_some_iff.mp found
    exact addressed.lies_of_member (ih earlier) step

/-- A symbol that has its name in a namespace lies there. -/
private theorem lies_in_space (found : table.get? id = some symbol) (other : id ≠ global)
    (unmarked : symbol.shadowed = false) (around : symbol.parent = .space node) :
    ∃ path, table.Lies id path := by
  have held := addressed.coherent.settled id symbol found other unmarked
  rw [around] at held
  cases present : table.tree.node? node with
  | none =>
    simp only [names, present] at held
    cases held
  | some own =>
    have framed := spaceFrame?_of_node present
    obtain ⟨path, outer⟩ := addressed.space_lies framed
    exact ⟨_, .inSpace found other around framed outer⟩

/-- Every symbol outside templates lies somewhere if nothing around it is shadowed. -/
theorem lies_of_clear (found : table.get? id = some symbol) (other : id ≠ global)
    (outside : table.Outer symbol.parent) (clear : table.Clear id) :
    ∃ path, table.Lies id path := by
  cases around : symbol.parent with
  | space node => exact addressed.lies_in_space found other (clear.unmarked found) around
  | localScope scope =>
    rw [around] at outside
    obtain ⟨own, owner, node, present, kind, place⟩ := outside
    have framed : table.localFrame? scope = some (.interface owner, .space node) := by
      rw [localFrame?, present, ← kind, ← place]
      rfl
    obtain ⟨interface, place, held, kind, above, _⟩ := addressed.homes.owned _ _ _ framed
    have inside := inside_interface found other around framed
    obtain ⟨path, outer⟩ := addressed.lies_in_space held (addressed.interface_ne_global held kind)
      ((clear.outward inside).unmarked held) above
    exact ⟨_, .inInterface found other around framed outer⟩

end

/-! ### Paths and dotted names -/

theorem qualified_of_path (addressed : table.Addressed Dotless) {id : SymbolId}
    (lies : table.Lies id path) (other : id ≠ global) :
    table.qualified? (".".intercalate path) = table.memberPath? global path := by
  have parts : (".".intercalate path).toList.splitOn '.' = path.map String.toList := by
    rw [String.toList_intercalate]
    refine List.splitOn_intercalate '.' (fun part member => ?_)
      (by simpa using mt lies.eq_nil_iff.mp other)
    obtain ⟨name, given, rfl⟩ := List.mem_map.mp member
    exact lies.words addressed name given
  rw [qualified?, parts, List.map_map]
  simp

end Addressed

theorem intercalate_split (name : String) :
    ".".intercalate ((name.toList.splitOn '.').map String.ofList) = name := by
  refine String.toList_injective ?_
  rw [String.toList_intercalate, List.map_map]
  have parts : (String.toList ∘ String.ofList) = id := by
    funext chars
    simp
  rw [parts, List.map_id]
  exact List.intercalate_splitOn '.'

/-- The full name of a symbol names it unless something around it is shadowed, and what a dotted
name names has that full name. -/
theorem qualified_inverse {names : List String} (fine : ∀ name ∈ names, Dotless name)
    {scripts : List Script} (parsed : ∀ script ∈ scripts, ∃ file text diagnostics,
      Script.read file text = some (script, diagnostics)) :
    let table := (Binding.ofScripts names scripts).table
    (∀ id symbol, table.get? id = some symbol → id ≠ global → symbol.kind ≠ .templateParameter →
      table.Clear id → table.qualified? (table.qualifiedName id) = some id) ∧
    ∀ name id, table.qualified? name = some id → table.qualifiedName id = name := by
  intro table
  have addressed : table.Addressed Dotless := by
    refine Binding.ofScripts_addressed fine fun script member => ?_
    obtain ⟨file, text, diagnostics, ran⟩ := parsed script member
    exact Script.spelled_of_read ran
  have bound : table.Bound names.length := Binding.ofScripts_bound names scripts
  constructor
  · intro id symbol found other kind clear
    obtain ⟨path, lies⟩ :=
      addressed.lies_of_clear found other ((bound.symbols id symbol found).around kind) clear
    rw [addressed.qualifiedName_of_lies lies other, addressed.qualified_of_path lies other]
    exact addressed.memberPath_of_lies lies clear
  · intro name id found
    have lies := addressed.lies_of_memberPath found
    have other : id ≠ global := mt lies.eq_nil_iff.mpr (by simp [List.splitOn_ne_nil])
    rw [addressed.qualifiedName_of_lies lies other, intercalate_split]

/-- An operation in an interface in a namespace, and a model that lost the name of the namespace. -/
def nestedText : String := "namespace A \x7b interface I \x7b f(): string; \x7d \x7d model A \x7b \x7d"

def nested : SymbolTable :=
  (Binding.ofScripts ["doc"] ((Script.read ⟨1⟩ nestedText).toList.map Prod.fst)).table

theorem qualified_inverse_nested :
    nested.Clear ⟨4⟩ ∧ nested.qualified? (nested.qualifiedName ⟨4⟩) = some ⟨4⟩ ∧
    nested.qualified? "A.I.f" = some ⟨4⟩ ∧ nested.qualifiedName ⟨4⟩ = "A.I.f" ∧
    (nested.symbol ⟨5⟩).shadowed = true ∧ nested.qualified? (nested.qualifiedName ⟨5⟩) = some ⟨2⟩ := by
  have fine : ∀ name ∈ ["doc"], Dotless name := by
    unfold Dotless
    decide
  have parsed : ∀ script ∈ (Script.read ⟨1⟩ nestedText).toList.map Prod.fst,
      ∃ file text diagnostics, Script.read file text = some (script, diagnostics) := by
    intro script member
    obtain ⟨⟨_, diagnostics⟩, given, rfl⟩ := List.mem_map.mp member
    exact ⟨⟨1⟩, nestedText, diagnostics, Option.mem_toList.mp given⟩
  have around : [4, 3, 2, 0].map (fun index => (nested.symbol ⟨index⟩).shadowed) =
        [false, false, false, false] ∧
      [4, 3, 2].map (fun index => nested.holder? (nested.symbol ⟨index⟩).parent) =
        [some ⟨3⟩, some ⟨2⟩, some global] := by
    decide +kernel
  simp only [List.map_cons, List.map_nil, List.cons.injEq, and_true] at around
  obtain ⟨⟨operation, interface, space, top⟩, inInterface, inSpace, inGlobal⟩ := around
  have clear : nested.Clear ⟨4⟩ := by
    refine .inward operation fun container _ owner => ?_
    obtain rfl := Option.some.inj (inInterface.symm.trans owner)
    refine .inward interface fun container _ owner => ?_
    obtain rfl := Option.some.inj (inSpace.symm.trans owner)
    refine .inward space fun container _ owner => ?_
    obtain rfl := Option.some.inj (inGlobal.symm.trans owner)
    exact .inward top fun _ other _ => absurd rfl other
  have present : (nested.get? ⟨4⟩).isSome ∧ (nested.symbol ⟨4⟩).kind ≠ .templateParameter := by
    decide +kernel
  obtain ⟨symbol, found⟩ := Option.isSome_iff_exists.mp present.1
  have kind : symbol.kind ≠ .templateParameter := symbol_of_get? found ▸ present.2
  have names : nested.qualified? "A.I.f" = some ⟨4⟩ ∧ (nested.symbol ⟨5⟩).shadowed = true ∧
      nested.qualified? (nested.qualifiedName ⟨5⟩) = some ⟨2⟩ := by
    decide +kernel
  have inverse := qualified_inverse fine parsed
  exact ⟨clear, inverse.1 ⟨4⟩ symbol found (by decide) kind clear, names.1, inverse.2 _ _ names.1,
    names.2⟩

end SymbolTable

end Idl
