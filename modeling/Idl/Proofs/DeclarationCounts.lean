import Idl.Proofs.ResolvedUsings

/-! The counts of a bound program. A declaration makes a symbol or adds to one, and it is
reported if it does not get its name. The counts are made from what a declaration is told
to have come to, so that they agree with the symbols is kept along the whole course of
binding: each declaration stands at exactly one symbol, and each that lost its name is
reported once. The blocks that open again a namespace without its name are counted with
the symbols, though they make none. -/
namespace Idl

namespace SymbolTable
variable {table after : SymbolTable}

/-- The symbols that their scope does not know by their name. -/
def nameless (table : SymbolTable) : List Symbol :=
  table.toList.filter fun symbol =>
    symbol.id ≠ global ∧ table.binding? symbol.parent symbol.name ≠ some symbol.id

/-- The declarations that lost their name. -/
def lost (table : SymbolTable) : List Declaration := table.nameless.flatMap (·.declarations)

/-- The declarations that added to a namespace that had lost its name before. -/
def reopened (table : SymbolTable) : List Declaration := table.nameless.flatMap (·.declarations.tail)

theorem nameless_eq (bound : table.Bound decorators) (coherent : table.Coherent) :
    table.nameless = table.toList.filter (·.shadowed) := by
  apply List.filter_congr
  intro symbol listed
  obtain ⟨index, inside, rfl⟩ := List.getElem_of_mem listed
  have found : table.get? ⟨index⟩ = some table.toList[index] := by simp [get?, toList]
  rw [(bound.symbols ⟨index⟩ _ found).numbered, binding?_eq]
  generalize table.toList[index] = symbol at found
  cases marked : symbol.shadowed with
  | false =>
    by_cases top : (⟨index⟩ : SymbolId) = global
    · simp [top]
    · simp [coherent.settled _ symbol found top marked]
  | true =>
    obtain ⟨top, present, unmarked⟩ := coherent.global
    simp only [ne_eq, decide_eq_true_eq]
    constructor
    · rintro same
      cases (same ▸ found).symm.trans present
      simp [marked] at unmarked
    · intro known
      obtain ⟨other, present, _, _, unmarked⟩ :=
        coherent.entries _ _ (Dictionary.mem_entries_of_get? known)
      cases found.symm.trans present
      simp [marked] at unmarked

/-! ### What is counted of a symbol -/

/-- Whether each symbol lost its name, and its declarations. -/
def marks (table : SymbolTable) : List (Bool × List Declaration) :=
  table.toList.map fun symbol => (symbol.shadowed, symbol.declarations)

theorem getElem?_marks (table : SymbolTable) (index : Nat) : table.marks[index]? =
    (table.get? ⟨index⟩).map fun symbol => (symbol.shadowed, symbol.declarations) := by
  simp [marks, toList, get?]

theorem length_marks (table : SymbolTable) : table.marks.length = table.size := by
  simp [marks, toList, size]

theorem marks_gain {symbol : Symbol}
    (symbols : ∀ id, after.get? id = if id = ⟨table.size⟩ then some symbol else table.get? id) :
    after.marks = table.marks ++ [(symbol.shadowed, symbol.declarations)] := by
  apply List.ext_getElem?
  intro index
  rw [getElem?_marks, symbols, List.getElem?_append, length_marks, getElem?_marks]
  by_cases inside : index < table.size
  · simp [inside, Nat.ne_of_lt inside]
  · by_cases last : index = table.size
    · simp [last]
    · have beyond : table.get? ⟨index⟩ = none := by
        simpa [get?, size] using inside
      simp [inside, last, beyond]
      omega

theorem marks_modifySymbol (id : SymbolId)
    (acts : ∀ symbol, ((change symbol).shadowed, (change symbol).declarations) =
      act (symbol.shadowed, symbol.declarations)) :
    (table.modifySymbol id change).marks = table.marks.modify id.index act := by
  apply List.ext_getElem?
  intro index
  rw [getElem?_marks, get?_modifySymbol, List.getElem?_modify, getElem?_marks]
  by_cases here : id.index = index
  · subst here
    cases table.get? id with
    | none => simp
    | some symbol => simpa using acts symbol
  · have other : (⟨index⟩ : SymbolId) ≠ id := by
      rintro rfl
      exact here rfl
    simp [here, other]

theorem marks_alter (id : SymbolId) (keeps : ∀ symbol, (change symbol).shadowed = symbol.shadowed ∧
    (change symbol).declarations = symbol.declarations) :
    (table.modifySymbol id change).marks = table.marks := by
  have same : (table.modifySymbol id change).marks = table.marks.modify id.index fun mark => mark := by
    apply marks_modifySymbol
    intro symbol
    rw [(keeps symbol).1, (keeps symbol).2]
  exact same.trans (List.modify_id ..)

end SymbolTable

/-! ### Counting along the course -/

namespace Binding
variable {b : Binding}
open SymbolTable

/-- So many declarations have been made, and the counts agree with the symbols. -/
structure Tallied (b : Binding) (made : Nat) : Prop where
  counted : b.symbolsDeclared + b.namespacesMerged = made
  written : (b.table.marks.map (·.2.length)).sum = made
  created : b.symbolsDeclared + 1 =
    b.table.marks.length + ((b.table.marks.filter (·.1)).map (·.2.length - 1)).sum
  reported : b.diagnostics.countP (·.code = .duplicateSymbol) =
    ((b.table.marks.filter (·.1)).map (·.2.length)).sum
  losers : ∀ key id, b.table.shadowedNamespaces.get? key = some id → ∃ first rest,
    b.table.marks[id.index]? = some (true, first :: rest)

section
variable (tallied : b.Tallied made)
include tallied

/-- A declaration makes a symbol, with its name or without it. -/
theorem Tallied.gain {symbol : Symbol} (gains : b.table.Gains after symbol)
    (tells : Tells declared ⟨b.table.size⟩ symbol.shadowed)
    (given : symbol.declarations = [declaration])
    (losers : ∀ key id, after.shadowedNamespaces.get? key = some id →
      b.table.shadowedNamespaces.get? key = some id ∨ id = ⟨b.table.size⟩ ∧ symbol.shadowed = true)
    (name : String) (location : Option Location) :
    ({ b with table := after }.record declared name location).Tallied (made + 1) := by
  obtain ⟨counted, written, created, reported, known⟩ := tallied
  have marks := marks_gain gains.symbols
  rw [given] at marks
  have later : ∀ key id, after.shadowedNamespaces.get? key = some id → ∃ first rest,
      after.marks[id.index]? = some (true, first :: rest) := by
    intro key id found
    simp only [marks, getElem?_concat_iff, length_marks]
    rcases losers key id found with old | ⟨rfl, lost⟩
    · obtain ⟨first, rest, present⟩ := known key id old
      exact ⟨first, rest, .inl present⟩
    · exact ⟨declaration, [], .inr ⟨rfl, by rw [lost]⟩⟩
  cases shadowed : symbol.shadowed with
  | false =>
    rw [shadowed] at marks
    rw [tells.1 shadowed]
    refine ⟨?_, ?_, ?_, ?_, later⟩ <;> simp [record, marks] <;> omega
  | true =>
    rw [shadowed] at marks
    obtain ⟨holder, told⟩ := tells.2 shadowed
    rw [told]
    refine ⟨?_, ?_, ?_, ?_, later⟩ <;> simp [record, marks, Diagnostic.report] <;> omega

/-- A declaration adds to a namespace, with its name or without it. -/
theorem Tallied.reopen {id : SymbolId}
    (found : b.table.marks[id.index]? = some (shadowed, declarations))
    (told : shadowed = false ∧ declared = .merged id ∨
      shadowed = true ∧ declarations ≠ [] ∧ ∃ holder, declared = .duplicate id holder)
    (declaration : Declaration) (name : String) (location : Option Location) :
    ({ b with table := b.table.addDeclaration id (some declaration) }.record declared name
      location).Tallied (made + 1) := by
  obtain ⟨counted, written, created, reported, known⟩ := tallied
  have losers := b.table.shadowedNamespaces_modifySymbol id fun s =>
    { s with declarations := s.declarations ++ [declaration] }
  have marks : (b.table.addDeclaration id (some declaration)).marks = b.table.marks.modify id.index
      fun mark => (mark.1, mark.2 ++ [declaration]) := marks_modifySymbol id fun _ => rfl
  change (b.table.addDeclaration id (some declaration)).shadowedNamespaces = _ at losers
  generalize b.table.addDeclaration id (some declaration) = after at losers marks ⊢
  have later : ∀ key id, after.shadowedNamespaces.get? key = some id → ∃ first rest,
      after.marks[id.index]? = some (true, first :: rest) := by
    intro key other listed
    rw [losers] at listed
    obtain ⟨first, rest, present⟩ := known key other listed
    rw [marks, List.getElem?_modify, present]
    by_cases here : id.index = other.index
    · exact ⟨first, rest ++ [declaration], by simp [here]⟩
    · exact ⟨first, rest, by simp [here]⟩
  obtain ⟨l, mark, r, split, place, joined⟩ := List.exists_of_modify
    (fun mark => (mark.1, mark.2 ++ [declaration])) (List.getElem?_eq_some_iff.mp found).1
  obtain rfl : mark = (shadowed, declarations) := by simpa [split, ← place] using found
  rw [joined] at marks
  rw [split] at written created reported
  rcases told with ⟨rfl, rfl⟩ | ⟨rfl, some, holder, rfl⟩
  · simp at written created reported
    refine ⟨?_, ?_, ?_, ?_, later⟩ <;> simp [record, marks] <;> omega
  · have positive := List.length_pos_iff.mpr some
    simp at written created reported
    refine ⟨?_, ?_, ?_, ?_, later⟩ <;> simp [record, marks, Diagnostic.report] <;> omega

/-- Nothing that is counted changes. -/
theorem Tallied.amend {after : Binding}
    (losers : after.table.shadowedNamespaces = b.table.shadowedNamespaces)
    (marks : after.table.marks = b.table.marks)
    (declared : after.symbolsDeclared = b.symbolsDeclared)
    (merged : after.namespacesMerged = b.namespacesMerged)
    (told : after.diagnostics.countP (·.code = .duplicateSymbol) =
      b.diagnostics.countP (·.code = .duplicateSymbol)) : after.Tallied made := by
  obtain ⟨counted, written, created, reported, known⟩ := tallied
  refine ⟨by omega, by rwa [marks], by rwa [declared, marks], by rwa [told, marks], ?_⟩
  rwa [marks, losers]

theorem Tallied.alter (id : SymbolId) (change : Symbol → Symbol)
    (keeps : ∀ symbol, (change symbol).shadowed = symbol.shadowed ∧
      (change symbol).declarations = symbol.declarations) : (b.alter id change).Tallied made :=
  tallied.amend (shadowedNamespaces_modifySymbol ..) (marks_alter id keeps) rfl rfl rfl

theorem Tallied.openScope (kind : LocalScopeKind) (parent : Scope) :
    (b.openScope kind parent).Tallied made := by
  have amends : b.table.Amends (b.openScope kind parent).table := .createLocalScope kind parent
  refine tallied.amend amends.shadowed ?_ rfl rfl rfl
  cases kind with
  | templateParameters owner | interface owner => exact marks_alter owner (by simp)

theorem Tallied.announce (held : b.table.HasScope scope) (name : String)
    (kind : SymbolKind) (declaration : Declaration) (location : Option Location) :
    (b.announce scope name kind declaration location).Tallied (made + 1) := by
  obtain ⟨shadowed, tells, gains, _, losers⟩ := declare_gains held name kind declaration
  apply tallied.gain gains tells rfl
  intro key id found
  rw [losers] at found
  exact .inl found

theorem Tallied.enter (coherent : b.table.Coherent)
    (held : b.table.HasScope (.space parent)) (file : FileId) (name : Ident) (definition : Definition) :
    (b.enterNamespace file parent name definition).2.Tallied (made + 1) := by
  rw [enterNamespace_eq]
  generalize (⟨⟨file, name.span⟩, definition⟩ : Declaration) = declaration
  have new : ({ b with table := (b.table.newNamespace parent name.name (some declaration)).2 }.record
      (b.table.newNamespace parent name.name (some declaration)).1 name.name
      (some ⟨file, name.span⟩)).Tallied (made + 1) := by
    obtain ⟨shadowed, tells, gains⟩ := newNamespace_gains held
    apply tallied.gain gains.gains tells rfl
    intro key id found
    rw [gains.shadowed] at found
    split at found
    · rw [Dictionary.get?_insert] at found
      split at found
      · cases found
        exact .inr ⟨rfl, ‹_›⟩
      · exact .inl found
    · exact .inl found
  unfold declareNamespace
  split
  · exact new
  · rename_i existing bound
    split
    · replace bound := (b.table.binding?_eq (.space parent) name.name).symm.trans bound
      obtain ⟨symbol, found, _, _, unmarked⟩ :=
        coherent.entries _ _ (Dictionary.mem_entries_of_get? bound)
      have mark := (b.table.getElem?_marks existing.index).trans (congrArg _ found)
      exact tallied.reopen mark (.inl ⟨unmarked, rfl⟩) declaration name.name (some ⟨file, name.span⟩)
    · split
      · rename_i loser known
        obtain ⟨first, rest, found⟩ := tallied.losers _ loser known
        exact tallied.reopen found (.inr ⟨rfl, by simp, existing, rfl⟩) ..
      · exact new

end

theorem Change.tallied (change : Change True n b after) (coherent : b.table.Coherent)
    (tallied : b.Tallied made) : after.Tallied (made + n) := by
  cases change with
  | announce b scope name kind declaration location held => exact tallied.announce (held trivial) ..
  | param b file owner scope param held =>
    rw [declareParam_eq]
    exact (tallied.announce (held trivial) ..).alter owner _ (by simp)
  | enter b file parent name definition held => exact tallied.enter coherent (held trivial) ..
  | mark b id interfaceMember => exact tallied.alter id _ (by simp)
  | openTemplate b owner parent => exact (tallied.alter owner _ (by simp)).openScope ..
  | openScope => exact tallied.openScope ..
  | wait | use b user target => exact tallied.amend rfl rfl rfl rfl rfl
  | report b other => exact tallied.amend rfl rfl rfl rfl (by simp [other])

/-- What a course of changes comes to, its declarations counted with those before it. -/
theorem Course.tallied (course : Course True decorators word n b after)
    (ready : b.table.Ready decorators word rootScope) (tallied : b.Tallied made) :
    after.Tallied (made + n) := by
  induction course generalizing made with
  | refl => exact tallied
  | trans first _ one two =>
    rw [← Nat.add_assoc]
    exact two (first.ready (fun _ => ready) trivial) (one ready tallied)
  | change step => exact step.tallied ready.addressed.coherent tallied

theorem empty_tallied : ({} : Binding).Tallied 0 where
  counted := rfl
  written := rfl
  created := rfl
  reported := rfl
  losers := by
    intro key id known
    cases known

/-- Every declaration of a program is counted once, stands at one symbol, and is reported if it lost
its name. The symbols that were made, the global namespace apart, are as many as are counted but
for the blocks that opened a namespace again without its name. -/
theorem ofScripts_counts (names : List String) (scripts : List Script) :
    let bound := ofScripts names scripts
    bound.symbolsDeclared + bound.namespacesMerged = (programEntries names scripts).length ∧
      (bound.table.toList.flatMap (·.declarations)).length = (programEntries names scripts).length ∧
      bound.symbolsDeclared + 1 = bound.table.size + bound.table.reopened.length ∧
      bound.diagnostics.countP (·.code = .duplicateSymbol) = bound.table.lost.length := by
  have course := ofScripts_course_any names scripts
  have coherent := (course.leads trivial empty_ready).1.addressed.coherent
  obtain ⟨counted, written, created, reported, _⟩ := course.tallied empty_ready empty_tallied
  rw [Nat.zero_add] at counted written
  rw [length_marks] at created
  simp only [lost, reopened, nameless_eq (ofScripts_bound names scripts) coherent]
  refine ⟨counted, ?_, created.trans ?_, reported.trans ?_⟩
  · simpa [marks, Function.comp_def] using written
  · simp [marks, List.filter_map, Function.comp_def]
  · simp [marks, List.filter_map, Function.comp_def]

/-- Two symbols are made beside the global namespace, and three are counted. -/
theorem reopened_loser_is_counted :
    (Script.read ⟨1⟩ "model A \x7b\x7d namespace A \x7b\x7d namespace A \x7b\x7d").map (fun read =>
      (read.2.length, (ofScripts [] [read.1]).table.size, (ofScripts [] [read.1]).symbolsDeclared)) =
        some (0, 2 + 1, 3) := by
  decide +kernel

end Binding

end Idl
