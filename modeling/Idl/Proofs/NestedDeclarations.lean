import Idl.Proofs.CompleteCycles
import Mathlib.Data.List.Chain
import Mathlib.Data.List.Nodup

/-! How many declarations are under work inside each other. Every resolution inside
another one takes a level, whether or not templates are involved, so a program
without templates comes to the last level as well, if it has as many declarations
that name each other in a row. Without templates that expand into something, this
is the only way to come to it. -/
namespace Idl

/-- Templates do not expand into anything: what has parameters names nothing, and no parameter has
a default. -/
structure Environment.Inert (env : Environment) : Prop where
  undefaulted : env.Undefaulted
  nameless : ∀ symbol, (env.symbols.symbol symbol).templated = true → env.text symbol = []

namespace Environment
variable {env : Environment}

/-- It is enough to look at the symbols that were handed out. -/
theorem Inert.of_toList (bound : env.symbols.Bound decorators)
    (plain : ∀ symbol ∈ env.symbols.toList, CheckM.defaultOf symbol = none ∧
      (symbol.templated = true → env.text symbol.id = [])) : env.Inert := by
  have all (id : SymbolId) : CheckM.defaultOf (env.symbols.symbol id) = none ∧
      ((env.symbols.symbol id).templated = true → env.text id = []) := by
    rcases bound.listed_or_global id with ⟨listed, numbered⟩ | global
    · have own := plain _ listed
      rw [numbered] at own
      exact own
    · rw [global]
      exact ⟨rfl, nofun⟩
  exact ⟨fun id => (all id).1, fun id => (all id).2⟩

end Environment

/-- In a chain all but the first are related to something. -/
private theorem exists_rel_of_isChain (chain : (first :: rest).IsChain r) :
    ∀ last ∈ rest, ∃ other, r other last := by
  induction rest generalizing first with
  | nil => simp
  | cons next rest ih =>
    rw [List.isChain_cons_cons] at chain
    exact List.forall_mem_cons.mpr ⟨⟨first, chain.1⟩, ih chain.2⟩

section
variable {c : Checker}

/-- A key in whose work something was asked for belongs to a declaration without parameters. -/
private theorem Checker.Pulls.plain (bound : env.Bound) (inert : env.Inert)
    (asks : c.AsksAsWritten env) {worker : ResolutionKey} (pulls : c.Pulls worker key) :
    (env.symbols.symbol worker.symbol).templateParams = [] := by
  obtain ⟨demand, asked⟩ := pulls
  apply bound.plain
  by_contra templated
  have nothing := inert.nameless worker.symbol (by simpa using templated)
  obtain ⟨use, ⟨reader, reads, written⟩, _⟩ := asks worker key demand asked
  rw [reads.eq_of_text nothing, nothing] at written
  cases written

/-- Keys that are inside each other belong to as many declarations. -/
private theorem Checker.Nested.symbols (bound : env.Bound)
    (inert : env.Inert) (asks : c.AsksAsWritten env) (nested : c.Nested env levels) :
    ∃ chain : List SymbolId, levels < chain.length ∧ chain.Nodup ∧
      chain.IsChain fun symbol next => env.Asks symbol next .reference := by
  obtain ⟨keys, many, distinct, chain, counted⟩ := nested
  refine ⟨(keys.map ResolutionKey.symbol).reverse, ?_, ?_, ?_⟩
  · simpa using many
  · cases keys with
    | nil => simp
    | cons youngest older =>
      -- only the youngest may have arguments, and then no other one is of its declaration
      have plain : ∀ key ∈ older, (env.symbols.symbol key.symbol).templateParams = [] := by
        intro key member
        obtain ⟨other, pulls⟩ := exists_rel_of_isChain chain key member
        exact pulls.plain bound inert asks
      have same : ∀ one ∈ youngest :: older, ∀ two ∈ older,
          one.symbol = two.symbol → one = two := by
        intro one first two second equal
        have none := plain two second
        have left := counted one first
        have right := counted two (List.mem_cons_of_mem _ second)
        rw [equal, none] at left
        rw [none] at right
        obtain ⟨symbol, args⟩ := one
        obtain ⟨other, values⟩ := two
        obtain rfl : symbol = other := equal
        obtain rfl : args = [] := List.length_eq_zero_iff.mp left.symm
        obtain rfl : values = [] := List.length_eq_zero_iff.mp right.symm
        rfl
      rw [List.nodup_reverse]
      apply List.Nodup.map_on _ distinct
      intro one first two second equal
      rcases List.mem_cons.mp second with rfl | second
      · rcases List.mem_cons.mp first with rfl | first
        · rfl
        · exact (same two (List.mem_cons_self ..) one first equal.symm).symm
      · exact same one first two second equal
  · rw [List.isChain_reverse, List.isChain_map]
    apply chain.imp
    intro younger older pulls
    obtain ⟨demand, asked⟩ := pulls
    exact (asks older younger demand asked).reference

end

/-- A program without templates that expand is reported as nested too deeply only if it has more
declarations than there are levels, no two of them the same, each of which names the next, or if a
decorator reports it. -/
theorem check_too_deep_only_in_chains (library : Library) (options : Options)
    (scripts : List Script) (rounds : Nat) (final : Checker)
    (checked : check (Environment.ofScripts library options scripts) rounds = some final)
    (inert : (Environment.ofScripts library options scripts).Inert) (location : Option Location)
    (reported : .report .cyclicReference CheckM.tooDeep location ∈ final.diagnostics) :
    library.Reports (.report .cyclicReference CheckM.tooDeep location) ∨
      ∃ chain : List SymbolId, CheckM.maxDepth < chain.length ∧ chain.Nodup ∧
        chain.IsChain fun symbol next =>
          (Environment.ofScripts library options scripts).Asks symbol next .reference := by
  have bound := Environment.ofScripts_bound library options scripts
  have ended := check_ended bound checked
  rcases (ended.justifies _ reported).nested rfl rfl with reports | nested
  · exact .inl reports
  · exact .inr ((nested inert.undefaulted).symbols bound inert ended.asksAsWritten)

/-- A model that is named after a number and has a property for each number in a list. -/
private def numbered (n : Nat) (others : List Nat) : Item :=
  let name (n : Nat) : Ident := ⟨s!"M{n}", default⟩
  let property (other : Nat) : Member :=
    .property [] ⟨"p", default⟩ false (.reference ⟨name other, []⟩ [] false default) default
  .model ⟨[], name n, [], .plain, others.map property, default⟩

/-- The model of arrays, and one more model than there are levels, each of which refers to the
next. -/
private def chainedModels : Environment :=
  let array : Item :=
    .model ⟨[], ⟨CheckM.arrayModel, default⟩, [⟨⟨"T", default⟩, none, default⟩], .plain, [], default⟩
  let models := (List.range CheckM.maxDepth).map fun n => numbered n [n + 1]
  .ofScripts {} {} [⟨⟨1⟩, [], array :: models ++ [numbered CheckM.maxDepth []]⟩]

private theorem chainedModels_reported :
    (check chainedModels 8).any (fun final =>
      .report .cyclicReference CheckM.tooDeep (some ⟨⟨1⟩, default⟩) ∈ final.diagnostics) = true := by
  decide +kernel

private theorem chainedModels_plain : ∀ symbol ∈ chainedModels.symbols.toList,
    CheckM.defaultOf symbol = none ∧ (symbol.templated = true →
      symbol.name = CheckM.arrayModel ∧ chainedModels.text symbol.id = []) := by
  have each : chainedModels.symbols.toList.all (fun symbol => (CheckM.defaultOf symbol).isNone &&
      (!symbol.templated ||
        symbol.name = CheckM.arrayModel && (chainedModels.text symbol.id).isEmpty)) = true := by
    decide +kernel
  intro symbol listed
  have plain := List.all_eq_true.mp each symbol listed
  simp only [Bool.and_eq_true, Option.isNone_iff_eq_none, Bool.or_eq_true, Bool.not_eq_true',
    List.isEmpty_iff, decide_eq_true_eq] at plain
  refine ⟨plain.1, fun templated => plain.2.resolve_left ?_⟩
  simp [templated]

private theorem chainedModels_inert : chainedModels.Inert := by
  apply Environment.Inert.of_toList (Environment.ofScripts_bound ..)
  intro symbol listed
  obtain ⟨undefaulted, array⟩ := chainedModels_plain symbol listed
  exact ⟨undefaulted, fun templated => (array templated).2⟩

theorem check_too_deep_only_in_chains_of_models :
    ∃ final, check chainedModels 8 = some final ∧ chainedModels.Inert ∧
      .report .cyclicReference CheckM.tooDeep (some ⟨⟨1⟩, default⟩) ∈ final.diagnostics ∧
      (Library.Reports {} (.report .cyclicReference CheckM.tooDeep (some ⟨⟨1⟩, default⟩)) ∨
        ∃ chain : List SymbolId, CheckM.maxDepth < chain.length ∧ chain.Nodup ∧
          chain.IsChain fun symbol next => chainedModels.Asks symbol next .reference) := by
  obtain ⟨final, checked, reported⟩ := (Option.any_eq_true _ _).mp chainedModels_reported
  have reported := of_decide_eq_true reported
  exact ⟨final, checked, chainedModels_inert, reported,
    check_too_deep_only_in_chains _ _ _ _ _ checked chainedModels_inert _ reported⟩

/-- No model of the program has parameters but the one of arrays, and the program is reported as
nested too deeply. -/
theorem check_too_deep_without_templates :
    (∀ symbol ∈ chainedModels.symbols.toList,
      symbol.templated = true → symbol.name = CheckM.arrayModel) ∧
    ∃ final, check chainedModels 8 = some final ∧
      .report .cyclicReference CheckM.tooDeep (some ⟨⟨1⟩, default⟩) ∈ final.diagnostics := by
  constructor
  · exact fun symbol listed templated => ((chainedModels_plain symbol listed).2 templated).1
  · obtain ⟨final, checked, reported⟩ := (Option.any_eq_true _ _).mp chainedModels_reported
    exact ⟨final, checked, of_decide_eq_true reported⟩

end Idl
