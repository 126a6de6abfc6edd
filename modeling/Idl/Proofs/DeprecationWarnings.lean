import Idl.Proofs.CompleteCycles
import Mathlib.Tactic.MkIffOfInductiveProp

/-! Warnings about what is deprecated. A reference is warned of when it is read, if the
type of its target is marked by then, and the mark is set when the target is resolved.
So a warning is missing where the target is still under work, which means that it leads to
the declaration that refers to it, and where the target has been put off. Only what is given
up, or is asked for by something that is given up, is put off, and what is given up leads
back to itself by way of something that is needed in full. -/
namespace Idl

/-- One declaration leads to another, by what is named. -/
def Environment.Reaches (env : Environment) : SymbolId → SymbolId → Prop :=
  Relation.ReflTransGen fun symbol target => env.Asks symbol target .reference

/-- A declaration leads back to itself by way of something that is needed in full. -/
def Environment.LeadsBack (env : Environment) (symbol : SymbolId) : Prop :=
  ∃ worker target, env.Reaches symbol worker ∧ env.Asks worker target .complete ∧
    env.Reaches target symbol

/-- The same of keys, by what was asked for. -/
def Checker.Circles (c : Checker) (key : ResolutionKey) : Prop :=
  ∃ worker target, Relation.ReflTransGen c.Pulls key worker ∧ c.Demands worker target ∧
    Relation.ReflTransGen c.Pulls target key

/-! What is given up, and what is put off. -/

/-- While work is given up, the keys that are given up lead back to themselves. What was put off
leads back to itself, or was asked for by something that does. -/
structure Checker.Circling (c : Checker) : Prop where
  unwinding : ∀ above frame rest below, c.abandoning = some below →
    c.stack = above ++ frame :: rest → below ≤ rest.length → c.Circles frame.key
  putOff : ∀ key id, .changed key (.deferred id) ∈ c.history →
    c.Circles key ∨ ∃ worker, c.Pulls worker key ∧ c.Circles worker

section

private theorem Checker.Circles.grows (grown : Grows c after) (circles : c.Circles key) :
    after.Circles key := by
  obtain ⟨worker, target, there, demands, back⟩ := circles
  exact ⟨worker, target, there.lift id fun _ _ => Checker.Pulls.grows grown, demands.grows grown,
    back.lift id fun _ _ => Checker.Pulls.grows grown⟩

private theorem linked_below (linked : Linked history (above ++ rest)) : Linked history rest := by
  induction above with
  | nil => exact linked
  | cons upper above ih => exact ih linked.tail

/-- If a key under work is asked for in full, whatever lies above it leads back to itself. -/
private theorem Consistent.circles_above (consistent : Consistent env c)
    (stacked : c.stack = above ++ frame :: (middle ++ lower :: rest))
    (asked : .asked c.worker lower.key .complete ∈ c.history) : c.Circles frame.key := by
  obtain ⟨worker, own, up⟩ := consistent.leads_to_worker stacked
  rw [own] at asked
  have linked := consistent.linked
  rw [stacked] at linked
  have below : Linked c.history ((frame :: middle) ++ lower :: rest) := linked_below linked
  exact ⟨worker, lower.key, up, asked,
    below.reaches (fun upper _ _ asked => ⟨upper.demand, asked⟩) rfl⟩

/-- What is asked for while work is given up is asked for by something that is given up. -/
private theorem Checker.Circling.asked (circling : c.Circling) (consistent : Consistent env c)
    (unwinding : c.abandoning ≠ none) (asked : ∃ demand, .asked c.worker key demand ∈ c.history) :
    ∃ worker, c.Pulls worker key ∧ c.Circles worker := by
  obtain ⟨below, given⟩ := Option.ne_none_iff_exists'.mp unwinding
  obtain ⟨demand, asked⟩ := asked
  cases stacked : c.stack with
  | nil =>
    obtain ⟨above, frame, rest, split, _⟩ := consistent.unwinding below given
    rw [stacked] at split
    cases above <;> cases split
  | cons frame rest =>
    have inside := (consistent.unwinding_inside stacked given).1
    rw [Checker.worker, stacked] at asked
    exact ⟨frame.key, ⟨demand, asked⟩, circling.unwinding [] frame rest below given stacked inside⟩

private theorem step_unwinding (consistent : Consistent env c) (step : Step env c after)
    (circling : c.Circling) (above : List Frame) (frame : Frame) (rest : List Frame) (below : Nat)
    (given : after.abandoning = some below) (stacked : after.stack = above ++ frame :: rest)
    (inside : below ≤ rest.length) : after.Circles frame.key := by
  have grown := step.grows
  cases step with
  | begin _ idle | again _ idle | resume idle | complete idle | completeErrored idle =>
    cases idle.symm.trans given
  | @abandon _ lowest _ _ _ split _ _ demanded asked =>
    obtain ⟨lower, mem, rfl⟩ := List.mem_map.mp demanded
    -- what is under the frame that is given up is under this frame, too
    have one : lowest <:+ c.stack := by
      rw [split]
      exact (List.suffix_cons _ _).trans (List.suffix_append _ _)
    have two : rest <:+ c.stack := by
      rw [stacked]
      exact (List.suffix_cons _ _).trans (List.suffix_append _ _)
    obtain rfl := Option.some.inj given
    have under : lowest <:+ rest := List.suffix_of_suffix_length_le one two inside
    obtain ⟨middle, deeper, rfl⟩ := List.append_of_mem (under.subset mem)
    exact (consistent.circles_above stacked asked).grows grown
  | @giveUp top _ _ _ split =>
    simp only [Checker.defer, Checker.setState, Checker.log] at given
    split at given
    · cases given
    · apply Checker.Circles.grows grown
      apply circling.unwinding (top :: above) frame rest below given _ inside
      rw [split, List.cons_append]
      exact congrArg (top :: ·) stacked
  | _ => exact (circling.unwinding above frame rest below given stacked inside).grows grown

private theorem step_putOff (consistent : Consistent env c) (step : Step env c after)
    (circling : c.Circling) (key : ResolutionKey) (id : TypeId)
    (mem : .changed key (.deferred id) ∈ after.history) :
    after.Circles key ∨ ∃ worker, after.Pulls worker key ∧ after.Circles worker := by
  have reason : c.Circles key ∨ ∃ worker, c.Pulls worker key ∧ c.Circles worker := by
    cases Consistent.changes step mem with
    | kept before => exact circling.putOff key id before
    | postponed unwinding asked => exact .inr (circling.asked consistent unwinding asked)
    | @givenUp frame rest below unwinding stacked named inside =>
      rw [← named]
      exact .inl (circling.unwinding [] frame rest below unwinding stacked inside)
  rcases reason with circles | ⟨worker, pulls, circles⟩
  · exact .inl (circles.grows step.grows)
  · exact .inr ⟨worker, pulls.grows step.grows, circles.grows step.grows⟩

theorem Ended.circling (ended : Ended env c) : c.Circling := by
  refine ended.keeps Checker.Circling ⟨?_, by simp⟩ ?_
  · intro above frame rest below given
    cases given
  · intro c after consistent step circling
    exact ⟨step_unwinding consistent step circling, step_putOff consistent step circling⟩

/-! What was referred to in the declarations that have their types. -/

/-- Declarations that have their types heed what they refer to, and are deprecated as written. -/
def Checker.HeedsReferences (env : Environment) (c : Checker) : Prop :=
  ∀ key id type, c.Placed key id → c.types.get? id = some type →
    (∀ reference ∈ env.refers key.symbol, c.Heeds env (some key) reference) ∧
      (env.Deprecates key.symbol → type ≠ .error → type.Deprecated)

private theorem step_heedsReferences (consistent : Consistent env c) (step : Step env c after)
    (heeds : c.HeedsReferences env) : after.HeedsReferences env := by
  intro key id type placed stored
  rcases consistent.stores_key step placed stored with
    ⟨placed, stored⟩ | ⟨frame, rest, stacked, named, _, completes, _, _⟩
  · obtain ⟨heeded, carries⟩ := heeds key id type placed stored
    exact ⟨fun reference mem => (heeded reference mem).grows step.grows, carries⟩
  · have worker : c.worker = some frame.key := by rw [Checker.worker, stacked]; rfl
    rw [← named, ← worker]
    exact ⟨fun reference mem => (completes.meets reference mem).1.grows step.grows,
      completes.carries⟩

variable (ended : Ended env c)
include ended

theorem Ended.heedsReferences : c.HeedsReferences env :=
  ended.keeps (Checker.HeedsReferences env)
    (by simp [Checker.HeedsReferences, Checker.Placed]) fun _ _ => step_heedsReferences

/-- What leads somewhere in a run does so in the text. -/
private theorem Ended.reaches (leads : Relation.ReflTransGen c.Pulls key target) :
    env.Reaches key.symbol target.symbol := by
  refine leads.lift ResolutionKey.symbol fun worker key pulls => ?_
  obtain ⟨demand, asked⟩ := pulls
  exact (ended.asksAsWritten worker key demand asked).reference

private theorem Ended.leadsBack (circles : c.Circles key) : env.LeadsBack key.symbol := by
  obtain ⟨worker, target, there, demands, back⟩ := circles
  exact ⟨worker.symbol, target.symbol, ended.reaches there,
    ended.asksAsWritten worker target .complete demands, ended.reaches back⟩

/-- A key that is an error leads back to itself. -/
private theorem Ended.circles_of_errored (changed : .changed key .errored ∈ c.history) :
    c.Circles key := by
  have loops := ended.consistent.recorded.errored key changed
  obtain ⟨worker, there, demands⟩ := Relation.TransGen.tail'_iff.mp loops.looped
  exact ⟨worker, key, there.lift id fun _ _ asked => ⟨.complete, asked⟩, demands, .refl⟩

/-- There is an excuse only for what leads to the declaration that refers to it, for what leads back
to itself or is named by what does, and for what is too deep. -/
private theorem Ended.excuses (excuses : c.Excuses (some key) ⟨target, []⟩ location) :
    env.Reaches target key.symbol ∨
      (∃ symbol, (symbol = target ∨ env.Asks symbol target .reference) ∧ env.LeadsBack symbol) ∨
      ∃ finding ∈ c.diagnostics, finding.message = CheckM.tooDeep ∧ finding.location = location := by
  have own (circles : c.Circles ⟨target, []⟩) :
      ∃ symbol, (symbol = target ∨ env.Asks symbol target .reference) ∧ env.LeadsBack symbol :=
    ⟨target, .inl rfl, ended.leadsBack circles⟩
  cases excuses with
  | underWork same leads =>
    cases same
    exact .inl (ended.reaches leads)
  | errored changed => exact .inr (.inl (own (ended.circles_of_errored changed)))
  | putOff changed =>
    rcases ended.circling.putOff _ _ changed with circles | ⟨worker, ⟨demand, asked⟩, circles⟩
    · exact .inr (.inl (own circles))
    · have named := (ended.asksAsWritten worker _ demand asked).reference
      exact .inr (.inl ⟨worker.symbol, .inr named, ended.leadsBack circles⟩)
  | deep told _ message place => exact .inr (.inr ⟨_, told, message, place⟩)

/-- What stands for a declaration without parameters is in the place of its key. -/
private theorem Ended.right_of_typed {id : TypeId} (placed : c.Placed ⟨symbol, []⟩ place)
    (typed : c.symbolTypes.get? symbol = some id) (right : c.types.isError id = false) :
    c.types.get? place ≠ some .error := by
  simp only [TypeStore.isError, Bool.or_eq_false_iff, beq_eq_false_iff_ne] at right
  rcases ended.views symbol id typed with error | ⟨args, own, _⟩
  · exact absurd error right.1
  · have plain := (ended.consistent.holdings.proper _ _ placed).counted
    have counted := (ended.consistent.holdings.proper _ _ own).counted
    obtain rfl : args = [] := List.length_eq_zero_iff.mp (counted.symm.trans plain)
    obtain rfl := ended.consistent.ledger.placed_once placed own
    intro wrong
    simp [wrong, CheckedType.isError] at right

end

/-- A declaration without parameters refers to one that is deprecated and whose type is no error. -/
@[mk_iff]
structure Checker.UsesDeprecated (env : Environment) (c : Checker) (symbol : SymbolId)
    (reference : Reference) : Prop where
  declares : env.Declares symbol
  plain : (env.symbols.symbol symbol).templated = false
  written : reference ∈ env.refers symbol
  deprecates : env.Deprecates reference.target
  right : ∃ id ∈ c.symbolTypes.get? reference.target, c.types.isError id = false

instance (env : Environment) (c : Checker) (symbol : SymbolId) (reference : Reference) :
    Decidable (c.UsesDeprecated env symbol reference) :=
  decidable_of_iff' _ (Checker.usesDeprecated_iff env c symbol reference)

/-- A declaration does not lead to another one that refers to it, and neither it nor anything that
names it leads back to itself by way of something that is needed in full. -/
structure Environment.Straight (env : Environment) (symbol target : SymbolId) : Prop where
  apart : ¬ env.Reaches target symbol
  settled : ∀ other, other = target ∨ env.Asks other target .reference → ¬ env.LeadsBack other

/-- Nothing has parameters, and what is named is the declaration itself or stands before it. What
is needed in full stands before it. -/
structure Environment.Ordered (env : Environment) : Prop where
  plain : ∀ symbol, (env.symbols.symbol symbol).templateParams = []
  apart : ∀ symbol, (env.symbols.symbol symbol).kind ≠ .templateParameter
  named : ∀ symbol, ∀ mention ∈ env.text symbol, mention.symbol.index ≤ symbol.index ∧
    (mention.use ≠ none → mention.symbol.index < symbol.index)

namespace Environment.Ordered
variable {env : Environment}

theorem of_toList (bound : env.symbols.Bound decorators)
    (each : ∀ symbol ∈ env.symbols.toList, symbol.templateParams = [] ∧
      symbol.kind ≠ .templateParameter ∧ ∀ mention ∈ env.text symbol.id,
        mention.symbol.index ≤ symbol.id.index ∧
          (mention.use ≠ none → mention.symbol.index < symbol.id.index)) : env.Ordered := by
  have all (id : SymbolId) : (env.symbols.symbol id).templateParams = [] ∧
      (env.symbols.symbol id).kind ≠ .templateParameter ∧ ∀ mention ∈ env.text id,
        mention.symbol.index ≤ id.index ∧
          (mention.use ≠ none → mention.symbol.index < id.index) := by
    rcases bound.listed_or_global id with ⟨listed, numbered⟩ | global
    · have own := each _ listed
      rw [numbered] at own
      exact own
    · have nothing : env.text id = [] := by
        unfold Environment.text
        rw [global]
        rfl
      rw [nothing, global]
      exact ⟨rfl, by decide, by simp⟩
  exact ⟨fun id => (all id).1, fun id => (all id).2.1, fun id => (all id).2.2⟩

theorem asks (ordered : env.Ordered) (asks : env.Asks symbol target demand) :
    target.index ≤ symbol.index ∧ (demand = .complete → target.index < symbol.index) := by
  obtain ⟨use, ⟨reader, reads, written⟩, full⟩ := asks
  have own : reader = symbol := by
    cases reads with
    | own => rfl
    | named _ _ kind => exact absurd kind (ordered.apart reader)
    | parameter _ _ mem =>
      rw [ordered.plain] at mem
      cases mem
  rw [own] at written
  obtain ⟨before, needed⟩ := ordered.named symbol _ written
  exact ⟨before, fun complete => needed (full complete)⟩

theorem reaches (ordered : env.Ordered) (reaches : env.Reaches symbol target) :
    target.index ≤ symbol.index := by
  induction reaches with
  | refl => exact Nat.le_refl _
  | tail _ asks ih => exact Nat.le_trans (ordered.asks asks).1 ih

theorem straight (ordered : env.Ordered) (before : target.index < symbol.index) :
    env.Straight symbol target := by
  constructor
  · intro reaches
    have := ordered.reaches reaches
    omega
  · rintro other _ ⟨worker, next, there, needed, back⟩
    have down := ordered.reaches there
    have below := (ordered.asks needed).2 rfl
    have up := ordered.reaches back
    omega

end Environment.Ordered

/-- A reference to a declaration that is deprecated is warned of, if that declaration does not lead
to the one that refers to it, nothing that may put it off leads back to itself, and the reference is
not too deep. -/
theorem check_warns_of_deprecated (options : Options) (scripts : List Script) (rounds : Nat)
    (final : Checker)
    (checked : check (Environment.ofScripts Builtin.library options scripts) rounds = some final)
    (symbol : SymbolId) (reference : Reference)
    (uses : final.UsesDeprecated (Environment.ofScripts Builtin.library options scripts) symbol
      reference)
    (straight : (Environment.ofScripts Builtin.library options scripts).Straight symbol
      reference.target)
    (shallow : ∀ finding ∈ final.diagnostics, finding.message = CheckM.tooDeep →
      finding.location ≠ some reference.location) :
    ∃ message, .report .deprecated message (some reference.location) ∈ final.diagnostics := by
  have bound := Environment.ofScripts_bound Builtin.library options scripts
  have ended := check_ended bound checked
  -- the referring declaration has its type in the end, so it heeds what it refers to
  have visited := ended.visited symbol uses.declares (bound.plain uses.plain)
  obtain ⟨place, placed⟩ := (ended.consistent.keys.known _).mp visited
  obtain ⟨type, stored⟩ :=
    Option.ne_none_iff_exists'.mp (ended.filled (ended.consistent.holds_placed placed))
  obtain ⟨heeds, _⟩ := ended.heedsReferences _ place type placed stored
  cases heeds reference uses.written with
  | warned message told => exact ⟨message, told⟩
  | excused excuses =>
    rcases ended.excuses excuses with leads | ⟨other, named, back⟩ | ⟨finding, told, message, here⟩
    · exact absurd leads straight.apart
    · exact absurd back (straight.settled other named)
    · exact absurd here (shallow finding told message)
  | @current id type placed stored current =>
    obtain ⟨_, typed, right⟩ := uses.right
    obtain ⟨_, carries⟩ := ended.heedsReferences _ id type placed stored
    refine absurd (carries uses.deprecates ?_) (current rfl)
    rintro rfl
    exact ended.right_of_typed placed typed right stored

/-- A model that is deprecated refers to itself, and so does another one that extends it. -/
private def linkedModels : Environment := .ofText
  ("@deprecated(\"x\") model D \x7b next: D \x7d model E extends D \x7b e: E | D \x7d " ++
    "model F \x7b ...E \x7d") Builtin.library

private theorem linkedModels_ordered : linkedModels.Ordered := by
  apply Environment.Ordered.of_toList (Environment.ofScripts_bound ..)
  decide +kernel

theorem check_warns_of_deprecated_in_linked :
    ∃ final, check linkedModels 8 = some final ∧
      final.UsesDeprecated linkedModels ⟨9⟩ ⟨⟨8⟩, ⟨⟨1⟩, ⟨1, 65, 1⟩⟩, none⟩ ∧
      linkedModels.Straight ⟨9⟩ ⟨8⟩ ∧
      (∀ finding ∈ final.diagnostics, finding.message ≠ CheckM.tooDeep) ∧
      ∃ message, .report .deprecated message (some ⟨⟨1⟩, ⟨1, 65, 1⟩⟩) ∈ final.diagnostics := by
  have returns : (check linkedModels 8).any (fun final =>
      final.UsesDeprecated linkedModels ⟨9⟩ ⟨⟨8⟩, ⟨⟨1⟩, ⟨1, 65, 1⟩⟩, none⟩ ∧
        ∀ finding ∈ final.diagnostics, finding.message ≠ CheckM.tooDeep) = true := by
    decide +kernel
  obtain ⟨final, checked, run⟩ := (Option.any_eq_true _ _).mp returns
  obtain ⟨uses, shallow⟩ := of_decide_eq_true run
  have straight : linkedModels.Straight ⟨9⟩ ⟨8⟩ := linkedModels_ordered.straight (by decide)
  exact ⟨final, checked, uses, straight, shallow, check_warns_of_deprecated _ _ _ _ checked _ _ uses
    straight fun finding told message => absurd message (shallow finding told)⟩

/-- Two models that refer to each other. -/
private def mutualModels : Environment :=
  .ofText "@deprecated(\"x\") model D \x7b a: A \x7d model A \x7b d: D \x7d" Builtin.library

/-- A reference to a model that is deprecated is not warned of, since the one that refers to it is
reached from it. -/
theorem check_misses_deprecated :
    ∃ final, check mutualModels 8 = some final ∧
      final.UsesDeprecated mutualModels ⟨9⟩ ⟨⟨8⟩, ⟨⟨1⟩, ⟨1, 48, 1⟩⟩, none⟩ ∧ final.diagnostics = [] := by
  have returns : (check mutualModels 8).any (fun final =>
      final.UsesDeprecated mutualModels ⟨9⟩ ⟨⟨8⟩, ⟨⟨1⟩, ⟨1, 48, 1⟩⟩, none⟩ ∧ final.diagnostics = []) =
        true := by
    decide +kernel
  obtain ⟨final, checked, run⟩ := (Option.any_eq_true _ _).mp returns
  exact ⟨final, checked, of_decide_eq_true run⟩

end Idl
