import Idl.Checker
import Idl.Proofs.BoundNames
import Idl.Proofs.DeclarationRuns
import Idl.Syntax.Script

/-! The run of the checker over a whole program. Between declarations nothing is
under work, and a key that was put off stays among the keys to be resolved, so
when no such key is left every place has been filled. -/
namespace Idl
variable {id : TypeId}

/-- Nothing is under work. -/
structure Resting (env : Environment) (c : Checker) : Prop where
  consistent : Consistent env c
  stack : c.stack = []
  depth : c.depth = 0
  params : ∀ param id, c.paramTypes.get? param = some id → ¬ c.Empty id

namespace Resting

section
variable (resting : Resting env c)
include resting

theorem idle : c.abandoning = none := by
  rcases Option.eq_none_or_eq_some c.abandoning with none | ⟨below, given⟩
  · exact none
  · obtain ⟨above, frame, rest, stacked, _⟩ := resting.consistent.unwinding below given
    rw [resting.stack] at stacked
    cases above <;> cases stacked

theorem shallow : c.depth < CheckM.maxDepth := by
  rw [resting.depth]
  decide

theorem ready : Ready env c :=
  ⟨resting.consistent, by rw [Checker.Open, resting.stack]; exact nofun,
    fun _ => by rw [resting.depth, resting.stack]; rfl⟩

/-- Where nothing is under work, anything may be asked for. -/
theorem lets : env.Lets c.stack target demand := by
  intro frame top
  rw [resting.stack] at top
  cases top

theorem licenses : env.Licenses c.stack mentions := by
  intro frame top
  rw [resting.stack] at top
  cases top

end

theorem runs (resting : Resting env before) (runs : Runs env frames before after)
    (stack : after.stack = before.stack) (depth : after.depth = before.depth) :
    Resting env after where
  consistent := resting.consistent.steps runs.steps
  stack := stack.trans resting.stack
  depth := depth.trans resting.depth
  params := fun param id own empty =>
    resting.params param id (runs.params param id own empty) (runs.grows.empty_before empty)

theorem moves (resting : Resting env before) (moves : Moves env frames before after) :
    Resting env after :=
  resting.runs moves.toRuns moves.stack moves.depth

end Resting

theorem resting_start : Resting env {} :=
  ⟨consistent_start env, rfl, rfl, by simp⟩

/-- Work from rest to rest. -/
def Advances {α : Type} (env : Environment) (work : CheckM α) (c : Checker) : Prop :=
  Ensures work c fun _ after => Steps env c after ∧ Resting env after

theorem Advances.bind (begun : Advances env first c)
    (rest : ∀ a middle, Resting env middle → Advances env (next a) middle) :
    Advances env (first >>= next) c :=
  Ensures.bind begun fun a middle between => Ensures.weaken (rest a middle between.2)
    fun _ _ ended => ⟨between.1.trans ended.1, ended.2⟩

theorem Works.advances (resting : Resting env c) (works : Works env c.stack work c result) :
    Advances env work c :=
  Ensures.weaken works fun _ _ ended => ⟨ended.1.steps, resting.moves ended.1⟩

namespace CheckM
variable {descent : Descent}

/-- The state in which a key that was put off is worked on again. -/
def resumed (c : Checker) (key : ResolutionKey) (id : TypeId) (rest : List ResolutionKey) :
    Checker :=
  { c with deferred := rest, depth := c.depth + 1 }.push key id .reference

/-- A key that was put off is taken up again. -/
theorem resumed_runs (sound : descent.Sound env) (resting : Resting env c)
    (queued : c.deferred = key :: rest) (waiting : c.resolutions.get? key = some (.deferred id)) :
    Ensures (resume descent key) { c with deferred := rest } fun _ after =>
      Runs env c.stack (resumed c key id rest) after ∧ after.stack = c.stack ∧
        after.depth = c.depth := by
  have step : Step env c (resumed c key id rest) := .resume resting.idle resting.stack queued waiting
  have ready : Ready env (resumed c key id rest) := by
    refine ⟨resting.consistent.step step, fun frame mem => ?_, fun _ => ?_⟩
    · rcases List.mem_cons.mp mem with rfl | mem
      · exact resting.consistent.slots.waiting key id waiting
      · rw [resting.stack] at mem
        cases mem
    · show c.depth + 1 = c.stack.length + 1
      rw [resting.depth, resting.stack]
      rfl
  unfold resume
  rw [Ensures.bind_iff, Ensures.get_iff]
  simp only [waiting]
  refine Ensures.bind enter_ensures ?_
  rintro _ _ (⟨rfl, rfl⟩ | ⟨_, deep, _⟩)
  · refine Ensures.map_iff.mpr ((resolveInto_ensures sound ready resting.idle none).weaken ?_)
    rintro _ after ⟨runs, stack, depth, _⟩
    exact ⟨runs, stack, depth⟩
  · exact absurd deep (Nat.not_le.mpr resting.shallow)

/-- One round of what was put off, from rest to rest. -/
theorem resume_advances (sound : descent.Sound env) (resting : Resting env c)
    (queued : c.deferred = key :: rest) :
    Ensures (resume descent key) { c with deferred := rest } fun _ after =>
      Steps env c after ∧ Resting env after := by
  by_cases wait : ∃ id, c.resolutions.get? key = some (.deferred id)
  · obtain ⟨id, waiting⟩ := wait
    have step : Step env c (resumed c key id rest) :=
      .resume resting.idle resting.stack queued waiting
    have begun : Runs env c.stack c (resumed c key id rest) := .of_step step rfl rfl [_] rfl (by simp)
    refine (resumed_runs sound resting queued waiting).weaken ?_
    rintro _ after ⟨runs, stack, depth⟩
    have whole := begun.trans runs
    exact ⟨whole.steps, resting.runs whole stack depth⟩
  · have other : ∀ id, c.resolutions.get? key ≠ some (.deferred id) := not_exists.mp wait
    unfold resume
    rw [Ensures.bind_iff, Ensures.get_iff]
    dsimp only
    split
    · rename_i id waiting
      exact absurd waiting (other id)
    · have step : Step env c { c with deferred := rest } := .pass queued other
      have passed : Runs env [] c _ := .of_step step rfl rfl [] rfl (by simp)
      exact Ensures.pure_iff.mpr ⟨.single step, resting.runs passed rfl rfl⟩

/-- What was put off is resolved until nothing is left of it. -/
theorem resolveDeferred_advances (sound : descent.Sound env)
    (resting : Resting env c) :
    Ensures (resolveDeferred descent rounds) c fun _ after =>
      (Steps env c after ∧ Resting env after) ∧ after.deferred = [] := by
  induction rounds generalizing c with
  | zero => exact Ensures.exhausted
  | succ rounds ih =>
    unfold resolveDeferred
    rw [Ensures.bind_iff, Ensures.get_iff]
    split
    · rename_i nothing
      exact Ensures.pure_iff.mpr ⟨⟨.refl, resting⟩, nothing⟩
    · rename_i key rest queued
      rw [Ensures.bind_iff, Ensures.set_iff]
      refine Ensures.bind (resume_advances sound resting queued) ?_
      rintro _ middle ⟨steps, resting⟩
      exact (ih resting).weaken fun _ _ last => ⟨⟨steps.trans last.1.1, last.1.2⟩, last.2⟩

theorem rejectDecorators_works :
    Works env frames (rejectDecorators applications) c fun _ _ => True := by
  induction applications generalizing c with
  | nil => exact .pure trivial
  | cons application rest ih =>
    refine Works.bind (report_works _ (fun _ => .of_code ?_) fun _ => .other ?_) fun _ _ _ _ => ih
    · exact (by decide : Code.invalidDecoratorTarget.Unrelated)
    · exact (by decide : Code.invalidDecoratorTarget ≠ .cyclicReference)

theorem checkNamespace_advances (bound : env.Bound)
    (sound : descent.Sound env)
    (resting : Resting env c) : Advances env (checkNamespace env descent node declarations) c := by
  induction declarations generalizing c with
  | nil => exact Ensures.pure_iff.mpr ⟨.refl, resting⟩
  | cons declaration rest ih =>
    obtain ⟨location, definition⟩ := declaration
    cases definition with
    | space head =>
      refine Advances.bind (Works.advances resting
        (decoratorList_works bound sound resting.ready (by simp [Context.Held])
          resting.licenses)) ?_
      intro applications middle resting
      exact Advances.bind (Works.advances resting rejectDecorators_works)
        fun _ _ resting => ih resting
    | _ => exact ih resting

/-- A declaration without parameters has a state once it was checked. -/
private theorem checkDeclaration_known (sound : descent.Sound env) (resting : Resting env c)
    (declares : env.Declares symbol) (plain : (env.symbols.symbol symbol).templateParams = []) :
    Ensures (checkDeclaration env descent symbol) c fun _ after =>
      after.resolutions.get? ⟨symbol, []⟩ ≠ none := by
  unfold checkDeclaration
  rw [plain, Ensures.bind_iff]
  refine Ensures.pure_iff.mpr ?_
  have proper : Proper env c ⟨symbol, []⟩ := ⟨declares, by rw [plain]; rfl, nofun, nofun⟩
  have notes : c.Notes env (.asked c.worker ⟨symbol, []⟩ .reference) := .asked resting.lets
  have asks : Moves env c.stack c _ := .note notes
  rw [resolveSymbol, Ensures.bind_iff, Ensures.modify_iff]
  refine Ensures.bind (resolveKey_known sound (resting.ready.moves asks) { proper with }
    resting.shallow (List.mem_cons_self ..) none) ?_
  intro id after known
  rw [Ensures.bind_iff, Ensures.modify_iff, Ensures.pure_iff]
  exact known

/-- What is known after a symbol has been checked. -/
def Visits (env : Environment) (symbol : SymbolId) (c after : Checker) : Prop :=
  (Steps env c after ∧ Resting env after) ∧
    (env.Declares symbol → (env.symbols.symbol symbol).templateParams = [] →
      after.resolutions.get? ⟨symbol, []⟩ ≠ none)

variable (bound : env.Bound) (sound : descent.Sound env)
include bound sound

theorem visit_visits (listed : env.symbols.symbol symbol.id = symbol) (resting : Resting env c) :
    Ensures (visit env descent symbol) c fun _ after => Visits env symbol.id c after := by
  have declared (declares : env.Declares symbol.id) : Ensures (do
      let id ← checkDeclaration env descent symbol.id
      modify fun c => { c with symbolTypes := c.symbolTypes.insert symbol.id id })
      c fun _ after => Visits env symbol.id c after := by
    have known : Ensures (checkDeclaration env descent symbol.id) c fun _ after =>
        (env.symbols.symbol symbol.id).templateParams = [] →
          after.resolutions.get? ⟨symbol.id, []⟩ ≠ none := fun id after ran plain =>
      checkDeclaration_known sound resting declares plain id after ran
    refine Ensures.bind (Ensures.both (checkDeclaration_works sound resting.ready declares
      resting.lets) known) ?_
    rintro id middle ⟨⟨moves, inside, right, placed⟩, known⟩
    have step : Step env middle _ := .assign symbol.id inside right placed
    have assigned : Runs env [] middle _ := .of_step step rfl rfl [] rfl (by simp)
    exact Ensures.modify_iff.mpr ⟨⟨moves.steps.tail step,
      (resting.moves moves).runs assigned rfl rfl⟩, fun _ plain => step.grows.known _ (known plain)⟩
  have other (kind : ¬ env.Declares symbol.id) {work : CheckM Unit}
      (advances : Advances env work c) : Ensures work c fun _ after => Visits env symbol.id c after :=
    Ensures.weaken advances fun _ _ ended => ⟨ended, fun declares => absurd declares kind⟩
  have idle : Advances env (pure ()) c := Ensures.pure_iff.mpr ⟨.refl, resting⟩
  unfold visit
  split
  · rename_i kind
    exact declared (.inl (by rw [listed, kind]))
  · rename_i kind
    exact declared (.inr (.inl (by rw [listed, kind])))
  · rename_i kind
    exact declared (.inr (.inr (by rw [listed, kind])))
  · rename_i kind
    refine other (by simp [Environment.Declares, listed, kind]) ?_
    split
    · exact checkNamespace_advances bound sound resting
    · exact idle
  · rename_i kind
    exact other (by simp [Environment.Declares, listed, kind]) idle
  · rename_i kind
    exact other (by simp [Environment.Declares, listed, kind]) idle

theorem checkSymbol_visits (listed : env.symbols.symbol symbol.id = symbol) (resting : Resting env c) :
    Ensures (checkSymbol env descent rounds symbol) c fun _ after =>
      Visits env symbol.id c after := by
  refine Ensures.bind (visit_visits bound sound listed resting) ?_
  rintro _ middle ⟨⟨steps, resting⟩, known⟩
  split
  · refine (resolveDeferred_advances sound resting).weaken ?_
    rintro _ after ⟨⟨further, rested⟩, _⟩
    exact ⟨⟨steps.trans further, rested⟩,
      fun declares plain => further.grows.known _ (known declares plain)⟩
  · exact Ensures.pure_iff.mpr ⟨⟨steps, resting⟩, known⟩

theorem checkSymbols_visits (rounds : Nat) (symbols : List Symbol)
    (listed : ∀ symbol ∈ symbols, env.symbols.symbol symbol.id = symbol) (resting : Resting env c) :
    Ensures (checkSymbols env descent rounds symbols) c fun _ after =>
      after.deferred = [] ∧ (Steps env c after ∧ Resting env after) ∧
        ∀ symbol ∈ symbols, Visits env symbol.id c after := by
  induction symbols generalizing c with
  | nil =>
    exact (resolveDeferred_advances sound resting).weaken
      fun _ _ ended => ⟨ended.2, ended.1, by simp⟩
  | cons symbol rest ih =>
    refine Ensures.bind (checkSymbol_visits bound sound (listed symbol (by simp)) resting) ?_
    rintro _ middle ⟨⟨steps, resting⟩, known⟩
    refine (ih (fun other mem => listed other (List.mem_cons_of_mem _ mem)) resting).weaken ?_
    rintro _ after ⟨deferred, ⟨further, rested⟩, visits⟩
    refine ⟨deferred, ⟨steps.trans further, rested⟩, fun other mem => ?_⟩
    rcases List.mem_cons.mp mem with rfl | mem
    · exact ⟨⟨steps.trans further, rested⟩,
        fun declares plain => further.grows.known _ (known declares plain)⟩
    · exact ⟨⟨steps.trans further, rested⟩, (visits other mem).2⟩

end CheckM

/-- What the files of a program are checked with. -/
def Environment.ofScripts (library : Library) (options : Options) (scripts : List Script) :
    Environment :=
  ⟨(Binding.ofScripts library.names scripts).table, library, options⟩

theorem Environment.ofScripts_bound (library : Library) (options : Options)
    (scripts : List Script) : (ofScripts library options scripts).symbols.Bound library.size := by
  have bound := Binding.ofScripts_bound library.names scripts
  rw [Library.names, List.length_map] at bound
  exact bound

/-- What a program of one file is checked with, without decorators if none are given. -/
def Environment.ofText (text : String) (library : Library := {}) : Environment :=
  ofScripts library {} ((Script.read ⟨1⟩ text).map (·.1)).toList

/-- The state in which the check of a program ends. -/
structure Ended (env : Environment) (c : Checker) : Prop extends Resting env c where
  steps : Steps env {} c
  deferred : c.deferred = []
  visited : ∀ symbol, env.Declares symbol → (env.symbols.symbol symbol).templateParams = [] →
    c.resolutions.get? ⟨symbol, []⟩ ≠ none

/-- What each step of a run keeps holds at its end. -/
theorem Ended.keeps (ended : Ended env c) (holds : Checker → Prop) (start : holds {})
    (kept : ∀ before after, Consistent env before → Step env before after → holds before →
      holds after) : holds c :=
  (consistent_start env).preserves holds start kept ended.steps

theorem check_ended (bound : env.Bound)
    (checked : check env rounds = some final) : Ended env final := by
  obtain ⟨⟨done, last⟩, ran, rfl⟩ := Option.map_eq_some_iff.mp checked
  obtain ⟨deferred, ⟨steps, resting⟩, visits⟩ := CheckM.checkSymbols_visits bound
    (CheckM.descentOf_sound bound env.levels) rounds env.symbols.toList
    (fun _ mem => bound.numbered mem) resting_start done last ran
  refine ⟨resting, steps, deferred, fun symbol declares plain => ?_⟩
  obtain ⟨mem, numbered⟩ := bound.listed declares.not_space
  have known := (visits _ mem).2
  rw [numbered] at known
  exact known declares plain

namespace Ended

/-- In the end a key that has a place is resolved, or a cycle was found at it. -/
theorem settled (ended : Ended env c) (placed : c.Placed key id) :
    c.resolutions.get? key = some (.resolved id) ∨ c.resolutions.get? key = some .errored := by
  have keys := ended.consistent.keys
  obtain ⟨state, known⟩ := Option.ne_none_iff_exists'.mp ((keys.known key).mpr ⟨id, placed⟩)
  cases state with
  | resolving other =>
    obtain ⟨frame, mem, _⟩ := keys.resolving key other known
    rw [ended.stack] at mem
    cases mem
  | deferred other =>
    have waiting := (keys.waiting key other known).2
    rw [ended.deferred] at waiting
    cases waiting
  | resolved other =>
    obtain rfl := ended.consistent.ledger.placed_once (keys.resolved key other known) placed
    exact .inl known
  | errored => exact .inr known

/-- In the end every place is filled. -/
theorem filled (ended : Ended env c) (held : c.Holds id) : ¬ c.Empty id := by
  intro empty
  obtain ⟨event, mem, place⟩ := ended.consistent.slots.empties id held empty
  cases event with
  | placed key other =>
    cases place
    rcases ended.settled mem with resolved | errored
    · exact ended.consistent.slots.resolved key id resolved empty
    · -- A key with a cycle keeps its place, which is filled when its frame ends.
      refine ended.consistent.slots.errored key id mem errored ?_ empty
      rw [ended.stack]
      exact nofun
  | placedParam param other =>
    cases place
    exact ended.params param id ((ended.consistent.params.listed param id).mp mem) empty
  | _ => cases place

/-- The type of a declaration is an error, or that of the declaration with its own parameters. -/
theorem views (ended : Ended env c) : ∀ symbol id,
    c.symbolTypes.get? symbol = some id → id = TypeStore.error ∨
      ∃ args, c.Placed ⟨symbol, args⟩ id ∧ c.isDeclarationView env.symbols ⟨symbol, args⟩ = true := by
  refine ended.keeps (fun c => ∀ symbol id,
    c.symbolTypes.get? symbol = some id → id = TypeStore.error ∨ ∃ args, c.Placed ⟨symbol, args⟩ id ∧
      c.isDeclarationView env.symbols ⟨symbol, args⟩ = true) (by simp) ?_
  intro c after consistent step views symbol id given
  have grown := step.grows
  have old (before : c.symbolTypes.get? symbol = some id) : id = TypeStore.error ∨
      ∃ args, after.Placed ⟨symbol, args⟩ id ∧
        after.isDeclarationView env.symbols ⟨symbol, args⟩ = true := by
    rcases views symbol id before with error | ⟨args, placed, view⟩
    · exact .inl error
    · exact .inr ⟨args, grown.placed placed, grown.isDeclarationView view⟩
  cases step with
  | assign other _ right =>
    rw [Dictionary.get?_insert] at given
    split at given
    · rename_i same
      subst same
      cases given
      exact right
    · exact old given
  | _ => exact old given

end Ended

end Idl
