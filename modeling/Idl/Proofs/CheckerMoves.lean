import Idl.Proofs.CheckerConsistency

/-! What one piece of work of the checker does as a whole. It is a run of steps
that ends with the stack it began with, gives no type to the declarations under
work around it, and stores the type of every template parameter that it began.
A piece of work is described by its result under these conditions, and pieces
in a row are described by what holds between them. -/
namespace Idl

/-- An event settles nothing about what the model of a frame extends, and does not put it off. -/
@[simp] def Event.Spares (frame : Frame) : Event → Prop
  | .extended id _ => id ≠ frame.id
  | .changed key (.deferred _) => key ≠ frame.key
  | _ => True

/-- A run of steps in which some frames keep their empty places. -/
structure Runs (env : Environment) (frames : List Frame) (before after : Checker) : Prop where
  steps : Steps env before after
  unfilled : ∀ frame ∈ frames, before.Empty frame.id → after.Empty frame.id
  pending : ∀ param id, before.paramTypes.get? param = some id → before.Empty id → after.Empty id
  params : ∀ param id, after.paramTypes.get? param = some id → after.Empty id →
    before.paramTypes.get? param = some id
  quiet : ∃ added, after.history = added ++ before.history ∧
    ∀ frame ∈ frames, ∀ event ∈ added, event.Spares frame

namespace Runs

theorem grows (runs : Runs env frames before after) : Grows before after := runs.steps.grows

theorem refl (env : Environment) (frames : List Frame) (c : Checker) : Runs env frames c c where
  steps := .refl
  unfilled := fun _ _ empty => empty
  pending := fun _ _ _ empty => empty
  params := fun _ _ own _ => own
  quiet := ⟨[], rfl, by simp⟩

theorem trans (one : Runs env frames first second) (two : Runs env frames second third) :
    Runs env frames first third where
  steps := one.steps.trans two.steps
  unfilled := fun frame mem empty => two.unfilled frame mem (one.unfilled frame mem empty)
  pending := fun param id own empty =>
    two.pending param id (one.grows.params param id own) (one.pending param id own empty)
  params := fun param id own empty =>
    one.params param id (two.params param id own empty) (two.grows.empty_before empty)
  quiet := by
    obtain ⟨early, begun, calm⟩ := one.quiet
    obtain ⟨late, ended, still⟩ := two.quiet
    refine ⟨late ++ early, by rw [ended, begun, List.append_assoc], ?_⟩
    intro frame mem event found
    rcases List.mem_append.mp found with found | found
    · exact still frame mem event found
    · exact calm frame mem event found

/-- A step that hands out or fills no place. -/
theorem of_step (step : Step env before after) (params : after.paramTypes = before.paramTypes)
    (types : after.types = before.types) (added : List Event)
    (history : after.history = added ++ before.history)
    (calm : ∀ frame ∈ frames, ∀ event ∈ added, event.Spares frame) :
    Runs env frames before after where
  steps := .single step
  unfilled := fun frame _ empty => by rw [Checker.Empty, types]; exact empty
  pending := fun param id _ empty => by rw [Checker.Empty, types]; exact empty
  params := fun param id own _ => params ▸ own
  quiet := ⟨added, history, calm⟩

/-- A step after which every place is as it was, and there may be one more. -/
theorem of_gain (step : Step env before after) (params : after.paramTypes = before.paramTypes)
    (same : ∀ id, before.Holds id → after.types.get? id = before.types.get? id)
    (added : List Event) (history : after.history = added ++ before.history)
    (calm : ∀ frame ∈ frames, ∀ event ∈ added, event.Spares frame)
    (consistent : Consistent env before) (included : ∀ frame ∈ frames, frame ∈ before.stack) :
    Runs env frames before after where
  steps := .single step
  unfilled := fun frame mem empty => by
    rw [Checker.Empty, same _ (consistent.holds_frame (included frame mem))]
    exact empty
  pending := fun param id own empty => by
    rw [Checker.Empty, same _ (consistent.holds_param own)]
    exact empty
  params := fun param id own _ => params ▸ own
  quiet := ⟨added, history, calm⟩

end Runs

/-- A run that ends on the stack on which it began. -/
structure Moves (env : Environment) (frames : List Frame) (before after : Checker) : Prop
    extends Runs env frames before after where
  stack : after.stack = before.stack
  depth : after.depth = before.depth
  abandoning : ∀ below, before.abandoning = some below → after.abandoning = some below

namespace Moves

theorem refl (env : Environment) (frames : List Frame) (c : Checker) : Moves env frames c c :=
  { Runs.refl env frames c with
    stack := rfl
    depth := rfl
    abandoning := fun _ given => given }

theorem grows (moves : Moves env frames before after) : Grows before after := moves.steps.grows

theorem trans (one : Moves env frames first second) (two : Moves env frames second third) :
    Moves env frames first third :=
  { one.toRuns.trans two.toRuns with
    stack := two.stack.trans one.stack
    depth := two.depth.trans one.depth
    abandoning := fun below given => two.abandoning below (one.abandoning below given) }

/-- A run that leaves the control of the checker alone. -/
theorem of_runs (runs : Runs env frames before after) (stack : after.stack = before.stack)
    (depth : after.depth = before.depth) (abandoning : after.abandoning = before.abandoning) :
    Moves env frames before after :=
  { runs with
    stack := stack
    depth := depth
    abandoning := fun _ given => abandoning.trans given }

theorem report (c : Checker) (finding : Diagnostic)
    (warranted : c.abandoning = none → c.Warrants env finding)
    (explained : c.abandoning = none → c.Justifies env finding) :
    Moves env frames c (c.report finding) :=
  of_runs (.of_step (.report finding warranted explained) rfl rfl [] rfl (by simp)) rfl rfl rfl

theorem note (notes : c.Notes env event) : Moves env frames c (c.log event) := by
  refine of_runs (.of_step (.note notes) rfl rfl [event] rfl ?_) rfl rfl rfl
  intro frame _ other mem
  rw [List.mem_singleton.mp mem]
  cases notes <;> exact True.intro

end Moves

/-- A state from which a piece of work can start. Beside the frames on the stack only the defaults
of template parameters are levels. -/
structure Ready (env : Environment) (c : Checker) : Prop where
  consistent : Consistent env c
  unfilled : c.Open
  level : env.Undefaulted → c.depth = c.stack.length

/-- Nothing is given up and no error was reported. -/
def Checker.Clean (c : Checker) : Prop := c.abandoning = none ∧ c.Faultless

/-- A place in the store that the text of the youngest declaration may give. -/
structure Checker.Has (env : Environment) (c : Checker) (id : TypeId) : Prop where
  held : c.Holds id
  made : c.Made env id

/-- What stands for the template parameters may be given. -/
def Context.Held (context : Context) (env : Environment) (c : Checker) : Prop :=
  ∀ param id, context.subst.get? param = some id → c.Has env id

/-- A property whose parts are in the store and whose type may be given. -/
structure Property.Kept (env : Environment) (c : Checker) (property : Property) : Prop where
  sound : property.Sound env c
  made : c.Made env property.type

section
variable {id : TypeId}
variable {c : Checker}

theorem Ready.moves (ready : Ready env before) (moves : Moves env before.stack before after) :
    Ready env after where
  consistent := ready.consistent.steps moves.steps
  unfilled := by
    intro frame mem
    rw [moves.stack] at mem
    exact moves.unfilled frame mem (ready.unfilled frame mem)
  level := fun plain => by rw [moves.depth, moves.stack, ready.level plain]

theorem Moves.idle (moves : Moves env frames before after) (idle : after.abandoning = none) :
    before.abandoning = none := by
  rcases Option.eq_none_or_eq_some before.abandoning with none | ⟨below, given⟩
  · exact none
  · cases (moves.abandoning below given).symm.trans idle

theorem Moves.worker (moves : Moves env frames before after) : after.worker = before.worker := by
  rw [Checker.worker, moves.stack, Checker.worker]

theorem Moves.clean (moves : Moves env frames before after) (clean : after.Clean) :
    before.Clean :=
  ⟨moves.idle clean.1, moves.grows.faultless clean.2⟩

/-- Types that are there stay there, and warnings too. -/
theorem Checker.Meets.moves (meets : before.Meets env references)
    (moves : Moves env frames before after) : after.Meets env references := by
  intro idle reference mem
  obtain ⟨heeds, met⟩ := meets (moves.idle idle) reference mem
  rw [moves.worker]
  refine ⟨heeds.grows moves.grows, fun needed => ?_⟩
  rcases met needed with ⟨id, placed, there⟩ | ⟨finding, told, code⟩
  · exact .inl ⟨id, moves.grows.placed placed, mt moves.grows.empty_before there⟩
  · exact .inr ⟨finding, moves.grows.findings.subset told, code⟩

theorem Checker.Meets.nil : c.Meets env [] := by
  intro _ reference mem
  cases mem

theorem Checker.Meets.append (early : c.Meets env first) (late : c.Meets env second) :
    c.Meets env (first ++ second) := by
  intro idle reference mem
  rcases List.mem_append.mp mem with mem | mem
  · exact early idle reference mem
  · exact late idle reference mem

/-- The work on the youngest declaration goes on, so what was made in it counts. -/
theorem Runs.made (runs : Runs env before.stack before after) (stack : after.stack = before.stack)
    (made : before.Made env id) : after.Made env id := by
  obtain ⟨added, history, calm⟩ := runs.quiet
  refine made.later runs.grows stack history ?_
  intro key own place found
  obtain ⟨frame, top, rfl⟩ := Option.map_eq_some_iff.mp own
  exact calm frame (List.mem_of_mem_head? top) _ found rfl

theorem Runs.has (runs : Runs env before.stack before after) (stack : after.stack = before.stack)
    (has : before.Has env id) : after.Has env id :=
  ⟨runs.grows.holds has.held, runs.made stack has.made⟩

theorem Moves.made (moves : Moves env before.stack before after) (made : before.Made env id) :
    after.Made env id :=
  moves.toRuns.made moves.stack made

theorem Moves.has (moves : Moves env before.stack before after) (has : before.Has env id) :
    after.Has env id :=
  moves.toRuns.has moves.stack has

theorem Context.Held.moves {context : Context} (held : context.Held env before)
    (moves : Moves env before.stack before after) : context.Held env after :=
  fun param id value => moves.has (held param id value)

theorem Property.Kept.moves {property : Property} (kept : property.Kept env before)
    (moves : Moves env before.stack before after) : property.Kept env after :=
  ⟨kept.sound.grows moves.grows, moves.made kept.made⟩

/-- What an expression may give stays so. -/
theorem Checker.Ripe.moves (moves : Moves env before.stack before after)
    (ripe : before.Ripe env id) : after.Ripe env id := by
  cases ripe with
  | made already => exact .made (moves.made already)
  | applied placed args =>
    exact .applied (moves.grows.placed placed) fun arg mem => moves.made (args arg mem)
  | model stored parts =>
    exact .model (moves.grows.filled _ _ stored) fun property mem => moves.made (parts property mem)

/-- Once it is written down what an expression gave, that is made. -/
theorem Checker.Ripe.log (ripe : c.Ripe env id) (expressed : c.Expressed expr id) :
    (c.log (.evaluated c.worker expr id)).Made env id := by
  have moves : Moves env c.stack c (c.log (.evaluated c.worker expr id)) :=
    .note (.evaluated expressed)
  have yields : (c.log (.evaluated c.worker expr id)).Yields c.worker id :=
    ⟨expr, [], c.history, rfl, by simp⟩
  cases ripe.moves moves with
  | made already => exact already
  | applied placed args => exact .applied placed yields args
  | model stored parts => exact .model stored yields parts

/-! What was found of decorators and members in the work at hand stays found. -/

variable (run : Moves env before.stack before after)
include run

theorem Moves.retains :
    Checker.Retains before.worker before after where
  grows := run.grows
  keeps := by
    obtain ⟨added, history, calm⟩ := run.quiet
    intro event keeps
    refine keeps.later history fun key own place found => ?_
    obtain ⟨frame, top, rfl⟩ := Option.map_eq_some_iff.mp own
    exact calm frame (List.mem_of_mem_head? top) _ found rfl

theorem Checker.Evaluated.moves (evaluated : before.Evaluated before.worker expr id) :
    after.Evaluated after.worker expr id := by
  rw [run.worker]
  exact evaluated.later run.retains

theorem Checker.Brings.moves (brings : before.Brings env before.worker context mem brought) :
    after.Brings env after.worker context mem brought := by
  rw [run.worker]
  exact brings.later run.retains

theorem Checker.Admits.moves
    (admits : before.Admits before.worker before.abandoning.isNone properties brought result) :
    after.Admits after.worker after.abandoning.isNone properties brought result := by
  rw [run.worker]
  refine admits.later run.retains fun unwinding => ?_
  obtain ⟨below, given⟩ := Option.isSome_iff_exists.mp (Option.isNone_eq_false_iff.mp unwinding)
  simp [run.abandoning below given]

end

/-- Work from a state moves to another one and gives a result as described. -/
def Works {α : Type} (env : Environment) (frames : List Frame) (work : CheckM α) (c : Checker)
    (result : α → Checker → Prop) : Prop :=
  Ensures work c fun a after => Moves env frames c after ∧ result a after

namespace Works
variable {α : Type}

theorem weaken (works : Works env frames work c one)
    (follows : ∀ a after, Moves env frames c after → one a after → two a after) :
    Works env frames work c two :=
  Ensures.weaken works fun a after result => ⟨result.1, follows a after result.1 result.2⟩

/-- What else is known of the results. -/
theorem both (works : Works env frames work c one) (ensured : Ensures work c two) :
    Works env frames work c fun a after => one a after ∧ two a after :=
  (Ensures.both works ensured).weaken fun _ _ ended => ⟨ended.1.1, ended.1.2, ended.2⟩

theorem pure (held : result a c) : Works env frames (pure a) c result :=
  Ensures.pure_iff.mpr ⟨.refl env frames c, held⟩

/-- Two pieces of work in a row. -/
theorem bind (begun : Works env frames first c between)
    (rest : ∀ a middle, Moves env frames c middle → between a middle →
      Works env frames (next a) middle result) : Works env frames (first >>= next) c result :=
  Ensures.bind begun fun a middle ended => Ensures.weaken (rest a middle ended.1 ended.2)
    fun _ _ last => ⟨ended.1.trans last.1, last.2⟩

/-- Work that starts by looking at the state. -/
theorem get_bind (rest : Works env frames (next c) c result) :
    Works env frames (get >>= next) c result := by
  rw [Works, Ensures.bind_iff, Ensures.get_iff]
  exact rest

/-- Work that starts with a change of the state. -/
theorem modify_bind (moves : Moves env frames c (change c))
    (rest : Works env frames (next ⟨⟩) (change c) result) :
    Works env frames ((modify change : CheckM PUnit) >>= next) c result := by
  rw [Works, Ensures.bind_iff, Ensures.modify_iff]
  exact Ensures.weaken rest fun _ _ ended => ⟨moves.trans ended.1, ended.2⟩

theorem modify (moves : Moves env frames c (change c)) (held : result ⟨⟩ (change c)) :
    Works env frames (modify change : CheckM PUnit) c result :=
  Ensures.modify_iff.mpr ⟨moves, held⟩

theorem modifyGet (moves : Moves env frames c (change c).2)
    (held : result (change c).1 (change c).2) :
    Works env frames (modifyGet change : CheckM α) c result :=
  Ensures.modifyGet_iff.mpr ⟨moves, held⟩

end Works

/-! Findings. -/

namespace Checker
variable {c : Checker}

theorem mem_report (idle : c.abandoning = none) : finding ∈ (c.report finding).diagnostics := by
  simp only [report, idle, Option.isSome_none, Bool.false_eq_true, false_or]
  split
  · assumption
  · simp

/-- A fault that is reported is there. -/
theorem not_faultless_report (idle : c.abandoning = none) (wrong : finding.isError = true) :
    ¬ (c.report finding).Faultless := by
  intro faultless
  have right := faultless finding (mem_report idle)
  cases wrong.symm.trans right

/-- After an error either something is given up or the error was reported. -/
theorem not_clean_report (wrong : finding.isError = true) : ¬ (c.report finding).Clean :=
  fun clean => not_faultless_report (c := c) clean.1 wrong clean.2

end Checker

namespace CheckM

theorem report_works (finding : Diagnostic)
    (warranted : c.abandoning = none → c.Warrants env finding)
    (explained : c.abandoning = none → c.Justifies env finding) :
    Works env frames (report finding) c fun _ after => after = c.report finding :=
  .modify (.report c finding warranted explained) rfl

/-- An error that is reported before something is returned. -/
theorem reportError_works (finding : Diagnostic) (wrong : finding.isError = true)
    (warranted : c.abandoning = none → c.Warrants env finding)
    (explained : c.abandoning = none → c.Justifies env finding)
    (rest : ∀ after, ¬ after.Clean → Moves env frames c after → Works env frames next after result) :
    Works env frames (do report finding; next) c result := by
  refine Works.bind (report_works finding warranted explained) ?_
  rintro _ _ moves rfl
  exact rest _ (Checker.not_clean_report wrong) moves

/-- The same for an error that is not about a type needed in full, nor about a cycle. -/
theorem errorAt_works (code : Code)
    (rest : ∀ after, ¬ after.Clean → Moves env frames c after → Works env frames next after result)
    (unrelated : code.severity = .error ∧ code.Unrelated ∧ code ≠ .cyclicReference := by decide) :
    Works env frames (do errorAt code message location; next) c result :=
  reportError_works _ (by simp [Diagnostic.report, Diagnostic.isError, unrelated.1])
    (fun _ => .of_code unrelated.2.1) (fun _ => .other unrelated.2.2) rest

end CheckM

end Idl
