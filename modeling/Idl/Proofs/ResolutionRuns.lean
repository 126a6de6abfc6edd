import Idl.Proofs.BoundSymbols
import Idl.Proofs.CheckerMoves

/-! Resolving a key gives its place. The work on a key is a frame on the stack
while the body of the declaration is checked, and the frame ends in one of
three ways: with the type stored, with the key found to be a cycle, or given up
with its place still empty. Whatever happens, the answer is the place of the key
unless a cycle was reported or some frame is being given up. -/
namespace Idl
variable {id : TypeId}

/-- The work on a declaration is over: its type is stored, or it is given up. -/
structure Ends (env : Environment) (frame : Frame) (rest : List Frame) (before after : Checker) :
    Prop where
  moves : Moves env rest before after
  stored : after.abandoning = none ↔ ¬ after.Empty frame.id
  decorated : after.abandoning = none → after.Decorated frame.id
  marked : after.abandoning = none → after.Marked env frame.id

/-- What is known of the work one level down. -/
structure Descent.Sound (env : Environment) (descent : Descent) : Prop where
  default : ∀ c expr context, Ready env c → context.Held env c →
    env.Licenses c.stack (expr.mentions env.symbols context.scope none) →
    Works env c.stack (descent.default expr context) c fun id after =>
      after.Has env id ∧ (after.Clean → Denotes True env after context expr id)
  body : ∀ c frame rest, Ready env c → c.stack = frame :: rest → c.abandoning = none →
    Ensures (descent.body frame.key frame.id (c.isDependent frame.id)) c fun _ after =>
      Ends env frame rest c after

/-- The place of a key is the answer, or an error that was reported for it. Only what is demanded
in full while a frame is given up may be an error without a report. A type that is demanded in full
is there. The key is resolved, or there is an excuse. -/
structure Checker.Answers (env : Environment) (c : Checker) (key : ResolutionKey) (demand : Demand)
    (location : Option Location) (id : TypeId) : Prop where
  given : id = TypeStore.error ∨ c.Placed key id
  sure : demand = .reference ∨ c.abandoning = none → c.Placed key id ∨
    id = TypeStore.error ∧ c.Blames env key.symbol location ∧ ¬ c.Faultless
  there : demand = .complete → ¬ c.Empty id
  found : c.abandoning = none →
    .changed key (.resolved id) ∈ c.history ∨ c.Excuses c.worker key location

namespace Checker
variable {c : Checker} {id : TypeId}

theorem Answers.of_placed (placed : c.Placed key id) (there : demand = .complete → ¬ c.Empty id)
    (found : .changed key (.resolved id) ∈ c.history ∨ c.Excuses c.worker key location) :
    c.Answers env key demand location id :=
  ⟨.inr placed, fun _ => .inl placed, there, fun _ => found⟩

theorem Answers.of_blames (consistent : Consistent env c)
    (blames : demand = .reference ∨ c.abandoning = none →
      c.Blames env key.symbol location ∧ ¬ c.Faultless)
    (excuses : c.abandoning = none → c.Excuses c.worker key location) :
    c.Answers env key demand location TypeStore.error :=
  ⟨.inl rfl, fun sure => .inr ⟨rfl, blames sure⟩, fun _ => consistent.there_error,
    fun idle => .inr (excuses idle)⟩

theorem Answers.moves (moves : Moves env frames before after)
    (answers : before.Answers env key demand location id) :
    after.Answers env key demand location id := by
  have grown := moves.grows
  refine ⟨answers.given.imp_right grown.placed, fun sure => ?_,
    fun complete => mt grown.empty_before (answers.there complete), fun idle => ?_⟩
  · have earlier : demand = .reference ∨ before.abandoning = none := sure.imp_right moves.idle
    exact (answers.sure earlier).imp grown.placed fun ⟨error, blames, faulty⟩ =>
      ⟨error, blames.grows grown, mt grown.faultless faulty⟩
  · rw [moves.worker]
    exact (answers.found (moves.idle idle)).imp (fun mem => grown.history.subset mem)
      fun excuses => excuses.grows grown

/-- What was demanded in full is there. -/
theorem Answers.met (answers : c.Answers env ⟨target, []⟩ .complete location id)
    (idle : c.abandoning = none) : c.Met target := by
  rcases answers.sure (.inr idle) with placed | ⟨_, blames, _⟩
  · exact .inl ⟨id, placed, answers.there rfl⟩
  · rcases blames with ⟨finding, told, code, _⟩ | ⟨finding, told, code, _⟩
    · exact .inr ⟨finding, told, code⟩
    · exact .inr ⟨finding, told, code⟩

theorem Answers.placed (answers : c.Answers env key demand location id)
    (sure : demand = .reference ∨ c.abandoning = none) (faultless : c.Faultless) :
    c.Placed key id :=
  (answers.sure sure).resolve_right fun wrong => wrong.2.2 faultless

end Checker

theorem Consistent.holds_answer (consistent : Consistent env c)
    (answers : c.Answers env key demand location id) : c.Holds id := by
  rcases answers.given with rfl | placed
  · exact consistent.holds_error
  · exact consistent.holds_placed placed

/-- The answer for a declaration without parameters. -/
theorem Checker.Answers.made {c : Checker} (answers : c.Answers env ⟨symbol, []⟩ demand location id)
    : c.Made env id := by
  rcases answers.given with rfl | placed
  · exact .error
  · exact .plain placed

/-- What is given up is a frame that a reference started, and lies on the stack. -/
theorem Consistent.unwinding_inside (consistent : Consistent env c)
    (stacked : c.stack = frame :: rest) (given : c.abandoning = some below) :
    below ≤ rest.length ∧ (below = rest.length → frame.demand = .reference) := by
  obtain ⟨above, started, under, same, length, reference⟩ := consistent.unwinding below given
  rw [stacked] at same
  have lengths := congrArg List.length same
  simp only [List.length_cons, List.length_append] at lengths
  refine ⟨by omega, fun whole => ?_⟩
  cases above with
  | nil =>
    cases same
    exact reference
  | cons top above =>
    simp only [List.length_cons] at lengths
    omega

/-- A key that is new or put off is none of those under work. -/
theorem Consistent.not_under_work (consistent : Consistent env c)
    (off : c.resolutions.get? key = none ∨
      ∃ id, c.resolutions.get? key = some (.deferred id)) : ∀ frame ∈ c.stack, key ≠ frame.key := by
  rintro frame mem rfl
  have state := (consistent.keys.frames frame mem).2
  rcases off with none | ⟨id, waiting⟩
  · simp [none] at state
  · simp [waiting] at state

/-- From a frame to the youngest one, each asked for the next. -/
theorem Linked.reaches (linked : Linked history (above ++ frame :: rest))
    (each : ∀ upper ∈ above, ∀ worker, .asked (some worker) upper.key upper.demand ∈ history →
      r worker upper.key) (top : (above ++ frame :: rest).head?.map Frame.key = some key) :
    Relation.ReflTransGen r frame.key key := by
  induction above generalizing key with
  | nil =>
    cases top
    exact .refl
  | cons upper above ih =>
    cases top
    have asked := each upper (List.mem_cons_self ..)
    have others := fun other mem => each other (List.mem_cons_of_mem _ mem)
    cases above with
    | nil => exact .single (asked _ linked.1)
    | cons lower above => exact (ih linked.2 others rfl).tail (asked _ linked.1)

/-- What is under work leads to what is worked on at the moment. -/
theorem Consistent.reaches_worker (consistent : Consistent env c)
    (stacked : c.stack = above ++ frame :: rest)
    (each : ∀ upper ∈ above, ∀ worker, .asked (some worker) upper.key upper.demand ∈ c.history →
      r worker upper.key) :
    ∃ worker, c.worker = some worker ∧ Relation.ReflTransGen r frame.key worker := by
  have linked := consistent.linked
  rw [stacked] at linked
  rw [Checker.worker, stacked]
  cases above with
  | nil => exact ⟨frame.key, rfl, .refl⟩
  | cons upper above => exact ⟨upper.key, rfl, linked.reaches each rfl⟩

theorem Consistent.leads_to_worker (consistent : Consistent env c)
    (stacked : c.stack = above ++ frame :: rest) :
    ∃ worker, c.worker = some worker ∧ Relation.ReflTransGen c.Pulls frame.key worker :=
  consistent.reaches_worker stacked fun upper _ _ asked => ⟨upper.demand, asked⟩

theorem Linked.chain {c : Checker} (linked : Linked c.history stack) :
    (stack.map Frame.key).IsChain fun younger older => c.Pulls older younger := by
  induction stack with
  | nil => exact .nil
  | cons upper below ih =>
    cases below with
    | nil => exact .singleton _
    | cons lower rest =>
      rw [List.map_cons, List.map_cons, List.isChain_cons_cons]
      exact ⟨⟨upper.demand, linked.1⟩, ih linked.2⟩

/-- A key that is asked for on the last level makes one more than there may be. -/
theorem Ready.nested (ready : Ready env c) (proper : Proper env c key)
    (off : c.resolutions.get? key = none ∨
      ∃ id, c.resolutions.get? key = some (.deferred id))
    (asked : .asked c.worker key demand ∈ c.history) (deep : levels ≤ c.depth)
    (plain : env.Undefaulted) : c.Nested env levels := by
  have outside := ready.consistent.not_under_work off
  have linked : Linked c.history (⟨key, TypeStore.error, demand⟩ :: c.stack) :=
    ready.consistent.linked.push asked
  refine ⟨key :: c.stack.map Frame.key, ?_, ?_, linked.chain, ?_⟩
  · rw [List.length_cons, List.length_map, ← ready.level plain]
    omega
  · apply List.nodup_cons.mpr
    constructor
    · intro mem
      obtain ⟨frame, under, same⟩ := List.mem_map.mp mem
      exact outside frame under same.symm
    · exact ready.consistent.keys.distinct
  · intro other mem
    rcases List.mem_cons.mp mem with rfl | mem
    · exact proper.counted
    · obtain ⟨frame, under, rfl⟩ := List.mem_map.mp mem
      exact (ready.consistent.holdings.proper _ _ (ready.consistent.keys.frames frame under).1).counted

namespace CheckM

/-- Going down one level succeeds, or is reported. -/
theorem enter_ensures :
    Ensures (enter location) c fun entered after =>
      (entered = true ∧ after = { c with depth := c.depth + 1 }) ∨
      (entered = false ∧ maxDepth ≤ c.depth ∧ ∃ finding : Diagnostic,
        finding.code = .cyclicReference ∧ finding.message = tooDeep ∧ finding.isError = true ∧
        finding.location = location ∧ after = c.report finding) := by
  unfold enter
  rw [Ensures.bind_iff, Ensures.get_iff]
  refine Ensures.ite (fun deep => ?_) fun shallow => ?_
  · rw [Ensures.bind_iff, report, Ensures.modify_iff, Ensures.pure_iff]
    exact .inr ⟨rfl, deep, _, rfl, rfl, rfl, rfl, rfl⟩
  · rw [Ensures.bind_iff, Ensures.modify_iff, Ensures.pure_iff]
    exact .inl ⟨rfl, rfl⟩

/-- What is handed out for a key whose work does not come to its end. -/
private theorem answers_handedOut (consistent : Consistent env c) (placed : c.Placed key id)
    (putOff : .changed key (.deferred id) ∈ c.history)
    (reference : c.abandoning = none → demand = .reference) :
    c.Answers env key demand location (Checker.handedOut id demand) := by
  cases demand with
  | reference => exact .of_placed placed nofun (.inr (.putOff putOff))
  | complete =>
    refine .of_blames consistent (fun sure => ?_) fun _ => .putOff putOff
    rcases sure with other | idle
    · cases other
    · cases reference idle

/-- The frame on top ends. -/
private theorem pop_runs (consistent : Consistent env c) (frame : Frame)
    (stacked : c.stack = frame :: rest) (ended : c.abandoning = none ↔ ¬ c.Empty frame.id)
    (decorated : c.abandoning = none → c.Decorated frame.id)
    (marked : c.abandoning = none → c.Marked env frame.id) :
    let popped := c.pop frame.key frame.id frame.demand
    Runs env rest c popped.2 ∧ popped.2.stack = rest ∧ popped.2.depth = c.depth ∧
      popped.2.Answers env frame.key frame.demand location popped.1 := by
  have mem : frame ∈ c.stack := by simp [stacked]
  have placed := (consistent.keys.frames frame mem).1
  simp only [Checker.pop, stacked, List.length_cons, Nat.add_sub_cancel, List.tail_cons]
  rcases Option.eq_none_or_eq_some c.abandoning with given | ⟨below, given⟩
  · have filled := ended.mp given
    obtain ⟨type, stored⟩ := Option.ne_none_iff_exists'.mp filled
    rw [if_neg (by simp [given])]
    rcases (consistent.keys.frames frame mem).2 with resolving | errored
    · simp only [resolving]
      have step : Step env c _ :=
        .complete given stacked resolving stored (decorated given) (marked given)
      exact ⟨.of_step step rfl rfl [_] rfl (by simp), rfl, rfl,
        .of_placed (List.mem_cons_of_mem _ placed) (fun _ => filled) (.inl (List.mem_cons_self ..))⟩
    · simp only [errored]
      have step : Step env c _ := .completeErrored given stacked errored stored (decorated given)
      obtain ⟨cyclic, faulty⟩ := consistent.reported _ errored
      exact ⟨.of_step step rfl rfl [] rfl (by simp), trivial, trivial,
        .of_blames (consistent.step step) (fun _ => ⟨.inl cyclic, faulty⟩)
          fun _ => .errored (consistent.recorded.traced _ _ errored)⟩
  · obtain ⟨inside, reference⟩ := consistent.unwinding_inside stacked given
    -- A frame that is given up has stored nothing, so its place can be filled when it is redone.
    have empty : c.Empty frame.id := by
      by_contra filled
      cases (ended.mpr filled).symm.trans given
    rw [if_pos (by simp [given, inside])]
    have step : Step env c _ := .giveUp given stacked inside empty
    have others : ∀ other ∈ rest, frame.key ≠ other.key := by
      have keys := consistent.keys
      rw [stacked] at keys
      exact fun other mem => (keys.outside other mem).symm
    refine ⟨.of_step step rfl rfl [_] rfl (by simpa using others), rfl, rfl,
      answers_handedOut (consistent.step step) ?_ (List.mem_cons_self ..) ?_⟩
    · exact List.mem_cons_of_mem _ placed
    · intro idle
      simp only [Checker.defer, Checker.setState, Checker.log, given] at idle
      split at idle
      · rename_i whole
        exact reference (Option.some.inj whole)
      · cases idle

/-- The body of a declaration is checked for its place. The frame has been put on the stack by a
step from the state in which the work was asked for. -/
theorem resolveInto_ensures (sound : descent.Sound env) (ready : Ready env (c.push key id demand))
    (idle : c.abandoning = none) (location : Option Location) :
    Ensures (resolveInto descent key id demand) c fun answer after =>
      Runs env c.stack (c.push key id demand) after ∧ after.stack = c.stack ∧
        after.depth = c.depth - 1 ∧ after.Answers env key demand location answer := by
  unfold resolveInto isDependent
  rw [Ensures.bind_iff, Ensures.modify_iff, Ensures.bind_iff, Ensures.bind_iff, Ensures.get_iff,
    Ensures.pure_iff]
  refine Ensures.bind (sound.body _ ⟨key, id, demand⟩ c.stack ready rfl idle) ?_
  rintro _ after ⟨moves, ended, decorated, marked⟩
  have consistent := ready.consistent.steps moves.steps
  unfold leaveFrame leave
  rw [Ensures.bind_iff, Ensures.modify_iff, Ensures.modifyGet_iff]
  have up : Runs env c.stack after { after with depth := after.depth - 1 } :=
    .of_step .ascend rfl rfl [] rfl (by simp)
  obtain ⟨runs, stack, depth, answers⟩ := pop_runs (consistent.step .ascend)
    ⟨key, id, demand⟩ moves.stack ended decorated marked
  refine ⟨(moves.toRuns.trans up).trans runs, stack, depth.trans ?_, answers⟩
  exact congrArg (· - 1) moves.depth

/-- Resolution one level down, after the frame was put on the stack by a step. -/
private theorem descend_works (sound : descent.Sound env) (ready : Ready env c)
    (idle : c.abandoning = none) (stack : next.stack = c.stack) (depth : next.depth = c.depth + 1)
    (calm : next.abandoning = none)
    (begun : Runs env c.stack { c with depth := c.depth + 1 } (next.push key id demand))
    (empty : (next.push key id demand).Empty id) (location : Option Location) :
    Ensures (resolveInto descent key id demand) next fun answer after =>
      Moves env c.stack c after ∧ after.Answers env key demand location answer ∧
        after.resolutions.get? key ≠ none := by
  have down : Runs env c.stack c { c with depth := c.depth + 1 } :=
    .of_step .descend rfl rfl [] rfl (by simp)
  have runs := down.trans begun
  have ready : Ready env (next.push key id demand) := by
    refine ⟨ready.consistent.steps runs.steps, fun frame mem => ?_, fun plain => ?_⟩
    · rcases List.mem_cons.mp mem with rfl | mem
      · exact empty
      · rw [stack] at mem
        exact runs.unfilled frame mem (ready.unfilled frame mem)
    · show next.depth = next.stack.length + 1
      rw [depth, stack, ready.level plain]
  refine (resolveInto_ensures sound ready calm location).weaken ?_
  rintro answer after ⟨rest, sameStack, sameDepth, answers⟩
  rw [stack] at rest sameStack
  refine ⟨{ runs.trans rest with stack := sameStack, depth := ?_, abandoning := ?_ }, answers, ?_⟩
  · rw [sameDepth, depth, Nat.add_sub_cancel]
  · rw [idle]
    simp
  · exact rest.grows.known key (by simp [Checker.push, Checker.setState, Checker.log])

/-- A level that is too deep is reported where the declaration was asked for. -/
private theorem tooDeep_answers (ready : Ready env c) (idle : c.abandoning = none)
    (code : finding.code = .cyclicReference) (message : finding.message = tooDeep)
    (wrong : finding.isError = true) (place : finding.location = location)
    (nested : env.Undefaulted → c.Nested env maxDepth) :
    Moves env c.stack c (c.report finding) ∧
      (c.report finding).Answers env key demand location TypeStore.error := by
  have moves : Moves env c.stack c (c.report finding) :=
    .report c finding (fun _ => .of_code (by rw [code]; decide)) fun _ => .deep message nested
  have told : finding ∈ (c.report finding).diagnostics := Checker.mem_report idle
  refine ⟨moves, .of_blames (ready.moves moves).consistent (fun _ => ⟨.inr ?_, ?_⟩)
    fun _ => .deep told code message place⟩
  · exact ⟨finding, told, code, place⟩
  · exact Checker.not_faultless_report idle wrong

/-- A key that is seen for the first time. -/
private theorem start_new_works (sound : descent.Sound env) (ready : Ready env c)
    (new : c.resolutions.get? key = none) (proper : Proper env c key)
    (asked : .asked c.worker key demand ∈ c.history) :
    Works env c.stack (start env descent key none demand location) c fun id after =>
      after.Answers env key demand location id ∧
        (c.depth < maxDepth → after.resolutions.get? key ≠ none) := by
  unfold start reserveFor Works
  rw [Ensures.bind_iff, Ensures.get_iff]
  refine Ensures.ite (fun unwinding => ?_) fun idle => ?_
  · rw [Ensures.bind_iff, Ensures.modifyGet_iff, Ensures.bind_iff, Ensures.modify_iff,
      Ensures.pure_iff]
    have unwinding := Option.isSome_iff_ne_none.mp unwinding
    have step : Step env c _ := .postpone unwinding new proper ⟨demand, asked⟩
    have others := ready.consistent.not_under_work (.inl new)
    refine ⟨.of_runs (.of_gain step rfl (fun id _ => TypeStore.get?_reserve _ id) [_, _] rfl
      (by simpa using others) ready.consistent fun _ mem => mem) rfl rfl rfl,
      answers_handedOut (ready.consistent.step step) ?_ (List.mem_cons_self ..) ?_, ?_⟩
    · exact List.mem_cons_of_mem _ (List.mem_cons_self ..)
    · exact fun idle => absurd idle unwinding
    · exact fun _ => by simp [Checker.defer, Checker.setState, Checker.log]
  · have idle : c.abandoning = none := by simpa using idle
    refine Ensures.bind enter_ensures ?_
    rintro entered next (⟨rfl, rfl⟩ | ⟨rfl, deep, finding, code, message, wrong, place, rfl⟩)
    · simp only [↓reduceIte]
      rw [Ensures.bind_iff, Ensures.modifyGet_iff]
      have step : Step env { c with depth := c.depth + 1 } _ :=
        .begin demand idle ready.unfilled new { proper with } asked
      refine (descend_works sound ready idle ?_ ?_ ?_ ?_ ?_ location).weaken
        fun _ _ ended => ⟨ended.1, ended.2.1, fun _ => ended.2.2⟩
      · rfl
      · rfl
      · exact idle
      · exact .of_gain step rfl (fun id _ => TypeStore.get?_reserve _ id) [_, _] rfl (by simp)
          (ready.consistent.step .descend) fun _ mem => mem
      · exact TypeStore.vacant_reserve c.types
    · obtain ⟨moves, answers⟩ := tooDeep_answers ready idle code message wrong place
        (ready.nested proper (.inl new) asked deep)
      exact Ensures.pure_iff.mpr ⟨moves, answers,
        fun shallow => absurd deep (Nat.not_le.mpr shallow)⟩

/-- A key that was put off. -/
private theorem start_again_works (sound : descent.Sound env) (ready : Ready env c)
    (waiting : c.resolutions.get? key = some (.deferred id))
    (asked : .asked c.worker key demand ∈ c.history) :
    Works env c.stack (start env descent key (some id) demand location) c fun id after =>
      after.Answers env key demand location id := by
  have placed : c.Placed key id := (ready.consistent.keys.waiting key id waiting).1
  unfold start Works
  rw [Ensures.bind_iff, Ensures.get_iff]
  refine Ensures.ite (fun unwinding => ?_) fun idle => ?_
  · rw [Ensures.bind_iff, Ensures.pure_iff, Ensures.bind_iff, Ensures.modify_iff, Ensures.pure_iff]
    have unwinding := Option.isSome_iff_ne_none.mp unwinding
    have step : Step env c _ := .postponeAgain unwinding waiting ⟨demand, asked⟩
    have others := ready.consistent.not_under_work (.inr ⟨id, waiting⟩)
    refine ⟨.of_runs (.of_step step rfl rfl [_] rfl (by simpa using others)) rfl rfl rfl,
      answers_handedOut (ready.consistent.step step) ?_ (List.mem_cons_self ..) ?_⟩
    · exact List.mem_cons_of_mem _ placed
    · exact fun idle => absurd idle unwinding
  · have idle : c.abandoning = none := by simpa using idle
    refine Ensures.bind enter_ensures ?_
    rintro entered next (⟨rfl, rfl⟩ | ⟨rfl, deep, finding, code, message, wrong, place, rfl⟩)
    · simp only [↓reduceIte]
      rw [Ensures.bind_iff, Ensures.pure_iff]
      have step : Step env { c with depth := c.depth + 1 } _ :=
        .again demand idle ready.unfilled waiting asked
      refine (descend_works sound ready idle ?_ ?_ ?_ ?_ ?_ location).weaken
        fun _ _ ended => ⟨ended.1, ended.2.1⟩
      · rfl
      · rfl
      · exact idle
      · exact .of_step step rfl rfl [_] rfl (by simp)
      · exact ready.consistent.slots.waiting key id waiting
    · simp only [Option.isSome_some, ↓reduceIte, Bool.false_eq_true]
      rw [Ensures.bind_iff, Ensures.modify_iff, Ensures.pure_iff]
      obtain ⟨moves, answers⟩ := tooDeep_answers ready idle code message wrong place
        (ready.nested (ready.consistent.holdings.proper _ _ placed) (.inr ⟨id, waiting⟩) asked deep)
      have step : Step env (c.report finding) _ := .requeue waiting
      have queued : Moves env c.stack (c.report finding) _ :=
        .of_runs (.of_step step rfl rfl [] rfl (by simp)) rfl rfl rfl
      exact ⟨moves.trans queued, answers.moves queued⟩

private theorem split_of_findIdx? (found : stack.findIdx? p = some index) :
    ∃ above frame rest, stack = above ++ frame :: rest ∧ above.length = index ∧ p frame = true ∧
      ∀ other ∈ above, p other = false := by
  induction stack generalizing index with
  | nil => cases found
  | cons top rest ih =>
    rw [List.findIdx?_cons] at found
    split at found
    · rename_i here
      cases found
      exact ⟨[], top, rest, rfl, rfl, here, nofun⟩
    · rename_i other
      obtain ⟨before, further, rfl⟩ := Option.map_eq_some_iff.mp found
      obtain ⟨above, frame, below, rfl, rfl, here, others⟩ := ih further
      refine ⟨top :: above, frame, below, rfl, rfl, here, fun item mem => ?_⟩
      rcases List.mem_cons.mp mem with rfl | mem
      · exact Bool.eq_false_iff.mpr other
      · exact others item mem

/-- A key that is asked for in full on top of frames that were asked for in full asks for itself. -/
private theorem looped_demands (consistent : Consistent env c)
    (stacked : c.stack = above ++ frame :: rest)
    (complete : ∀ other ∈ above, other.demand = .complete)
    (asked : .asked c.worker frame.key .complete ∈ c.history) :
    Relation.TransGen c.Demands frame.key frame.key := by
  obtain ⟨worker, own, leads⟩ : ∃ worker, c.worker = some worker ∧
      Relation.ReflTransGen c.Demands frame.key worker := by
    apply consistent.reaches_worker stacked
    intro upper mem worker linked
    rw [complete upper mem] at linked
    exact linked
  rw [own] at asked
  exact .tail' leads asked

/-- A finished type is demanded of a key under work: a frame is given up, or a cycle is reported. -/
private theorem completeWhileResolving_works (ready : Ready env c)
    (resolving : c.resolutions.get? key = some (.resolving id))
    (asked : .asked c.worker key .complete ∈ c.history) :
    Works env c.stack (completeWhileResolving env key location) c fun id after =>
      after.Answers env key .complete location id := by
  unfold completeWhileResolving Works
  rw [Ensures.bind_iff, Ensures.get_iff]
  dsimp only
  split
  · rename_i idle
    have idle : c.abandoning = none := by simpa using idle
    split
    · rename_i missing
      obtain ⟨frame, mem, named, _⟩ := ready.consistent.keys.resolving key id resolving
      have := List.findIdx?_eq_none_iff.mp missing frame mem
      simp [named] at this
    · rename_i height found
      obtain ⟨above, frame, rest, stacked, rfl, named, _⟩ := split_of_findIdx? found
      have named : frame.key = key := by simpa using named
      subst named
      split
      · rename_i youngest reference
        rw [stacked, List.take_left] at reference
        obtain ⟨newer, given, older, rfl, rfl, started, complete⟩ := split_of_findIdx? reference
        rw [List.append_assoc, List.cons_append] at stacked
        have given : c.abandon newer.length = { c with
            abandoning := some (older ++ frame :: rest).length
            history := .abandoned ((newer ++ [given]).map Frame.key) :: c.history } := by
          have height : newer.length + (given :: (older ++ frame :: rest)).length - 1 -
              newer.length = (older ++ frame :: rest).length := by
            rw [List.length_cons]
            omega
          rw [Checker.abandon, stacked, List.length_append, height, List.take_append]
          simp
        rw [Ensures.bind_iff, Ensures.modify_iff, Ensures.pure_iff, given]
        -- The frame that is given up stands above the one demanded, which is done first.
        have demanded : frame.key ∈ (older ++ frame :: rest).map Frame.key := by simp
        have step : Step env c _ := .abandon idle stacked
          (fun other mem => by cases d : other.demand <;> simp_all) (by simpa using started)
          demanded asked
        have runs : Runs env c.stack c _ := .of_step step rfl rfl [_] rfl (by simp)
        refine ⟨{ runs with stack := rfl, depth := rfl, abandoning := ?_ },
          .of_blames (ready.consistent.step step) (by simp) (by simp)⟩
        simp [idle]
      · rename_i none
        rw [stacked, List.take_left, List.findIdx?_eq_none_iff] at none
        rw [Ensures.bind_iff, report, Ensures.modify_iff, Ensures.bind_iff, Ensures.modify_iff,
          Ensures.pure_iff]
        generalize reported : Diagnostic.report .cyclicReference _ _ = finding
        have wrong : finding.isError = true := by rw [← reported]; rfl
        have cyclic : (c.report finding).Cyclic env frame.key.symbol :=
          ⟨finding, Checker.mem_report idle, by rw [← reported]; rfl, by rw [← reported]; rfl⟩
        have faulty := Checker.not_faultless_report idle wrong
        have complete : ∀ other ∈ above, other.demand = .complete := by
          intro other mem
          cases demand : other.demand with
          | complete => rfl
          | reference => simpa [demand] using none other mem
        have looped := looped_demands ready.consistent stacked complete asked
        have moves : Moves env c.stack c (c.report finding) :=
          .report c finding (fun _ => .of_code (by
            rw [← reported]; exact (by decide : Code.cyclicReference.Unrelated)))
            fun _ => .cycle (by rw [← reported]; rfl) looped
        -- the frame has the place that the state of the key gives
        have own : c.resolutions.get? frame.key = some (.resolving frame.id) := by
          rcases (ready.consistent.keys.frames frame (by simp [stacked])).2 with same | errored
          · exact same
          · cases errored.symm.trans resolving
        have step : Step env (c.report finding) _ :=
          .condemn idle stacked complete cyclic faulty looped own
        refine ⟨moves.trans (.of_runs (.of_step step rfl rfl [_] rfl (by simp)) rfl rfl rfl), ?_⟩
        have consistent := (ready.moves moves).consistent.step step
        refine .of_blames consistent (fun _ => ?_) fun _ => .errored (List.mem_cons_self ..)
        exact ⟨.inl (cyclic.grows step.grows), mt step.grows.faultless faulty⟩
  · rename_i unwinding
    rw [Ensures.pure_iff]
    refine ⟨.refl env c.stack c, .of_blames ready.consistent (fun sure => ?_) fun idle => ?_⟩
    · rcases sure with other | idle
      · cases other
      · exact absurd (by simp [idle]) unwinding
    · exact absurd (by simp [idle]) unwinding

theorem resolveKey_works (sound : descent.Sound env) (ready : Ready env c)
    (proper : Proper env c key) (asked : .asked c.worker key demand ∈ c.history)
    (location : Option Location) :
    Works env c.stack (resolveKey env descent key demand location) c fun id after =>
      after.Answers env key demand location id := by
  have keys := ready.consistent.keys
  refine Works.get_bind ?_
  cases state : c.resolutions.get? key with
  | none =>
    exact (start_new_works sound ready state proper asked).weaken fun _ _ _ ended => ended.1
  | some reached =>
    cases reached with
    | resolved id =>
      exact .pure (.of_placed (keys.resolved key id state)
        (fun _ => ready.consistent.slots.resolved key id state)
        (.inl (ready.consistent.recorded.traced key _ state)))
    | errored =>
      obtain ⟨cyclic, faulty⟩ := ready.consistent.reported key state
      exact .pure (.of_blames ready.consistent (fun _ => ⟨.inl cyclic, faulty⟩)
        fun _ => .errored (ready.consistent.recorded.traced key _ state))
    | resolving id =>
      cases demand with
      | reference =>
        obtain ⟨frame, mem, rfl, rfl⟩ := keys.resolving key id state
        obtain ⟨above, rest, stacked⟩ := List.append_of_mem mem
        obtain ⟨worker, own, leads⟩ := ready.consistent.leads_to_worker stacked
        exact .pure (.of_placed (keys.frames frame mem).1 nofun (.inr (.underWork own leads)))
      | complete => exact completeWhileResolving_works ready state asked
    | deferred id =>
      cases demand with
      | reference =>
        exact .pure (.of_placed (keys.waiting key id state).1 nofun
          (.inr (.putOff (ready.consistent.recorded.traced key _ state))))
      | complete => exact start_again_works sound ready state asked

/-- A key that is resolved where it is not too deep has a state from then on. -/
theorem resolveKey_known (sound : descent.Sound env) (ready : Ready env c)
    (proper : Proper env c key) (shallow : c.depth < maxDepth)
    (asked : .asked c.worker key demand ∈ c.history) (location : Option Location) :
    Ensures (resolveKey env descent key demand location) c fun _ after =>
      after.resolutions.get? key ≠ none := by
  cases state : c.resolutions.get? key with
  | none =>
    unfold resolveKey
    rw [Ensures.bind_iff, Ensures.get_iff, state]
    exact Ensures.weaken (start_new_works sound ready state proper asked)
      fun _ _ ended => ended.2.2 shallow
  | some reached =>
    refine Ensures.weaken (resolveKey_works sound ready proper asked location) fun _ _ ended => ?_
    exact ended.1.grows.known key (by simp [state])

private theorem pop_errored (c : Checker) (key : ResolutionKey) (id : TypeId) (demand : Demand)
    (errored : (c.pop key id demand).2.resolutions.get? key = some .errored) :
    (c.pop key id demand).1 = TypeStore.error := by
  revert errored
  unfold Checker.pop
  dsimp only
  split
  · simp [Checker.defer, Checker.setState, Checker.log]
  · split
    · simp [Checker.setState, Checker.log]
    · simp
    · rename_i other
      exact fun errored => absurd errored other

private theorem start_errored :
    Ensures (start env descent key known demand location) c fun id after =>
      after.resolutions.get? key = some .errored → id = TypeStore.error := by
  unfold start
  rw [Ensures.bind_iff, Ensures.get_iff]
  refine Ensures.ite (fun _ => ?_) fun _ => ?_
  · refine Ensures.bind .anything fun id middle _ => ?_
    rw [Ensures.bind_iff, Ensures.modify_iff, Ensures.pure_iff]
    simp [Checker.defer, Checker.setState, Checker.log]
  · refine Ensures.bind .anything fun entered middle _ => Ensures.ite (fun _ => ?_) fun _ => ?_
    · refine Ensures.bind .anything fun id middle _ => ?_
      unfold resolveInto leaveFrame
      refine Ensures.bind .anything fun _ middle _ => Ensures.bind .anything fun _ middle _ => ?_
      refine Ensures.bind .anything fun _ middle _ => Ensures.bind .anything fun _ middle _ => ?_
      rw [Ensures.modifyGet_iff]
      exact pop_errored middle key id demand
    · refine Ensures.ite (fun _ => ?_) fun _ => ?_
      · refine Ensures.bind .anything fun _ middle _ => ?_
        simp [Ensures.pure_iff]
      · simp [Ensures.pure_iff]

/-- Whatever is done about a cycle, the demand that closed it is not met. -/
private theorem completeWhileResolving_error :
    Ensures (completeWhileResolving env key location) c fun id _ => id = TypeStore.error := by
  have error {c : Checker} : Ensures (pure TypeStore.error) c fun id _ => id = TypeStore.error :=
    Ensures.pure_iff.mpr rfl
  unfold completeWhileResolving
  rw [Ensures.bind_iff, Ensures.get_iff]
  dsimp only
  split
  · split
    · exact Ensures.bind .anything fun _ _ _ => error
    · split
      · exact Ensures.bind .anything fun _ _ _ => error
      · exact Ensures.bind .anything fun _ _ _ => Ensures.bind .anything fun _ _ _ => error
  · exact error

/-- A key that is an error when it has been resolved was resolved to the error type. Nothing has to
be known of the work one level down: a frame looks at the state of its key when it ends. -/
theorem resolveKey_errored (key : ResolutionKey) (demand : Demand) (location : Option Location) :
    Ensures (resolveKey env descent key demand location) c fun id after =>
      after.resolutions.get? key = some .errored → id = TypeStore.error := by
  unfold resolveKey
  rw [Ensures.bind_iff, Ensures.get_iff]
  cases state : c.resolutions.get? key with
  | none => exact start_errored
  | some reached =>
    cases reached with
    | resolved id => simp [Ensures.pure_iff, state]
    | errored => simp [Ensures.pure_iff]
    | resolving id =>
      cases demand with
      | reference => simp [Ensures.pure_iff, state]
      | complete =>
        exact completeWhileResolving_error.weaken fun _ _ same _ => same
    | deferred id =>
      cases demand with
      | reference => simp [Ensures.pure_iff, state]
      | complete => exact start_errored

/-- Resolving a declaration with arguments gives its place. -/
theorem resolveSymbol_works (sound : descent.Sound env) (ready : Ready env c)
    (proper : Proper env c ⟨symbol, args⟩) (lets : env.Lets c.stack symbol demand) :
    Works env c.stack (resolveSymbol env descent symbol args demand location) c fun id after =>
      after.Answers env ⟨symbol, args⟩ demand location id := by
  have notes : c.Notes env (.asked c.worker ⟨symbol, args⟩ demand) := .asked lets
  have begun : Ready env (c.log (.asked c.worker ⟨symbol, args⟩ demand)) := ready.moves (.note notes)
  refine Works.modify_bind (.note notes) ?_
  have resolved : Works env c.stack (resolveKey env descent ⟨symbol, args⟩ demand location) _ _ :=
    resolveKey_works sound begun { proper with } (List.mem_cons_self ..) location
  refine Works.bind (resolved.both (resolveKey_errored _ demand location)) ?_
  rintro id middle moves ⟨answers, errored⟩
  have step : Step env middle _ := .answer demand answers.given errored
  have noted : Moves env c.stack middle _ :=
    .of_runs (.of_step step rfl rfl [_] rfl (by simp)) rfl rfl rfl
  exact Works.modify_bind noted (.pure (answers.moves noted))

end CheckM

end Idl
