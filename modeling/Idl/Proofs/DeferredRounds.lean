import Idl.Proofs.DescentBounds
import Idl.Proofs.WholeRuns
import Mathlib.Data.Set.Finite.List

/-! Checking comes to its end exactly if it creates finitely many keys. Every
declaration is checked to its end and every round of what was put off comes to
its end, so only the number of rounds can be without bound. A round takes up a
key with nothing under work around it, so the key is not given up again and its
place is filled when the round is over. Rounds without end therefore need keys
without end, and only templates can make those. -/
namespace Idl

/-! A key that is taken up with nothing under work around it is not given up. -/

/-- A frame at the bottom of the stack that is not given up, or its place once it is filled. -/
def Checker.Grounds (c : Checker) (frame : Frame) : Prop :=
  (∃ above, c.stack = above ++ [frame]) ∧ c.abandoning ≠ some 0 ∨ ¬ c.Empty frame.id

theorem Checker.Grounds.step (grounds : c.Grounds frame) (step : Step env c after) :
    after.Grounds frame := by
  rcases grounds with ⟨⟨above, bottom⟩, kept⟩ | filled
  case inr => exact .inr (mt step.grows.empty_before filled)
  cases step with
  | begin | again => exact .inl ⟨⟨_ :: above, congrArg (_ :: ·) bottom⟩, kept⟩
  | resume _ settled =>
    rw [settled] at bottom
    cases above <;> cases bottom
  | @abandon _ rest _ key _ _ _ _ demanded =>
    refine .inl ⟨⟨above, bottom⟩, fun whole => ?_⟩
    -- The key that was demanded lies under the frame, so the frame is not the lowest.
    have empty : rest = [] := List.length_eq_zero_iff.mp (Option.some.inj whole)
    rw [empty] at demanded
    cases demanded
  | @giveUp top rest below unwinding stacked inside =>
    cases above with
    | nil =>
      cases stacked.symm.trans bottom
      obtain rfl : below = 0 := Nat.le_zero.mp inside
      exact absurd unwinding kept
    | cons other above =>
      cases stacked.symm.trans bottom
      refine .inl ⟨⟨above, rfl⟩, ?_⟩
      simp only [Checker.defer, Checker.setState, Checker.log]
      split
      · simp
      · exact kept
  | complete _ stacked _ stored | completeErrored _ stacked _ stored =>
    cases above with
    | nil =>
      cases stacked.symm.trans bottom
      exact .inr fun empty => by cases stored.symm.trans empty
    | cons other above =>
      cases stacked.symm.trans bottom
      exact .inl ⟨⟨above, rfl⟩, kept⟩
  | _ => exact .inl ⟨⟨above, bottom⟩, kept⟩

theorem Checker.Grounds.steps (grounds : c.Grounds frame) (steps : Steps env c after) :
    after.Grounds frame := by
  induction steps with
  | refl => exact grounds
  | tail _ step ih => exact ih.step step

/-- A round fills the place of the key that it takes up. -/
theorem CheckM.resume_fills (sound : descent.Sound env) (resting : Resting env c)
    (queued : c.deferred = key :: rest) {id : TypeId}
    (waiting : c.resolutions.get? key = some (.deferred id)) :
    Ensures (resume descent key) { c with deferred := rest } fun _ after => ¬ after.Empty id := by
  refine (resumed_runs sound resting queued waiting).weaken ?_
  rintro _ after ⟨runs, stack, _⟩
  have begun : (resumed c key id rest).Grounds ⟨key, id, .reference⟩ := by
    refine .inl ⟨⟨[], ?_⟩, ?_⟩
    · exact congrArg (_ :: ·) resting.stack
    · exact fun given => by cases resting.idle.symm.trans given
  rcases begun.steps runs.steps with ⟨⟨above, bottom⟩, _⟩ | filled
  · rw [stack, resting.stack] at bottom
    cases above <;> cases bottom
  · exact filled

/-! The pieces of work of a whole check. -/

/-- A piece of work between two states in which nothing is under work. -/
inductive Task where
  /-- A symbol is visited. -/
  | visit (symbol : Symbol)
  /-- What was put off is resolved, round by round. -/
  | drain

/-- The work on symbols: each is visited, and after a declaration, and in the end, what was put off
is resolved. -/
def Task.listOf : List Symbol → List Task
  | [] => [.drain]
  | symbol :: rest =>
    if symbol.kind.declares then .visit symbol :: .drain :: listOf rest
    else .visit symbol :: listOf rest

theorem Task.mem_of_visit (mem : .visit symbol ∈ listOf symbols) : symbol ∈ symbols := by
  induction symbols with
  | nil => simp [listOf] at mem
  | cons first rest ih =>
    unfold listOf at mem
    split at mem
    · simp only [List.mem_cons, visit.injEq, reduceCtorEq, false_or] at mem
      exact List.mem_cons.mpr (mem.imp_right ih)
    · simp only [List.mem_cons, visit.injEq] at mem
      exact List.mem_cons.mpr (mem.imp_right ih)

namespace CheckM

/-- The work of tasks, one after the other. -/
def runTasks (env : Environment) (descent : Descent) (rounds : Nat) : List Task → CheckM Unit
  | [] => return
  | .visit symbol :: rest => do
    visit env descent symbol
    runTasks env descent rounds rest
  | .drain :: rest => do
    resolveDeferred descent rounds
    runTasks env descent rounds rest

theorem checkSymbols_eq_runTasks (rounds : Nat) (symbols : List Symbol) :
    checkSymbols env descent rounds symbols =
      runTasks env descent rounds (Task.listOf symbols) := by
  induction symbols with
  | nil => simp [checkSymbols, Task.listOf, runTasks]
  | cons symbol rest ih =>
    unfold checkSymbols checkSymbol Task.listOf
    rw [ih]
    split <;> simp [runTasks, *]

/-- Work with a result from a state goes on from there. -/
theorem run_bind {next : α → CheckM β} (ran : first c = some (a, middle)) :
    (first >>= next) c = next a middle := by
  show (first c).bind (fun p => next p.1 p.2) = _
  rw [ran]
  rfl

theorem run_get (c : Checker) : (get : CheckM Checker) c = some (c, c) := rfl

theorem of_run_bind {next : α → CheckM β} (ran : (first >>= next) c = some (b, after)) :
    ∃ a middle, first c = some (a, middle) ∧ next a middle = some (b, after) := by
  obtain ⟨⟨a, middle⟩, begun, rest⟩ := Option.bind_eq_some_iff.mp ran
  exact ⟨a, middle, begun, rest⟩

theorem resolveDeferred_nil {c : Checker} (nothing : c.deferred = []) (rounds : Nat) :
    resolveDeferred descent (rounds + 1) c = some ((), c) := by
  rw [resolveDeferred, run_bind (run_get c), nothing]
  rfl

/-- One round, and the rounds after it. -/
theorem resolveDeferred_cons {rest : List ResolutionKey} (queued : c.deferred = key :: rest)
    (rounds : Nat) :
    resolveDeferred descent (rounds + 1) c =
      (resume descent key >>= fun _ => resolveDeferred descent rounds) { c with deferred := rest } := by
  rw [resolveDeferred, run_bind (run_get c), queued]
  rfl

/-- More rounds give the same result. -/
theorem resolveDeferred_mono {rounds : Nat} (fewer : rounds ≤ more)
    (ran : resolveDeferred descent rounds c = some ((), after)) :
    resolveDeferred descent more c = some ((), after) := by
  induction rounds generalizing more c with
  | zero => cases ran
  | succ rounds ih =>
    obtain ⟨more, rfl⟩ := Nat.exists_eq_succ_of_ne_zero (by omega : more ≠ 0)
    cases queued : c.deferred with
    | nil =>
      rw [resolveDeferred_nil queued] at ran ⊢
      exact ran
    | cons key rest =>
      rw [resolveDeferred_cons queued] at ran ⊢
      obtain ⟨_, middle, begun, further⟩ := of_run_bind ran
      rw [run_bind begun]
      exact ih (Nat.le_of_succ_le_succ fewer) further

theorem runTasks_mono {rounds : Nat} (fewer : rounds ≤ more) (tasks : List Task)
    (ran : runTasks env descent rounds tasks c = some ((), after)) :
    runTasks env descent more tasks c = some ((), after) := by
  induction tasks generalizing c with
  | nil => exact ran
  | cons task rest ih =>
    cases task with
    | visit symbol =>
      obtain ⟨_, middle, begun, further⟩ := of_run_bind ran
      exact (run_bind begun).trans (ih further)
    | drain =>
      obtain ⟨_, middle, begun, further⟩ := of_run_bind ran
      exact (run_bind (resolveDeferred_mono fewer begun)).trans (ih further)

/-- Tasks lead from rest to rest. -/
theorem runTasks_advances (bound : env.Bound) (sound : descent.Sound env)
    (rounds : Nat) (tasks : List Task)
    (listed : ∀ symbol, .visit symbol ∈ tasks → env.symbols.symbol symbol.id = symbol)
    (resting : Resting env c) : Advances env (runTasks env descent rounds tasks) c := by
  induction tasks generalizing c with
  | nil => exact Ensures.pure_iff.mpr ⟨.refl, resting⟩
  | cons task rest ih =>
    have later (middle : Checker) (rested : Resting env middle) :=
      ih (fun symbol mem => listed symbol (List.mem_cons_of_mem _ mem)) rested
    cases task with
    | visit symbol =>
      refine Advances.bind ?_ fun _ => later
      exact (visit_visits bound sound (listed symbol (by simp)) resting).weaken fun _ _ seen => seen.1
    | drain =>
      refine Advances.bind ?_ fun _ => later
      exact (resolveDeferred_advances sound resting).weaken fun _ _ drained => drained.1

end CheckM

/-- The states that the check of a program comes to between pieces of work, with the tasks that are
still to be done. -/
inductive Comes (env : Environment) : List Task → Checker → Prop where
  | start : Comes env (Task.listOf env.symbols.toList) {}
  | visit {symbol rest c after} (before : Comes env (.visit symbol :: rest) c)
      (ran : CheckM.visit env (CheckM.descentOf env env.levels) symbol c = some ((), after)) :
      Comes env rest after
  | round {rest c key keys after} (before : Comes env (.drain :: rest) c)
      (queued : c.deferred = key :: keys)
      (ran : CheckM.resume (CheckM.descentOf env env.levels) key { c with deferred := keys } =
        some ((), after)) :
      Comes env (.drain :: rest) after
  | drained {rest c} (before : Comes env (.drain :: rest) c) (nothing : c.deferred = []) :
      Comes env rest c

/-- The check of a program comes to a key. -/
def Environment.Creates (env : Environment) (key : ResolutionKey) : Prop :=
  ∃ tasks c, Comes env tasks c ∧ c.resolutions.get? key ≠ none

namespace Comes

theorem listed (bound : env.Bound) (comes : Comes env tasks c) :
    ∀ symbol, .visit symbol ∈ tasks → env.symbols.symbol symbol.id = symbol := by
  induction comes with
  | start => exact fun symbol mem => bound.numbered (Task.mem_of_visit mem)
  | visit _ _ ih | drained _ _ ih =>
    exact fun symbol mem => ih symbol (List.mem_cons_of_mem _ mem)
  | round _ _ _ ih => exact ih

theorem resting (bound : env.Bound) (comes : Comes env tasks c) :
    Resting env c := by
  have sound := CheckM.descentOf_sound bound env.levels
  induction comes with
  | start => exact resting_start
  | visit before ran ih =>
    have listed := before.listed bound _ (List.mem_cons_self ..)
    exact (CheckM.visit_visits bound sound listed ih _ _ ran).1.2
  | round _ queued ran ih => exact (CheckM.resume_advances sound ih queued _ _ ran).2
  | drained _ _ ih => exact ih

/-- A check that returns has come through this state. -/
theorem leads (comes : Comes env tasks c) {rounds : Nat} (checked : check env rounds = some final) :
    CheckM.runTasks env (CheckM.descentOf env env.levels) rounds tasks c = some ((), final) := by
  induction comes with
  | start =>
    obtain ⟨⟨done, last⟩, ran, rfl⟩ := Option.map_eq_some_iff.mp checked
    rw [CheckM.checkSymbols_eq_runTasks] at ran
    exact ran
  | visit _ ran ih => exact (CheckM.run_bind ran).symm.trans ih
  | round _ queued ran ih =>
    obtain ⟨_, middle, drained, further⟩ := CheckM.of_run_bind ih
    cases rounds with
    | zero => cases drained
    | succ rounds =>
      rw [CheckM.resolveDeferred_cons queued, CheckM.run_bind ran] at drained
      exact (CheckM.run_bind (CheckM.resolveDeferred_mono (Nat.le_succ _) drained)).trans further
  | drained _ nothing ih =>
    obtain ⟨_, middle, drained, further⟩ := CheckM.of_run_bind ih
    cases rounds with
    | zero => cases drained
    | succ rounds =>
      rw [CheckM.resolveDeferred_nil nothing] at drained
      cases drained
      exact further

end Comes

/-- The place of a key is filled. -/
def Checker.Filled (c : Checker) (key : ResolutionKey) : Prop :=
  ∃ id, c.Placed key id ∧ ¬ c.Empty id

theorem Resting.not_filled (resting : Resting env c) {id : TypeId}
    (waiting : c.resolutions.get? key = some (.deferred id)) : ¬ c.Filled key := by
  rintro ⟨other, placed, filled⟩
  have own := (resting.consistent.keys.waiting key id waiting).1
  obtain rfl := resting.consistent.ledger.placed_once own placed
  exact filled (resting.consistent.slots.waiting key id waiting)

/-- Every visit and every round comes to its end. -/
theorem CheckM.visit_ends (env : Environment) (symbol : Symbol) (c : Checker) :
    ∃ after, visit env (descentOf env env.levels) symbol c = some ((), after) := by
  obtain ⟨_, after, ran, _⟩ := visit_returns (descentOf_returns env.levels)
    (Nat.lt_succ_of_lt c.room_lt_levels)
  exact ⟨after, ran⟩

theorem CheckM.resume_ends (env : Environment) (key : ResolutionKey) (c : Checker) :
    ∃ after, resume (descentOf env env.levels) key c = some ((), after) := by
  have below : (descentOf env env.levels).Returns env env.levels := descentOf_returns env.levels
  obtain ⟨_, after, ran, _⟩ := resume_returns below (Nat.lt_succ_of_lt c.room_lt_levels)
  exact ⟨after, ran⟩

/-- A key that does not wait is passed over. -/
theorem CheckM.resume_pass {c : Checker}
    (other : ∀ id, c.resolutions.get? key ≠ some (.deferred id)) :
    resume descent key c = some ((), c) := by
  unfold resume
  rw [run_bind (run_get c)]
  rcases known : c.resolutions.get? key with _ | state
  · rfl
  · cases state with
    | deferred id => exact absurd known (other id)
    | _ => rfl

-- The keys that can still be worked on become fewer with every round that works on one, and a
-- round that only passes over a key makes the queue shorter.
theorem Comes.drains (bound : env.Bound) {c : Checker}
    (comes : Comes env (.drain :: rest) c) (pending : List ResolutionKey)
    (covered : ∀ key, env.Creates key → key ∈ pending ∨ c.Filled key) :
    ∃ rounds after, CheckM.resolveDeferred (CheckM.descentOf env env.levels) rounds c =
      some ((), after) ∧ Comes env rest after := by
  have sound := CheckM.descentOf_sound bound env.levels
  have resting := comes.resting bound
  match queued : c.deferred with
  | [] => exact ⟨1, c, CheckM.resolveDeferred_nil queued 0, comes.drained queued⟩
  | key :: keys =>
    obtain ⟨middle, ran⟩ := CheckM.resume_ends env key { c with deferred := keys }
    have next := comes.round queued ran
    have grown := (CheckM.resume_advances sound resting queued _ _ ran).1.grows
    have onward {rounds : Nat} {after : Checker}
        (drained : CheckM.resolveDeferred (CheckM.descentOf env env.levels) rounds middle =
          some ((), after)) :
        CheckM.resolveDeferred (CheckM.descentOf env env.levels) (rounds + 1) c =
          some ((), after) :=
      (CheckM.resolveDeferred_cons queued rounds).trans ((CheckM.run_bind ran).trans drained)
    by_cases wait : ∃ id, c.resolutions.get? key = some (.deferred id)
    · obtain ⟨id, waiting⟩ := wait
      have placed := (resting.consistent.keys.waiting key id waiting).1
      have filled := CheckM.resume_fills sound resting queued waiting _ _ ran
      have created : env.Creates key := ⟨_, c, comes, by simp [waiting]⟩
      have mem := (covered key created).resolve_right (resting.not_filled waiting)
      have fewer : (pending.filter (· ≠ key)).length < pending.length :=
        List.length_filter_lt_length_iff_exists.mpr ⟨key, mem, by simp⟩
      obtain ⟨rounds, after, drained, ended⟩ :=
        next.drains bound (pending.filter (· ≠ key)) fun other created => by
          by_cases same : other = key
          · subst same
            exact .inr ⟨id, grown.placed placed, filled⟩
          · rcases covered other created with inside | ⟨place, there, filled⟩
            · exact .inl (by simp [inside, same])
            · exact .inr ⟨place, grown.placed there, mt grown.empty_before filled⟩
      exact ⟨rounds + 1, after, onward drained, ended⟩
    · have passed : CheckM.resume (CheckM.descentOf env env.levels) key { c with deferred := keys } =
          some ((), { c with deferred := keys }) := CheckM.resume_pass (not_exists.mp wait)
      cases passed.symm.trans ran
      have shorter : keys.length < c.deferred.length := by simp [queued]
      obtain ⟨rounds, after, drained, ended⟩ := next.drains bound pending covered
      exact ⟨rounds + 1, after, onward drained, ended⟩
termination_by (pending.length, c.deferred.length)
decreasing_by
  · exact Prod.Lex.left _ _ fewer
  · exact Prod.Lex.right _ shorter

/-- With finitely many keys every task comes to its end. -/
theorem Comes.ends (bound : env.Bound) {keys : List ResolutionKey}
    (finite : ∀ key, env.Creates key → key ∈ keys) (tasks : List Task) (comes : Comes env tasks c) :
    ∃ rounds final, CheckM.runTasks env (CheckM.descentOf env env.levels) rounds tasks c =
      some ((), final) := by
  induction tasks generalizing c with
  | nil => exact ⟨0, c, rfl⟩
  | cons task rest ih =>
    cases task with
    | visit symbol =>
      obtain ⟨middle, ran⟩ := CheckM.visit_ends env symbol c
      obtain ⟨rounds, final, further⟩ := ih (comes.visit ran)
      exact ⟨rounds, final, (CheckM.run_bind ran).trans further⟩
    | drain =>
      obtain ⟨first, middle, drained, next⟩ :=
        comes.drains bound keys fun key created => .inl (finite key created)
      obtain ⟨second, final, further⟩ := ih next
      refine ⟨max first second, final, ?_⟩
      have enough := CheckM.resolveDeferred_mono (Nat.le_max_left first second) drained
      exact (CheckM.run_bind enough).trans
        (CheckM.runTasks_mono (Nat.le_max_right first second) rest further)

/-- A check that returns has created the keys of its last state and no others. -/
theorem Environment.Creates.known (bound : env.Bound)
    (checked : check env rounds = some final) (created : env.Creates key) :
    key ∈ final.resolutions.keys := by
  obtain ⟨tasks, c, comes, known⟩ := created
  have steps := (CheckM.runTasks_advances bound (CheckM.descentOf_sound bound env.levels) rounds
    tasks (comes.listed bound) (comes.resting bound) _ _ (comes.leads checked)).1
  obtain ⟨state, found⟩ := Option.ne_none_iff_exists'.mp (steps.grows.known key known)
  exact Dictionary.mem_keys_of_get? found

/-- Finitely many keys are worked on in finitely many rounds. -/
theorem returns_of_finite {env : Environment} (bound : env.Bound)
    (finite : {key | env.Creates key}.Finite) : ∃ rounds final, check env rounds = some final := by
  have listed (key : ResolutionKey) (created : env.Creates key) : key ∈ finite.toFinset.toList := by
    simp [created]
  obtain ⟨rounds, final, ran⟩ := Comes.start.ends bound listed (Task.listOf env.symbols.toList)
  rw [← CheckM.checkSymbols_eq_runTasks] at ran
  exact ⟨rounds, final, Option.map_eq_some_iff.mpr ⟨_, ran, rfl⟩⟩

/-- From any state whatever the visit of a symbol and a round of what was put off come to their
end. The check of a program comes to its end exactly if it creates finitely many keys. -/
theorem check_returns_iff_finite (library : Library) (options : Options) (scripts : List Script) :
    let env := Environment.ofScripts library options scripts
    let descent := CheckM.descentOf env env.levels
    (∀ symbol c, ∃ after, CheckM.visit env descent symbol c = some ((), after)) ∧
    (∀ key c, ∃ after, CheckM.resume descent key c = some ((), after)) ∧
    ((∃ rounds final, check env rounds = some final) ↔ {key | env.Creates key}.Finite) := by
  intro env descent
  have bound : env.Bound := Environment.ofScripts_bound library options scripts
  refine ⟨CheckM.visit_ends env, CheckM.resume_ends env, ?_, returns_of_finite bound⟩
  rintro ⟨rounds, final, checked⟩
  apply (List.finite_toSet final.resolutions.keys).subset
  intro key created
  exact created.known bound checked

/-- Without template parameters the check of a program comes to its end. -/
theorem returns_of_plain (bound : env.Bound)
    (plain : ∀ symbol, (env.symbols.symbol symbol).templateParams = []) :
    ∃ rounds final, check env rounds = some final := by
  apply returns_of_finite bound
  apply (List.finite_toSet (env.symbols.toList.map fun symbol => ⟨symbol.id, []⟩)).subset
  rintro ⟨symbol, args⟩ ⟨tasks, c, comes, known⟩
  have consistent := (comes.resting bound).consistent
  obtain ⟨id, placed⟩ := (consistent.keys.known _).mp known
  have proper := consistent.holdings.proper _ id placed
  obtain ⟨mem, numbered⟩ := bound.listed proper.declares.not_space
  have counted := proper.counted
  rw [plain, List.length_nil, eq_comm, List.length_eq_zero_iff] at counted
  refine List.mem_map.mpr ⟨_, mem, ?_⟩
  rw [numbered]
  exact congrArg _ counted.symm

end Idl
