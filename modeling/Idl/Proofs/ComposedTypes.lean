import Idl.Proofs.AbandonedWork

/-! How the properties of the types of a program came about. What was written down of
a list of members is right as of the time when it was written down, and stays so,
because the store and the findings only grow. The type of a declaration is made of a
list that was checked in the last work on it: if that work had been given up, the
type would not be stored. -/
namespace Idl

/-- A state as it is, with the history that there was at some time. -/
def Checker.asOf (c : Checker) (earlier : List Event) : Checker := { c with history := earlier }

/-- Whether an event says what became of a piece of syntax. -/
def Event.readsSyntax : Event → Bool
  | evaluated .. | gathered .. | expressed .. => true
  | _ => false

/-- What is written down in a run about members, models written in place and declarations. -/
structure Accounted (env : Environment) (c : Checker) : Prop where
  gathered : ∀ later gathering earlier, c.history = later ++ .gathered gathering :: earlier →
    (c.asOf earlier).Gathers env gathering
  expressed : ∀ context members properties id, .expressed context members properties id ∈ c.history →
    c.Expresses context.dependent properties id ∧
      ∃ worker steady, .gathered ⟨worker, context, members, [], properties, steady⟩ ∈ c.history
  evaluated : ∀ worker members span id, .evaluated worker (.model members span) id ∈ c.history →
    ∃ context properties, .expressed context members properties id ∈ c.history
  composed : ∀ key id type, c.Placed key id → c.types.get? id = some type → c.Composes env key type

theorem Grows.retains_asOf (grown : Grows c after) (worker : Option ResolutionKey)
    (earlier : List Event) : Checker.Retains worker (c.asOf earlier) (after.asOf earlier) where
  grows := { grown with history := List.suffix_rfl }
  keeps := fun _ keeps => keeps

/-- What became of a piece of syntax is written down in a step of its own. -/
private theorem Step.reads (step : Step env c after) : ∃ added, after.history = added ++ c.history ∧
    ∀ event ∈ added, event.readsSyntax = true → added = [event] ∧ c.Notes env event := by
  have one {event : Event} (other : event.readsSyntax = false) :
      ∃ added, event :: c.history = added ++ c.history ∧
        ∀ event ∈ added, event.readsSyntax = true → added = [event] ∧ c.Notes env event := by
    refine ⟨[event], rfl, fun found mem reads => ?_⟩
    rw [List.mem_singleton.mp mem, other] at reads
    cases reads
  cases step with
  | note notes =>
    refine ⟨[_], rfl, fun event mem _ => ?_⟩
    obtain rfl := List.mem_singleton.mp mem
    exact ⟨rfl, notes⟩
  | alloc | placeParam | fillParam | again | resume | postponeAgain | abandon | condemn | fill
  | giveUp | complete | settle | answer | need => exact one rfl
  | begin | postpone => exact ⟨[_, _], rfl, by simp [Event.readsSyntax]⟩
  | _ => exact ⟨[], rfl, by simp⟩

/-- Such an event was there before a step, or could be written down then. -/
private theorem Step.reads_or (step : Step env c after) (reads : event.readsSyntax = true)
    (mem : event ∈ after.history) : event ∈ c.history ∨ c.Notes env event := by
  obtain ⟨added, history, noted⟩ := step.reads
  rw [history] at mem
  rcases List.mem_append.mp mem with new | old
  · exact .inr (noted event new reads).2
  · exact .inl old

private theorem step_gathered (step : Step env c after)
    (held : ∀ later gathering earlier, c.history = later ++ .gathered gathering :: earlier →
      (c.asOf earlier).Gathers env gathering)
    (split : after.history = later ++ .gathered gathering :: earlier) :
    (after.asOf earlier).Gathers env gathering := by
  have retains := step.grows.retains_asOf gathering.worker earlier
  obtain ⟨added, history, noted⟩ := step.reads
  rw [history] at split
  rcases List.append_eq_append_iff.mp split with ⟨more, _, behind⟩ | ⟨more, whole, ahead⟩
  · exact (held more gathering earlier behind).later retains
  · cases more with
    | nil => exact (held [] gathering earlier ahead.symm).later retains
    | cons event more =>
      obtain ⟨rfl, rfl⟩ := List.cons.inj ahead
      obtain ⟨alone, notes⟩ := noted (.gathered gathering) (by simp [whole]) rfl
      -- the event is all that the step adds, so the history before it is that of the state before
      have nothing : later = [] ∧ more = [] := by
        rw [whole] at alone
        have length := congrArg List.length alone
        simp only [List.length_append, List.length_cons, List.length_nil] at length
        exact ⟨List.length_eq_zero_iff.mp (by omega), List.length_eq_zero_iff.mp (by omega)⟩
      obtain ⟨rfl, rfl⟩ := nothing
      cases notes with
      | gathered gathers => exact Checker.Gathers.later retains gathers

private theorem step_composed (consistent : Consistent env c) (step : Step env c after)
    (composed : ∀ key id type, c.Placed key id → c.types.get? id = some type →
      c.Composes env key type) {id : TypeId} (placed : after.Placed key id)
    (stored : after.types.get? id = some type) : after.Composes env key type := by
  rcases consistent.stores_key step placed stored with
    ⟨placed, stored⟩ | ⟨frame, _, _, rfl, _, completes, _, filled⟩
  · have done : ∀ own ∈ some key, c.Done own := by
      rintro _ ⟨⟩
      exact ⟨id, placed, by simp [Checker.Empty, stored]⟩
    exact (composed key id type placed stored).later (consistent.retains step done)
  · -- storing the type puts nothing off
    have history : after.history = [.filled id type] ++ c.history := by
      rw [filled]
      rfl
    exact completes.composes.later ⟨step.grows, fun _ keeps => keeps.later history (by simp)⟩

theorem Accounted.step (consistent : Consistent env c) (step : Step env c after)
    (accounted : Accounted env c) : Accounted env after where
  gathered := fun _ _ _ => step_gathered step accounted.gathered
  expressed := by
    intro context members properties id mem
    have grown := step.grows
    rcases step.reads_or rfl mem with old | notes
    · obtain ⟨expresses, worker, steady, gathered⟩ := accounted.expressed _ _ _ _ old
      exact ⟨grown.expresses expresses, worker, steady, grown.history.subset gathered⟩
    · cases notes with
      | expressed gathered expresses =>
        exact ⟨grown.expresses expresses, _, _, grown.history.subset gathered⟩
  evaluated := by
    intro worker members span id mem
    have earlier : ∃ context properties, .expressed context members properties id ∈ c.history := by
      rcases step.reads_or rfl mem with old | notes
      · exact accounted.evaluated _ _ _ _ old
      · cases notes with
        | evaluated expressed => exact expressed members span rfl
    obtain ⟨context, properties, expressed⟩ := earlier
    exact ⟨context, properties, step.grows.history.subset expressed⟩
  composed := fun _ _ _ => step_composed consistent step accounted.composed

theorem Ended.accounted (ended : Ended env c) : Accounted env c := by
  refine ended.keeps (Accounted env) ?_ fun _ _ => Accounted.step
  constructor
  · intro later gathering earlier split
    simp at split
  · simp
  · simp
  · simp [Checker.Placed]

/-- In a program on which the check returns no model has two properties of one name. Whatever list of
members was checked, of the properties that it brings the first of each name are added to those
before it, and one that is left out is reported unless a frame is given up. The models and the
parameters of operations, declared or written in place, have what was gathered so. -/
theorem check_first_property_wins (library : Library) (options : Options) (scripts : List Script)
    (rounds : Nat) (final : Checker)
    (checked : check (Environment.ofScripts library options scripts) rounds = some final) :
    (∀ id model, final.types.get? id = some (.model model) →
        (model.properties.map Property.name).Nodup) ∧
      (∀ later gathering earlier, final.history = later ++ .gathered gathering :: earlier →
        (final.asOf earlier).Gathers (Environment.ofScripts library options scripts) gathering) ∧
      (∀ key id type, final.Placed key id → final.types.get? id = some type →
        final.Composes (Environment.ofScripts library options scripts) key type) ∧
      (∀ context members properties id,
        .expressed context members properties id ∈ final.history →
          final.Expresses context.dependent properties id ∧ ∃ worker steady,
            .gathered ⟨worker, context, members, [], properties, steady⟩ ∈ final.history) ∧
      ∀ worker members span id, .evaluated worker (.model members span) id ∈ final.history →
        ∃ context properties, .expressed context members properties id ∈ final.history := by
  have bound := Environment.ofScripts_bound library options scripts
  have ended := check_ended bound checked
  have accounted := ended.accounted
  exact ⟨ended.consistent.holdings.distinct, accounted.gathered, accounted.composed,
    accounted.expressed, accounted.evaluated⟩

/-- Three models, of which one copies another, with names that are written twice, brought twice and
brought again after they were copied. Work on the third one is given up and done again. A model
written in place and the parameters of an operation have a name twice as well. -/
private def repeatedText : String :=
  "model A \x7b x: void; y: B; x: never \x7d model B \x7b y: A; ...C; z: void; ...C \x7d " ++
    "model C is A \x7b z: \x7b p: void; p: never \x7d; ...B \x7d op f(q: A; q: B): void;"

private def repeatedScripts : List Script :=
  ((Script.read ⟨1⟩ repeatedText).map Prod.fst).toList

/-- Nine properties were left out, one of them while a frame was given up, and the models have each
name once. -/
private def isRepeatedRun (final : Checker) : Bool :=
  let dropped := final.history.filterMap fun
    | .dropped _ _ steady => some steady
    | _ => none
  dropped.count true = 8 && dropped.count false = 1 &&
    [3, 4, 5, 6, 8].map (fun index => (propertiesIn (final.types.get? ⟨index⟩)).map Property.name) =
      [["x", "y"], ["y", "x", "z"], ["x", "y", "z"], ["p"], ["q"]]

theorem check_first_property_wins_copied :
    ∃ final, check (Environment.ofScripts {} {} repeatedScripts) 8 = some final ∧
      isRepeatedRun final ∧
      (∀ id model, final.types.get? id = some (.model model) →
        (model.properties.map Property.name).Nodup) ∧
      ∀ later gathering earlier, final.history = later ++ .gathered gathering :: earlier →
        (final.asOf earlier).Gathers (Environment.ofScripts {} {} repeatedScripts) gathering := by
  have returns : (check (Environment.ofScripts {} {} repeatedScripts) 8).any isRepeatedRun = true := by
    decide +kernel
  obtain ⟨final, checked, run⟩ := (Option.any_eq_true _ _).mp returns
  have wins := check_first_property_wins {} {} repeatedScripts 8 final checked
  exact ⟨final, checked, run, wins.1, wins.2.1⟩

end Idl
