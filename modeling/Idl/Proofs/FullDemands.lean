import Idl.Proofs.WholeRuns

/-! Types that are needed in full: the targets of spreads, of copies and of
operations that take over a signature. Such a type is there when it is asked for,
except where the name of a template parameter is written: what stands for the
parameter was only referred to, and may still be under work. A finding about such
a target is right unless it was made about a type that was not there, which depends
on the order in which the declarations are written. -/
namespace Idl

/-- Every type that was needed in full, while nothing was given up, was there. -/
def Checker.SeesFinished (c : Checker) : Prop :=
  ∀ need, .needed need ∈ c.history → need.steady = true → need.found ≠ none

/-- What is found wrong with a type that is needed in full is wrong with the type in the end,
unless it is a decorator that says so. -/
def Checker.RejectsRightly (env : Environment) (c : Checker) : Prop :=
  ∀ use location, Use.finding location use ∈ c.diagnostics →
    env.library.Reports (use.finding location) ∨
      ∃ need type, .needed need ∈ c.history ∧ need.use = use ∧ need.location = location ∧
        need.steady = true ∧ c.types.get? need.id = some type ∧ use.accepts type = false

/-- Where the name of a template parameter is needed in full, what stands for it is there. -/
def Checker.SeesParams (env : Environment) (c : Checker) : Prop :=
  ∀ need, .needed need ∈ c.history → need.steady = true →
    env.NamesParam c need.context need.target need.id → need.found ≠ none

/-- What was needed was noted earlier, or it is noted now and is missing only for a parameter. -/
private theorem Step.needed (step : Step env c after) {need : Need}
    (mem : .needed need ∈ after.history) :
    .needed need ∈ c.history ∨
      (need.found = none → env.NamesParam c need.context need.target need.id) := by
  cases step with
  | need use context target location there =>
    rcases List.mem_cons.mp mem with same | earlier
    · cases same
      exact .inr there
    · exact .inl earlier
  | note notes =>
    rcases List.mem_cons.mp mem with same | earlier
    · subst same
      cases notes
    · exact .inl earlier
  | alloc | placeParam | fillParam | abandon | fill | settle | answer
  | again | resume | postponeAgain | condemn | giveUp | complete =>
    exact .inl ((List.mem_cons.mp mem).resolve_left (by simp))
  | begin | postpone =>
    have earlier := (List.mem_cons.mp mem).resolve_left (by simp)
    exact .inl ((List.mem_cons.mp earlier).resolve_left (by simp))
  | _ => exact .inl mem

/-- A finding was there before, or it is made now and there is a reason for it. -/
private theorem Step.finding (step : Step env c after) {finding : Diagnostic}
    (mem : finding ∈ after.diagnostics) :
    finding ∈ c.diagnostics ∨ c.Warrants env finding := by
  cases step with
  | report other warranted =>
    simp only [Checker.report] at mem
    split at mem
    · exact .inl mem
    · rename_i silent
      rcases List.mem_append.mp mem with earlier | new
      · exact .inl earlier
      · rw [List.mem_singleton.mp new]
        refine .inr (warranted ?_)
        simpa using not_or.mp silent |>.1
  | _ => exact .inl mem

/-- What is missing when it is needed is named as a template parameter, and every finding has a
reason. -/
private structure Accounts (env : Environment) (c : Checker) : Prop where
  missing : ∀ need, .needed need ∈ c.history → need.found = none →
    env.NamesParam c need.context need.target need.id
  warranted : ∀ finding ∈ c.diagnostics, c.Warrants env finding

private theorem step_accounts (step : Step env c after) (accounts : Accounts env c) :
    Accounts env after where
  missing := by
    intro need mem absent
    have names : env.NamesParam c need.context need.target need.id := by
      rcases step.needed mem with earlier | now
      · exact accounts.missing need earlier absent
      · exact now absent
    exact names.grows step.grows
  warranted := by
    intro finding mem
    have warrants : c.Warrants env finding := by
      rcases step.finding mem with earlier | now
      · exact accounts.warranted finding earlier
      · exact now
    exact warrants.grows step.grows

private theorem Ended.accounts (ended : Ended env c) : Accounts env c :=
  ended.keeps (Accounts env) ⟨by simp, by simp⟩ fun _ _ _ => step_accounts

private theorem Accounts.seesFinished (accounts : Accounts env c) (params : c.SeesParams env) :
    c.SeesFinished := by
  intro need mem steady absent
  exact params need mem steady (accounts.missing need mem absent) absent

private theorem Accounts.rejectsRightly (accounts : Accounts env c) (finished : c.SeesFinished) :
    c.RejectsRightly env := by
  intro use location mem
  rcases accounts.warranted _ mem use location rfl with
    reports | ⟨need, noted, used, here, steady, absent | ⟨type, found, unusable⟩⟩
  · exact .inl reports
  · exact absurd absent (finished need noted steady)
  · exact .inr ⟨need, type, noted, used, here, steady, found, unusable⟩

/-- What is needed in full is there when it is needed, and is only rejected rightly, exactly if
this is so where the name of a template parameter is written. Every other way of writing a target
leads to a type that is there. -/
theorem check_sees_finished_iff (library : Library) (options : Options) (scripts : List Script)
    (rounds : Nat) (final : Checker)
    (checked : check (Environment.ofScripts library options scripts) rounds = some final) :
    final.SeesFinished ∧ final.RejectsRightly (Environment.ofScripts library options scripts) ↔
      final.SeesParams (Environment.ofScripts library options scripts) := by
  have ended := check_ended (Environment.ofScripts_bound library options scripts) checked
  have accounts := ended.accounts
  constructor
  · rintro ⟨finished, _⟩ need mem steady _
    exact finished need mem steady
  · intro params
    have finished := accounts.seesFinished params
    exact ⟨finished, accounts.rejectsRightly finished⟩

/-- What was needed was there and could be used in the end, for all or for none of the needs. -/
private def Checker.needsAll (c : Checker) (test : Need → Bool) : Bool :=
  c.history.all fun
    | .needed need => test need
    | _ => true

private theorem Checker.needsAll_iff {c : Checker} :
    c.needsAll test = true ↔ ∀ need, .needed need ∈ c.history → test need = true := by
  rw [needsAll, List.all_eq_true]
  constructor
  · exact fun all need mem => all _ mem
  · intro all event mem
    cases event with
    | needed need => exact all need mem
    | _ => rfl

/-- A spread that waits for a model, a copy of an instance and a parameter that is spread. -/
private def demandingText : String :=
  "model A \x7b b: B \x7d model B \x7b ...A; c: C \x7d model C is Box<B> \x7b d: Mix<D> \x7d " ++
    "model D \x7b v: void \x7d model Mix<T> \x7b ...T \x7d model Box<P> \x7b value: P \x7d"

/-- Something was needed in full several times, and was always there. -/
private def isSatisfied (final : Checker) : Bool :=
  final.needsAll (fun need => !need.steady || need.found.isSome) &&
    !final.needsAll (fun need => need.use != .copy) && !final.diagnostics.any (·.isError)

theorem check_sees_finished_iff_demanding :
    ∃ final, check (Environment.ofText demandingText) 8 = some final ∧ isSatisfied final ∧
      final.SeesFinished ∧ final.RejectsRightly (Environment.ofText demandingText) := by
  have returns : (check (Environment.ofText demandingText) 8).any isSatisfied = true := by
    decide +kernel
  obtain ⟨final, checked, satisfied⟩ := (Option.any_eq_true _ _).mp returns
  refine ⟨final, checked, satisfied, (check_sees_finished_iff _ _ _ _ _ checked).mpr ?_⟩
  simp only [isSatisfied, Bool.and_eq_true] at satisfied
  intro need mem steady _
  have there := Checker.needsAll_iff.mp satisfied.1.1 need mem
  simpa [steady, Option.ne_none_iff_isSome] using there

/-- A model with a property whose type spreads the model itself, by way of a parameter. -/
private def unfinishedText : String :=
  "model Node \x7b c: Copy<Node> \x7d model Copy<T> \x7b ...T \x7d"

private def spreadPlace : Location := ⟨⟨1⟩, ⟨1, 46, 4⟩⟩

/-- A spread was reported although every type that was needed is of the right kind. -/
private def isMisjudged (final : Checker) : Bool :=
  Use.finding spreadPlace .spread ∈ final.diagnostics &&
    final.needsAll (fun need => (final.types.get? need.id).any need.use.accepts) &&
    !final.needsAll (fun need => !need.steady || need.found.isSome)

/-- A parameter can stand for a type that is not there yet, and a spread of it is then rejected
although the type turns out to be a model. -/
theorem check_rejects_unfinished :
    ∃ final, check (Environment.ofText unfinishedText) 8 = some final ∧ ¬ final.SeesFinished ∧
      ¬ final.RejectsRightly (Environment.ofText unfinishedText) := by
  have returns : (check (Environment.ofText unfinishedText) 8).any isMisjudged = true := by
    decide +kernel
  obtain ⟨final, checked, misjudged⟩ := (Option.any_eq_true _ _).mp returns
  simp only [isMisjudged, Bool.and_eq_true, decide_eq_true_eq, Bool.not_eq_true'] at misjudged
  obtain ⟨⟨reported, usable⟩, unfinished⟩ := misjudged
  refine ⟨final, checked, fun finished => ?_, fun right => ?_⟩
  · refine Bool.eq_false_iff.mp unfinished (Checker.needsAll_iff.mpr fun need mem => ?_)
    have there := finished need mem
    cases steady : need.steady with
    | false => rfl
    | true => simpa [Option.ne_none_iff_isSome] using there steady
  · rcases right .spread spreadPlace reported with
      ⟨id, definition, _, _, listed, _⟩ | ⟨need, type, mem, used, _, _, found, unusable⟩
    · cases listed
    · have accepted := Checker.needsAll_iff.mp usable need mem
      simp [found, used, unusable] at accepted

/-! So the order in which declarations are written can matter. -/

/-- The items of a namespace in another order, and so for the namespaces in it. -/
inductive Item.Reorders : List Item → List Item → Prop where
  | nil : Reorders [] []
  | cons (item : Item) {one other : List Item} (rest : Reorders one other) :
    Reorders (item :: one) (item :: other)
  | inside (head : NamespaceHead) {inner others : List Item} (body : Reorders inner others)
      (rest : List Item) : Reorders (.space head inner :: rest) (.space head others :: rest)
  | swap (first second : Item) (rest : List Item) :
    Reorders (first :: second :: rest) (second :: first :: rest)
  | trans {one middle other : List Item} (left : Reorders one middle)
      (right : Reorders middle other) : Reorders one other

/-- The files of a program in another order, and in each of them its items. -/
def Script.Reorders (one other : List Script) : Prop :=
  ∃ middle, one.Perm middle ∧ List.Forall₂
    (fun script changed => script.file = changed.file ∧ Item.Reorders script.items changed.items)
    middle other

theorem Item.Reorders.refl (items : List Item) : Reorders items items := by
  induction items with
  | nil => exact .nil
  | cons item _ ih => exact .cons item ih

/-- Every name was declared once. -/
def Binding.Unrivalled (b : Binding) : Prop :=
  ∀ finding ∈ b.diagnostics, finding.code ≠ .duplicateSymbol

instance (b : Binding) : Decidable b.Unrivalled := inferInstanceAs (Decidable (∀ _ ∈ _, _))

/-- A model comes back to itself by way of a template that spreads its parameter. -/
private def roundaboutText : String :=
  "model A \x7b b: B \x7d model B \x7b c: Copy<A> \x7d model Copy<T> \x7b ...T \x7d"

/-- The first two of some items change places. -/
private def exchanged : List Item → List Item
  | first :: second :: rest => second :: first :: rest
  | items => items

private theorem reorders_exchanged (items : List Item) : Item.Reorders items (exchanged items) := by
  unfold exchanged
  split
  · exact .swap _ _ _
  · exact .refl items

private def isRejected (script : Script) : Bool :=
  (check (.ofScripts {} {} [script]) 8).any fun final => final.diagnostics.any (·.isError)

private def isAccepted (script : Script) : Bool :=
  (check (.ofScripts {} {} [script]) 8).any fun final => final.diagnostics = []

/-- Whether a program is accepted can depend on the order of its declarations. -/
theorem check_depends_on_order :
    ∃ one other, Script.Reorders one other ∧
      (Binding.ofScripts [] one).Unrivalled ∧ (Binding.ofScripts [] other).Unrivalled ∧
      (∃ final, check (.ofScripts {} {} one) 8 = some final ∧ ¬ final.Faultless) ∧
      ∃ final, check (.ofScripts {} {} other) 8 = some final ∧ final.Faultless := by
  let change (script : Script) : Script := { script with items := exchanged script.items }
  have orders : ((Script.read ⟨1⟩ roundaboutText).map (·.1)).any (fun script =>
      (Binding.ofScripts [] [script]).Unrivalled && (Binding.ofScripts [] [change script]).Unrivalled &&
        isRejected script && isAccepted (change script)) = true := by
    decide +kernel
  obtain ⟨script, _, holds⟩ := (Option.any_eq_true _ _).mp orders
  simp only [Bool.and_eq_true, decide_eq_true_eq] at holds
  obtain ⟨⟨⟨single, changed⟩, rejected⟩, accepted⟩ := holds
  refine ⟨[script], [change script], ⟨[script], .refl _, .cons ⟨rfl, ?_⟩ .nil⟩, single, changed, ?_, ?_⟩
  · exact reorders_exchanged script.items
  · obtain ⟨final, checked, reported⟩ := (Option.any_eq_true _ _).mp rejected
    obtain ⟨finding, mem, wrong⟩ := List.any_eq_true.mp reported
    refine ⟨final, checked, fun faultless => ?_⟩
    cases (faultless finding mem).symm.trans wrong
  · obtain ⟨final, checked, silent⟩ := (Option.any_eq_true _ _).mp accepted
    refine ⟨final, checked, ?_⟩
    simp [Checker.Faultless, of_decide_eq_true silent]

end Idl
