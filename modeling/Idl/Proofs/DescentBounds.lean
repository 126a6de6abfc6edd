import Idl.Checker
import Mathlib.Data.Finset.Card

/-! Every descent ends. Going down a level uses up one of the resolutions that
may be inside each other, or hands out the type of a template parameter that had
none. Both are bounded, and what is used up comes back only on the way up, so
the levels that `Environment.levels` counts are never exhausted: from any state
whatever, a declaration is checked to its end and a key that was put off is
resolved to its end. -/
namespace Idl

/-- How far checking can still go down: through resolutions inside each other, and through the
defaults of template parameters that were not begun. -/
def Checker.room (env : Environment) (c : Checker) : Nat :=
  (CheckM.maxDepth - c.depth) +
    {index ∈ Finset.range env.symbols.size | c.paramTypes.get? ⟨index⟩ = none}.card

/-- A state on the same level, with at least the same template parameters begun. -/
structure Checker.Level (c after : Checker) : Prop where
  depth : after.depth = c.depth
  params : ∀ param, after.paramTypes.get? param = none → c.paramTypes.get? param = none

namespace Checker
variable {c : Checker}

theorem Level.of_eq (depth : after.depth = c.depth) (params : after.paramTypes = c.paramTypes) :
    c.Level after :=
  ⟨depth, by rw [params]; exact fun _ unbegun => unbegun⟩

theorem Level.trans (first : c.Level middle) (second : middle.Level after) : c.Level after :=
  ⟨second.depth.trans first.depth,
    fun param unbegun => first.params param (second.params param unbegun)⟩

theorem Level.room_le (level : c.Level after) : after.room env ≤ c.room env := by
  unfold room
  rw [level.depth]
  apply Nat.add_le_add_left
  apply Finset.card_le_card
  exact Finset.monotone_filter_right _ fun index _ unbegun => level.params _ unbegun

/-- No state has more room than the levels of checking. -/
theorem room_lt_levels : c.room env < env.levels := by
  have bounded := Finset.card_filter_le (Finset.range env.symbols.size)
    fun index => c.paramTypes.get? ⟨index⟩ = none
  rw [Finset.card_range] at bounded
  simp only [room, Environment.levels]
  omega

/-- A parameter is begun for the first time. -/
theorem room_placeParam (listed : param.index < env.symbols.size)
    (new : c.paramTypes.get? param = none) : (c.placeParam param).2.room env < c.room env := by
  apply Nat.add_lt_add_left
  apply Finset.card_lt_card
  rw [Finset.ssubset_iff_of_subset]
  · have begun : (c.placeParam param).2.paramTypes.get? ⟨param.index⟩ ≠ none := by
      simp [placeParam]
    exact ⟨param.index, by simp [listed, new], by simp [begun]⟩
  · refine Finset.monotone_filter_right _ fun index _ unbegun => ?_
    simp only [placeParam, Dictionary.get?_insert] at unbegun
    split at unbegun
    · cases unbegun
    · exact unbegun

end Checker

/-! Work that goes down no level. -/

/-- A state with other findings and annotations, and another history. -/
def Checker.Annotated (c after : Checker) : Prop :=
  after = { c with
    annotations := after.annotations
    diagnostics := after.diagnostics
    internalErrors := after.internalErrors
    history := after.history }

theorem Checker.Annotated.trans {c : Checker} (first : c.Annotated middle)
    (second : middle.Annotated after) : c.Annotated after := by
  unfold Annotated at *
  rw [second, first]

theorem Checker.annotated_reports (findings : List Diagnostic) :
    ∀ c : Checker, c.Annotated (findings.foldl report c) := by
  induction findings with
  | nil => exact fun c => rfl
  | cons finding rest ih =>
    intro c
    have reported : c.Annotated (c.report finding) := rfl
    exact reported.trans (ih _)

/-- Work that comes to its end and only reports and annotates. -/
def Quiet {α : Type} (work : CheckM α) (c : Checker) : Prop :=
  ∃ a after, work c = some (a, after) ∧ c.Annotated after

namespace Quiet

theorem pure {a : α} : Quiet (pure a) c := ⟨a, c, rfl, rfl⟩

theorem bind {first : CheckM α} (begun : Quiet first c) (rest : ∀ a middle, Quiet (next a) middle) :
    Quiet (first >>= next) c := by
  obtain ⟨a, middle, ran, annotated⟩ := begun
  obtain ⟨b, after, further, last⟩ := rest a middle
  refine ⟨b, after, ?_, annotated.trans last⟩
  show (first c).bind (fun p => next p.1 p.2) = _
  rw [ran]
  exact further

theorem get_bind {next : Checker → CheckM β} (rest : Quiet (next c) c) :
    Quiet (get >>= next) c := rest

theorem modify {change : Checker → Checker} (annotated : c.Annotated (change c)) :
    Quiet (modify change : CheckM PUnit) c := ⟨⟨⟩, change c, rfl, annotated⟩

theorem set (annotated : c.Annotated next) :
    Quiet (set next : CheckM PUnit) c := ⟨⟨⟩, next, rfl, annotated⟩

theorem ite {condition : Prop} [Decidable condition] (whenTrue : Quiet yes c)
    (whenFalse : Quiet no c) : Quiet (if condition then yes else no) c := by
  split
  · exact whenTrue
  · exact whenFalse

end Quiet

namespace CheckM
variable {id : TypeId}

theorem errorAt_quiet {code : Code} : Quiet (errorAt code message location) c := .modify rfl

theorem expectFound_quiet : Quiet (expectFound env resolution name context) c := by
  cases resolution with
  | found id => exact .pure
  | ambiguous candidates | notFound => exact .bind errorAt_quiet fun _ _ => .pure

theorem resolveMembers_quiet : Quiet (resolveMembers env context container path) c := by
  induction path generalizing container with
  | nil => exact .pure
  | cons segment rest ih =>
    unfold resolveMembers
    split
    · exact ih
    · exact .bind errorAt_quiet fun _ _ => .pure

theorem resolvePath_quiet : Quiet (resolvePath env path context) c := by
  refine .bind expectFound_quiet fun found _ => ?_
  cases found with
  | none => exact .pure
  | some id => exact resolveMembers_quiet

theorem decoratorSymbol_quiet : Quiet (decoratorSymbol env path span context) c := by
  have unknown (c : Checker) : Quiet (do
      errorAt .unknownDecorator s!"Unknown decorator @{path.text}" (context.location span)
      return none : CheckM (Option SymbolId)) c := .bind errorAt_quiet fun _ _ => .pure
  unfold decoratorSymbol
  dsimp only
  split
  · exact unknown c
  · refine .bind expectFound_quiet fun found _ => ?_
    cases found with
    | none => exact .pure
    | some start =>
      dsimp only
      split
      · exact unknown _
      · exact .ite .pure (unknown _)

theorem checkDeprecated_quiet : Quiet (checkDeprecated id path location) c := by
  refine .get_bind ?_
  split
  · exact .pure
  · exact errorAt_quiet
  · exact errorAt_quiet

theorem addProperty_quiet : Quiet (addProperty properties property location) c :=
  .ite (.bind errorAt_quiet fun _ _ => .bind (.modify rfl) fun _ _ => .pure) .pure

theorem addProperties_quiet : Quiet (addProperties location properties added) c := by
  induction added generalizing properties c with
  | nil => exact .pure
  | cons property rest ih =>
    exact .bind addProperty_quiet fun _ _ => ih

theorem invoke_quiet : Quiet (invoke env application target kind) c := by
  refine .bind (.modify rfl) fun _ c => ?_
  split
  · exact .modify rfl
  · refine .ite (.get_bind (.set ?_)) (.modify rfl)
    have annotated (annotations : Annotations) : c.Annotated { c with annotations } := rfl
    exact (annotated _).trans (Checker.annotated_reports _ _)

theorem invokeAll_quiet : Quiet (invokeAll env target kind applications) c := by
  induction applications generalizing c with
  | nil => exact .pure
  | cons application rest ih =>
    exact .bind invoke_quiet fun _ _ => ih

theorem invokeProperties_quiet : Quiet (invokeProperties env model properties) c := by
  induction properties generalizing c with
  | nil => exact .pure
  | cons property rest ih => exact .bind invokeAll_quiet fun _ _ => ih

theorem applyDecorators_quiet : Quiet (applyDecorators env id) c := by
  refine .get_bind (.ite .pure ?_)
  split
  · exact .bind invokeProperties_quiet fun _ _ => invokeAll_quiet
  · exact .bind invokeProperties_quiet fun _ _ => invokeAll_quiet
  · exact invokeAll_quiet
  · exact .pure

theorem decorate_quiet : Quiet (decorate env id context) c :=
  .ite applyDecorators_quiet .pure

theorem isModel_quiet : Quiet (isModel env id) c := by
  refine .get_bind ?_
  split <;> exact .pure

theorem rejectDecorators_quiet {c : Checker} : Quiet (rejectDecorators applications) c := by
  induction applications generalizing c with
  | nil => exact .pure
  | cons application rest ih => exact .bind (.modify rfl) fun _ _ => ih

end CheckM

/-! Work that may go down. -/

/-- Work that comes to its end if there is less room than so many levels. -/
def Returns {α : Type} (env : Environment) (levels : Nat) (work : CheckM α) (c : Checker) : Prop :=
  c.room env < levels → ∃ a after, work c = some (a, after) ∧ c.Level after

/-- The work one level down comes to its end. -/
structure Descent.Returns (env : Environment) (levels : Nat) (descent : Descent) : Prop where
  body : ∀ c key id dependent, Idl.Returns env levels (descent.body key id dependent) c
  default : ∀ c expr context, Idl.Returns env levels (descent.default expr context) c

namespace Returns

theorem quiet {work : CheckM α} (quiet : Quiet work c) : Returns env levels work c := by
  obtain ⟨a, after, ran, annotated⟩ := quiet
  refine fun _ => ⟨a, after, ran, ?_⟩
  rw [annotated]
  exact .of_eq rfl rfl

theorem pure {a : α} : Returns env levels (pure a) c := quiet .pure

/-- Two pieces of work in a row. -/
theorem bind {first : CheckM α} (begun : Returns env levels first c)
    (rest : ∀ a middle, Returns env levels (next a) middle) :
    Returns env levels (first >>= next) c := by
  intro room
  obtain ⟨a, middle, ran, level⟩ := begun room
  obtain ⟨b, after, further, last⟩ := rest a middle (Nat.lt_of_le_of_lt level.room_le room)
  refine ⟨b, after, ?_, level.trans last⟩
  show (first c).bind (fun p => next p.1 p.2) = _
  rw [ran]
  exact further

theorem get_bind {next : Checker → CheckM β} (rest : Returns env levels (next c) c) :
    Returns env levels (get >>= next) c := rest

theorem modify {change : Checker → Checker} (level : c.Level (change c)) :
    Returns env levels (modify change : CheckM PUnit) c := fun _ => ⟨⟨⟩, change c, rfl, level⟩

theorem modifyGet {change : Checker → α × Checker} (level : c.Level (change c).2) :
    Returns env levels (modifyGet change : CheckM α) c := fun _ => ⟨_, _, rfl, level⟩

/-- Work that starts with a change of the state, and has no more room after it. -/
theorem modifyGet_bind (level : c.Level (change c).2)
    (less : c.room env < levels → (change c).2.room env < more)
    (rest : Returns env more (next (change c).1) (change c).2) :
    Returns env levels (MonadStateOf.modifyGet change >>= next) c := by
  intro room
  obtain ⟨b, after, ran, further⟩ := rest (less room)
  exact ⟨b, after, ran, level.trans further⟩

theorem map {work : CheckM α} (returns : Returns env levels work c) :
    Returns env levels (f <$> work) c := by
  rw [map_eq_pure_bind]
  exact bind returns fun _ _ => pure

theorem ite {condition : Prop} [Decidable condition] (whenTrue : Returns env levels yes c)
    (whenFalse : Returns env levels no c) :
    Returns env levels (if condition then yes else no) c := by
  split
  · exact whenTrue
  · exact whenFalse

/-- Work that goes down a level, if that is not too deep. -/
theorem enter {down : CheckM α}
    (deeper : c.room env < levels + 1 → Checker.room env { c with depth := c.depth + 1 } < levels →
      ∃ a after, down { c with depth := c.depth + 1 } = some (a, after) ∧ c.Level after)
    (tooDeep : ∀ middle, Returns env (levels + 1) up middle) :
    Returns env (levels + 1) (do if ← CheckM.enter location then down else up) c := by
  intro room
  show ∃ a after, ((if CheckM.maxDepth ≤ c.depth then _ else _ : CheckM Bool) c).bind _ = _ ∧ _
  split
  · obtain ⟨a, after, ran, level⟩ := tooDeep (c.report _) room
    have reported (finding : Diagnostic) : c.Level (c.report finding) := .of_eq rfl rfl
    exact ⟨a, after, ran, (reported _).trans level⟩
  · refine deeper room ?_
    simp only [Checker.room] at room ⊢
    omega

end Returns

namespace Checker
variable {c : Checker}

theorem level_finish (id : TypeId) (type : CheckedType) : c.Level (c.finish id type) := by
  unfold finish
  split
  · exact .of_eq rfl rfl
  · split <;> exact .of_eq rfl rfl

end Checker

namespace CheckM
variable {env : Environment} {descent : Descent} {c : Checker} {id : TypeId}

theorem finish_returns :
    Returns env levels (finish id type) c := .modify (Checker.level_finish id type)

theorem completeWhileResolving_returns :
    Returns env levels (completeWhileResolving env key location) c := by
  refine .get_bind (.ite ?_ .pure)
  split
  · exact .bind (.modify (.of_eq rfl rfl)) fun _ _ => .pure
  · split
    · exact .bind (.modify (.of_eq rfl rfl)) fun _ _ => .pure
    · exact .bind (.modify (.of_eq rfl rfl)) fun _ _ =>
        .bind (.modify (.of_eq rfl rfl)) fun _ _ => .pure

theorem modelExpression_returns :
    Returns env levels (modelExpression env properties context) c := by
  refine .ite (.modifyGet (.of_eq rfl rfl)) (.ite (.get_bind ?_) ?_)
  · split
    · exact .pure
    · exact .modifyGet (.of_eq rfl rfl)
  · exact .bind (.modifyGet (.of_eq rfl rfl)) fun _ _ =>
      .bind (.quiet applyDecorators_quiet) fun _ _ => .pure

theorem evaluating_returns (returns : Returns env levels work c) :
    Returns env levels (evaluating expr work) c :=
  .bind returns fun _ _ => .bind (.modify (.of_eq rfl rfl)) fun _ _ => .pure

theorem gathering_returns {members : List Member} (returns : Returns env levels work c) :
    Returns env levels (gathering members context before work) c :=
  .bind returns fun _ _ => .bind (.modify (.of_eq rfl rfl)) fun _ _ => .pure

/-- Only a symbol of the table has a default. -/
private theorem listed_of_defaultOf {default : FileId × TypeExpr}
    (given : defaultOf (env.symbols.symbol param) = some default) :
    param.index < env.symbols.size := by
  by_contra outside
  have missing : env.symbols.get? param = none := Array.getElem?_eq_none (Nat.not_lt.mp outside)
  rw [SymbolTable.symbol, missing] at given
  cases given

section
variable (below : descent.Returns env levels)
include below

/-! Resolution. -/

/-- The body of a declaration is checked a level down, and the frame ends a level up. -/
private theorem resolveInto_returns (c next : Checker)
    (depth : next.depth = c.depth + 1) (params : next.paramTypes = c.paramTypes)
    (room : next.room env < levels) (key : ResolutionKey) (id : TypeId) (demand : Demand) :
    ∃ a after, resolveInto descent key id demand next = some (a, after) ∧ c.Level after := by
  let pushed := next.push key id demand
  obtain ⟨_, middle, ran, level⟩ := below.body pushed key id (pushed.isDependent id) room
  let raised : Checker := { middle with depth := middle.depth - 1 }
  refine ⟨(raised.pop key id demand).1, (raised.pop key id demand).2, ?_, ?_⟩
  · show (descent.body key id (pushed.isDependent id) pushed).bind _ = _
    rw [ran]
    rfl
  · have popped : raised.Level (raised.pop key id demand).2 := by
      unfold Checker.pop
      dsimp only
      split
      · exact .of_eq rfl rfl
      · split <;> exact .of_eq rfl rfl
    refine Checker.Level.trans ⟨?_, fun param unbegun => ?_⟩ popped
    · show middle.depth - 1 = c.depth
      rw [level.depth]
      show next.depth - 1 = c.depth
      omega
    · rw [← params]
      exact level.params param unbegun

theorem start_returns :
    Returns env (levels + 1) (start env descent key known demand location) c := by
  refine .get_bind (.ite ?_ (.enter (fun _ room => ?_) fun middle => ?_))
  · refine .bind ?_ fun id middle => .bind (.modify (.of_eq rfl rfl)) fun _ _ => .pure
    cases known with
    | some id => exact .pure
    | none => exact .modifyGet (.of_eq rfl rfl)
  · cases known with
    | some id =>
      exact resolveInto_returns below c { c with depth := c.depth + 1 } rfl rfl room key id demand
    | none =>
      exact resolveInto_returns below c (Checker.place { c with depth := c.depth + 1 } _ key).2
        rfl rfl room key _ demand
  · exact .ite (.bind (.modify (.of_eq rfl rfl)) fun _ _ => .pure) .pure

theorem resolveKey_returns :
    Returns env (levels + 1) (resolveKey env descent key demand location) c := by
  refine .get_bind ?_
  split
  · exact .pure
  · exact .pure
  · exact .pure
  · exact completeWhileResolving_returns
  · exact .pure
  · exact start_returns below
  · exact start_returns below

theorem resolveSymbol_returns :
    Returns env (levels + 1) (resolveSymbol env descent symbol args demand location) c :=
  .bind (.modify (.of_eq rfl rfl)) fun _ _ =>
    .bind (resolveKey_returns below) fun _ _ => .bind (.modify (.of_eq rfl rfl)) fun _ _ => .pure

/-! Templates. -/

theorem paramType_returns : Returns env (levels + 1) (paramType env descent param) c := by
  refine .get_bind ?_
  split
  · exact .pure
  · rename_i new
    have begun : c.Level (c.placeParam param).2 := by
      refine ⟨rfl, fun other unbegun => ?_⟩
      simp only [Checker.placeParam, Dictionary.get?_insert] at unbegun
      split at unbegun
      · cases unbegun
      · exact unbegun
    dsimp only
    split
    · rename_i file expr given
      -- The default is checked with one more parameter begun, which leaves less room.
      have less := Checker.room_placeParam (listed_of_defaultOf given) new
      refine .modifyGet_bind begun (fun room => Nat.lt_of_lt_of_le less (Nat.lt_succ_iff.mp room)) ?_
      exact .bind (.map (below.default _ expr _)) fun _ _ => .bind finish_returns fun _ _ => .pure
    · exact .modifyGet_bind begun (Nat.lt_of_le_of_lt begun.room_le)
        (.bind .pure fun _ _ => .bind finish_returns fun _ _ => .pure)

theorem paramTypes_returns : Returns env (levels + 1) (paramTypes env descent params) c := by
  induction params generalizing c with
  | nil => exact .pure
  | cons param rest ih =>
    exact .bind (paramType_returns below) fun _ _ => .bind ih fun _ _ => .pure

theorem checkDeclaration_returns :
    Returns env (levels + 1) (checkDeclaration env descent symbol) c :=
  .bind (paramTypes_returns below) fun _ _ => resolveSymbol_returns below

/-- A default is checked a level down, and what follows is done a level up. -/
private theorem default_returns {next : TypeId → CheckM α}
    (rest : ∀ value middle, Returns env (levels + 1) (next value) middle) (expr : TypeExpr)
    (context : Context) (room : c.room env < levels + 1)
    (less : Checker.room env { c with depth := c.depth + 1 } < levels) :
    ∃ a after, (do
      let value ← descent.default expr context
      leave
      next value) { c with depth := c.depth + 1 } = some (a, after) ∧ c.Level after := by
  obtain ⟨value, middle, ran, level⟩ := below.default _ expr context less
  let raised : Checker := { middle with depth := middle.depth - 1 }
  have up : c.Level raised := by
    refine ⟨?_, level.params⟩
    show middle.depth - 1 = c.depth
    rw [level.depth, Nat.add_sub_cancel]
  obtain ⟨a, after, further, last⟩ := rest value raised (Nat.lt_of_le_of_lt up.room_le room)
  refine ⟨a, after, ?_, up.trans last⟩
  show (descent.default expr context _).bind _ = _
  rw [ran]
  exact further

theorem fillDefaults_returns {c : Checker} : Returns env (levels + 1)
      (fillDefaults env descent template explicit location bound rest args) c := by
  induction rest generalizing bound args c with
  | nil => exact .pure
  | cons param rest ih =>
    unfold fillDefaults
    dsimp only
    split
    · exact .bind (.quiet errorAt_quiet) fun _ _ => .pure
    · rename_i file expr given
      split
      · exact .bind (.modify (.of_eq rfl rfl)) fun _ _ => .pure
      · rename_i subst bound
        refine .bind (.get_bind .pure) fun dependent _ => .enter ?_ fun _ => .pure
        refine default_returns below (fun value _ => ?_) expr _
        exact .bind (.get_bind .pure) fun _ _ => .ite .pure ih

theorem instantiate_returns :
    Returns env (levels + 1) (instantiate env descent template args location demand) c := by
  refine .get_bind (.ite .pure (.ite (.bind (.quiet errorAt_quiet) fun _ _ => .pure) ?_))
  refine .bind (fillDefaults_returns below) fun filled _ => ?_
  cases filled with
  | none => exact .pure
  | some args => exact resolveSymbol_returns below

/-! Expressions. -/

theorem arrayOf_returns :
    Returns env (levels + 1) (arrayOf env descent element location demand) c := by
  unfold arrayOf
  split
  · exact instantiate_returns below
  · exact .bind (.quiet errorAt_quiet) fun _ _ => .pure

mutual

-- The recursion is on what is written. Other declarations are reached one level further down,
-- where work comes to its end by assumption.
theorem typeExpr_returns {c : Checker} :
    Returns env (levels + 1) (typeExpr env descent expr context demand) c := by
  cases expr with
  | reference path args hasArgs span =>
    unfold typeExpr
    refine evaluating_returns (.bind (.quiet resolvePath_quiet) fun found _ => ?_)
    cases found with
    | none => exact .pure
    | some id =>
      dsimp only
      split
      · exact .bind (.quiet errorAt_quiet) fun _ _ => .pure
      · exact .bind (.quiet errorAt_quiet) fun _ _ => .pure
      · refine .ite (.bind (.quiet errorAt_quiet) fun _ _ => .pure) ?_
        split
        · exact .pure
        · exact paramType_returns below
      all_goals
        refine .bind typeExprs_returns fun types _ => .ite ?_ (.ite ?_ ?_)
        · exact .bind (instantiate_returns below) fun _ _ =>
            .bind (.quiet checkDeprecated_quiet) fun _ _ => .pure
        · exact .bind (.quiet errorAt_quiet) fun _ _ => .pure
        · exact .bind (resolveSymbol_returns below) fun _ _ =>
            .bind (.quiet checkDeprecated_quiet) fun _ _ => .pure
  | intrinsic kind span =>
    unfold typeExpr
    exact evaluating_returns .pure
  | union first rest span =>
    unfold typeExpr
    exact evaluating_returns (.bind typeExpr_returns fun _ _ =>
      .bind typeExprs_returns fun _ _ => .modifyGet (.of_eq rfl rfl))
  | model members span =>
    unfold typeExpr
    exact evaluating_returns
      (.bind (gathering_returns memberList_returns) fun _ _ =>
        .bind modelExpression_returns fun _ _ => .bind (.modify (.of_eq rfl rfl)) fun _ _ => .pure)
  | array element span =>
    unfold typeExpr
    exact evaluating_returns (.bind typeExpr_returns fun _ _ => arrayOf_returns below)

theorem typeExprs_returns {c : Checker} :
    Returns env (levels + 1) (typeExprs env descent exprs context) c := by
  cases exprs with
  | nil => exact .pure
  | cons expr rest =>
    exact .bind typeExpr_returns fun _ _ => .bind typeExprs_returns fun _ _ => .pure

theorem member_returns {c : Checker} :
    Returns env (levels + 1) (member env descent written context properties) c := by
  cases written with
  | property decorators name optional type span =>
    exact .bind typeExpr_returns fun _ _ =>
      .bind decoratorList_returns fun _ _ => .quiet addProperty_quiet
  | spread target span =>
    refine .bind typeExpr_returns fun source _ =>
      .bind (.modify (.of_eq rfl rfl)) fun _ _ => .bind (.get_bind .pure) fun found _ => ?_
    split
    · exact .quiet addProperties_quiet
    · exact .pure
    · exact .pure
    · exact .bind (.modify (.of_eq rfl rfl)) fun _ _ => .pure

theorem memberList_returns {c : Checker} :
    Returns env (levels + 1) (memberList env descent members context properties) c := by
  cases members with
  | nil => exact .pure
  | cons first rest =>
    exact .bind member_returns fun _ _ => memberList_returns

theorem decorator_returns {c : Checker} :
    Returns env (levels + 1) (decorator env descent written context) c := by
  cases written with
  | use path args span =>
    refine .bind (.quiet decoratorSymbol_quiet) fun found _ => ?_
    cases found with
    | none => exact .pure
    | some id =>
      dsimp only
      split
      · refine .bind decoratorArgs_returns fun values _ => ?_
        cases values with
        | none => exact .pure
        | some values => exact .pure
      · exact .bind (.modify (.of_eq rfl rfl)) fun _ _ => .pure

theorem decoratorList_returns {c : Checker} :
    Returns env (levels + 1) (decoratorList env descent written context) c := by
  cases written with
  | nil => exact .pure
  | cons first rest =>
    exact .bind decorator_returns fun _ _ => .bind decoratorList_returns fun _ _ => .pure

theorem decoratorArg_returns {c : Checker} :
    Returns env (levels + 1) (decoratorArg env descent arg context) c := by
  cases arg with
  | literal value span => cases value <;> exact .pure
  | type expr =>
    exact .bind typeExpr_returns fun _ _ => .bind (.get_bind .pure) fun _ _ => .ite .pure .pure

theorem decoratorArgs_returns {c : Checker} :
    Returns env (levels + 1) (decoratorArgs env descent args context) c := by
  cases args with
  | nil => exact .pure
  | cons first rest =>
    refine .bind decoratorArg_returns fun value _ => ?_
    cases value with
    | none => exact .pure
    | some value => exact .map decoratorArgs_returns

end

/-! Declarations. -/

theorem sourceOf_returns :
    Returns env (levels + 1) (sourceOf env descent source context model) c := by
  refine .bind (typeExpr_returns below) fun id _ =>
    .bind (.modify (.of_eq rfl rfl)) fun _ _ => .bind (.get_bind .pure) fun found _ => ?_
  split
  · exact .pure
  · exact .pure
  · exact .pure
  · exact .bind (.modify (.of_eq rfl rfl)) fun _ _ => .pure

theorem baseOf_returns :
    Returns env (levels + 1) (baseOf env descent symbol id base context model) c := by
  refine .bind (typeExpr_returns below) fun found _ =>
    .get_bind (.ite (.bind (.quiet errorAt_quiet) fun _ _ => .pure) ?_)
  refine .bind (.quiet isModel_quiet) fun _ _ => .ite ?_ ?_
  · exact .bind (.modify (.of_eq rfl rfl)) fun _ _ => .pure
  · split
    · exact .pure
    · exact .pure
    · exact .bind (.quiet errorAt_quiet) fun _ _ => .pure

theorem modelBody_returns :
    Returns env (levels + 1) (modelBody env descent symbol decl template context id) c := by
  have members (model : ModelType) (middle : Checker) : Returns env (levels + 1) (do
      let properties ← gathering decl.members context model.properties
        (memberList env descent decl.members context model.properties)
      let own ← decoratorList env descent decl.decorators context
      finish id (.model { model with properties, decorators := model.decorators ++ own })
      decorate env id context) middle :=
    .bind (gathering_returns (memberList_returns below)) fun _ _ =>
      .bind (decoratorList_returns below) fun _ _ =>
        .bind finish_returns fun _ _ => .quiet decorate_quiet
  unfold modelBody
  dsimp only
  split
  · exact .bind .pure members
  · exact .bind (sourceOf_returns below) members
  · exact .bind (baseOf_returns below) members

theorem writtenOperation_returns : Returns env (levels + 1)
      (writtenOperation env descent operation decl parameters returns context id) c :=
  .bind (gathering_returns (memberList_returns below)) fun _ _ =>
    .bind (.modifyGet (.of_eq rfl rfl)) fun _ _ =>
      .bind (typeExpr_returns below) fun _ _ =>
        .bind (decoratorList_returns below) fun _ _ =>
          .bind finish_returns fun _ _ => .quiet decorate_quiet

theorem reusingOperation_returns : Returns env (levels + 1)
      (reusingOperation env descent operation decl source context id) c := by
  refine .bind (typeExpr_returns below) fun sourceId _ =>
    .bind (.modify (.of_eq rfl rfl)) fun _ _ =>
      .bind (decoratorList_returns below) fun own _ => .bind (.get_bind .pure) fun found _ => ?_
  split
  · refine .ite (.bind (.quiet errorAt_quiet) fun _ _ => finish_returns) (.get_bind ?_)
    exact .bind (.modifyGet (.of_eq rfl rfl)) fun _ _ =>
      .bind finish_returns fun _ _ => .quiet decorate_quiet
  · exact finish_returns
  · exact finish_returns
  · exact .bind (.modify (.of_eq rfl rfl)) fun _ _ => finish_returns

theorem checkOperations_returns
    {c : Checker} : Returns env (levels + 1) (checkOperations env descent operations) c := by
  induction operations generalizing c with
  | nil => exact .pure
  | cons operation rest ih =>
    exact .bind (checkDeclaration_returns below) fun _ _ =>
      .bind (.modify (.of_eq rfl rfl)) fun _ _ => .bind ih fun _ _ => .pure

theorem interfaceBody_returns :
    Returns env (levels + 1) (interfaceBody env descent symbol decl context id) c :=
  .bind (checkOperations_returns below) fun _ _ =>
    .bind (decoratorList_returns below) fun _ _ =>
      .bind finish_returns fun _ _ => .quiet decorate_quiet

theorem symbolBody_returns :
    Returns env (levels + 1) (symbolBody env descent key id dependent) c := by
  have failed (error : InternalError) : Returns env (levels + 1) (do
      internalError error
      finish id .error) c := .bind (.modify (.of_eq rfl rfl)) fun _ _ => finish_returns
  unfold symbolBody
  dsimp only
  split
  · exact failed _
  · split
    · exact failed _
    · split
      · exact modelBody_returns below
      · unfold operationBody
        dsimp only
        split
        · exact writtenOperation_returns below
        · exact reusingOperation_returns below
      · exact interfaceBody_returns below
      · exact failed _

end

/-- The levels of checking, one below the other. -/
theorem descentOf_returns (levels : Nat) : (descentOf env levels).Returns env levels := by
  induction levels with
  | zero =>
    exact ⟨fun _ _ _ _ room => absurd room (Nat.not_lt_zero _),
      fun _ _ _ room => absurd room (Nat.not_lt_zero _)⟩
  | succ levels ih =>
    exact ⟨fun _ key id dependent => symbolBody_returns ih,
      fun _ expr context => typeExpr_returns ih⟩

/-! The pieces of work of a whole check. -/

variable (below : descent.Returns env levels)
include below

theorem resume_returns : Returns env (levels + 1) (resume descent key) c := by
  refine .get_bind ?_
  split
  · rename_i id waiting
    refine .enter (fun _ room => ?_) fun _ => .pure
    obtain ⟨_, after, ran, level⟩ := resolveInto_returns below c { c with depth := c.depth + 1 }
      rfl rfl room key id .reference
    refine ⟨(), after, ?_, level⟩
    show (resolveInto descent key id .reference _).bind _ = _
    rw [ran]
    rfl
  · exact .pure

theorem checkNamespace_returns {c : Checker} :
    Returns env (levels + 1) (checkNamespace env descent node declarations) c := by
  induction declarations generalizing c with
  | nil => exact .pure
  | cons declaration rest ih =>
    obtain ⟨location, definition⟩ := declaration
    cases definition with
    | space head =>
      exact .bind (decoratorList_returns below) fun applications _ =>
        .bind (.quiet rejectDecorators_quiet) fun _ _ => ih
    | _ => exact ih

theorem visit_returns : Returns env (levels + 1) (visit env descent symbol) c := by
  have declared : Returns env (levels + 1) (do
      let id ← checkDeclaration env descent symbol.id
      modify fun c => { c with symbolTypes := c.symbolTypes.insert symbol.id id }) c :=
    .bind (checkDeclaration_returns below) fun _ _ => .modify (.of_eq rfl rfl)
  unfold visit
  split
  · exact declared
  · exact declared
  · exact declared
  · split
    · exact checkNamespace_returns below
    · exact .pure
  · exact .pure
  · exact .pure

end CheckM

end Idl
