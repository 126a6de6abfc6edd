import Idl.Proofs.DeferredRounds

/-! Templates that make keys without end. Two templates grow each other again if
the first has a property of an instance of the second, and the second spreads
the first and refers to the first of the first. Each instance of the second is
given up because it needs the instance of the first that is under work, and the
larger instance that it refers to is put off with it, to be taken up with nothing
under work around it. The bound on resolutions inside each other never comes into
play, and every two rounds of what was put off leave two more keys. -/
namespace Idl
variable {id : TypeId}

/-! What the order of the work depends on. -/

structure Outline where
  states : ResolutionKey → Option ResolutionState
  stack : List Frame
  abandoning : Option Nat
  deferred : List ResolutionKey
  depth : Nat
  size : Nat
  wrong : TypeId → Bool

def Checker.outline (c : Checker) : Outline where
  states := fun key => c.resolutions.get? key
  stack := c.stack
  abandoning := c.abandoning
  deferred := c.deferred
  depth := c.depth
  size := c.types.size
  wrong := c.types.isError

namespace Outline

/-- A key comes into a state. -/
def turn (o : Outline) (key : ResolutionKey) (state : ResolutionState) : Outline :=
  { o with states := fun other => if key = other then some state else o.states other }

def defer (o : Outline) (key : ResolutionKey) (id : TypeId) : Outline :=
  { o.turn key (.deferred id) with deferred := key :: o.deferred }

def push (o : Outline) (key : ResolutionKey) (id : TypeId) (demand : Demand) : Outline :=
  { o.turn key (.resolving id) with stack := ⟨key, id, demand⟩ :: o.stack }

end Outline

namespace Checker
variable {c : Checker}

theorem outline_setState (key : ResolutionKey) (state : ResolutionState) :
    (c.setState key state).outline = c.outline.turn key state := by
  simp only [outline, setState, log, Outline.turn, Dictionary.get?_insert]

theorem outline_defer (key : ResolutionKey) (id : TypeId) :
    (c.defer key id).outline = c.outline.defer key id := by
  simp only [outline, defer, setState, log, Outline.defer, Outline.turn, Dictionary.get?_insert]

theorem outline_push (key : ResolutionKey) (id : TypeId) (demand : Demand) :
    (c.push key id demand).outline = c.outline.push key id demand := by
  simp only [outline, push, setState, log, Outline.push, Outline.turn, Dictionary.get?_insert]

theorem outline_place (symbols : SymbolTable) (key : ResolutionKey) :
    (c.place symbols key).2.outline = { c.outline with size := c.outline.size + 1 } := by
  have wrong : c.types.reserve.2.isError = c.types.isError := by
    funext id
    simp only [TypeStore.isError, TypeStore.get?_reserve]
  simp only [outline, place, wrong]
  simp [TypeStore.reserve, TypeStore.size]

theorem Annotated.outline (annotated : c.Annotated after) : after.outline = c.outline := by
  rw [annotated]
  rfl

/-- Storing a model makes nothing an error. -/
private theorem isError_finish {store after : TypeStore}
    (stored : store.finish id (.model model) = .ok after) :
    after.size = store.size ∧ after.isError = store.isError := by
  have found := TypeStore.get?_finish stored
  unfold TypeStore.finish at stored
  split at stored
  · rename_i reserved
    have empty : store.get? id = none := by simp [TypeStore.get?, reserved]
    cases stored
    refine ⟨by simp [TypeStore.size], funext fun other => ?_⟩
    simp only [TypeStore.isError, found]
    split
    · rename_i same
      rw [same, empty]
      rfl
    · rfl
  · cases stored
  · cases stored

theorem outline_finish (id : TypeId) (model : ModelType) :
    (c.finish id (.model model)).outline = c.outline := by
  unfold finish
  split
  · rfl
  · split
    · rename_i types stored
      obtain ⟨size, wrong⟩ := isError_finish stored
      simp only [outline, log, size, wrong]
    · rfl

end Checker

/-- Every result of the work from a state of this outline is as described. -/
def Traces {α : Type} (work : CheckM α) (o : Outline) (result : α → Outline → Prop) : Prop :=
  ∀ c : Checker, c.outline = o → Ensures work c fun a after => result a after.outline

namespace Traces

theorem pure (held : result a o) : Traces (pure a) o result := by
  rintro c rfl
  exact Ensures.pure_iff.mpr held

theorem bind (begun : Traces first o between)
    (rest : ∀ a middle, between a middle → Traces (next a) middle result) :
    Traces (first >>= next) o result := by
  intro c same
  refine Ensures.bind (begun c same) fun a middle held => ?_
  exact rest a middle.outline held middle rfl

theorem weaken (traces : Traces work o first)
    (follows : ∀ a after, first a after → second a after) : Traces work o second :=
  fun c same => (traces c same).weaken fun a after held => follows a after.outline held

/-- Work that only reports and annotates. -/
theorem quiet (quiet : ∀ c, Quiet work c) (held : ∀ a, result a o) : Traces work o result := by
  rintro c rfl a after ran
  obtain ⟨b, last, same, annotated⟩ := quiet c
  cases ran.symm.trans same
  rw [annotated.outline]
  exact held a

theorem quiet_bind (silent : ∀ c, Quiet first c) (rest : ∀ a, Traces (next a) o result) :
    Traces (first >>= next) o result := by
  have begun : Traces first o fun _ after => after = o := quiet silent fun _ => rfl
  refine bind begun ?_
  rintro a _ rfl
  exact rest a

/-- Work that gives one value and leaves the outline as it was. -/
theorem value_bind (begun : Traces first o fun a after => a = value ∧ after = o)
    (rest : Traces (next value) o result) : Traces (first >>= next) o result := by
  refine bind begun ?_
  rintro _ _ ⟨rfl, rfl⟩
  exact rest

/-- A change of the state that the outline does not show. -/
theorem modify_bind (same : ∀ c : Checker, (change c).outline = c.outline)
    (rest : Traces (next ⟨⟩) o result) :
    Traces ((modify change : CheckM PUnit) >>= next) o result := by
  rintro c rfl
  rw [Ensures.bind_iff, Ensures.modify_iff]
  exact rest _ (same c)

end Traces

/-! Resolution. -/

namespace CheckM

/-- What the resolution of a key gives is written down. -/
private theorem resolveSymbol_traces
    (resolves : Traces (resolveKey env descent ⟨symbol, args⟩ demand location) o result) :
    Traces (resolveSymbol env descent symbol args demand location) o result := by
  refine .modify_bind (fun _ => rfl) (Traces.bind resolves fun id middle held => ?_)
  exact .modify_bind (fun _ => rfl) (.pure held)

/-- What is evaluated is written down. -/
private theorem evaluating_traces (traces : Traces work o result) :
    Traces (evaluating expr work) o result := by
  refine Traces.bind traces fun id middle held => ?_
  exact .modify_bind (fun _ => rfl) (.pure held)

/-- A key whose place is given at once. -/
theorem resolveSymbol_known
    (known : o.states ⟨symbol, args⟩ = some (.resolved id) ∨ demand = .reference ∧
      (o.states ⟨symbol, args⟩ = some (.resolving id) ∨
        o.states ⟨symbol, args⟩ = some (.deferred id))) (held : result id o) :
    Traces (resolveSymbol env descent symbol args demand location) o result := by
  refine resolveSymbol_traces ?_
  rintro c rfl
  unfold resolveKey
  rw [Ensures.bind_iff, Ensures.get_iff]
  simp only [Checker.outline] at known
  rcases known with resolved | ⟨rfl, resolving | deferred⟩
  · simp only [resolved]
    exact Ensures.pure_iff.mpr held
  · simp only [resolving]
    exact Ensures.pure_iff.mpr held
  · simp only [deferred]
    exact Ensures.pure_iff.mpr held

/-- A new key while a frame is given up. -/
theorem resolveSymbol_postponed (unwinding : o.abandoning = some below)
    (new : o.states ⟨symbol, args⟩ = none)
    (held : result ⟨o.size⟩ ({ o with size := o.size + 1 }.defer ⟨symbol, args⟩ ⟨o.size⟩)) :
    Traces (resolveSymbol env descent symbol args .reference location) o result := by
  refine resolveSymbol_traces ?_
  rintro c rfl
  unfold resolveKey start reserveFor
  rw [Ensures.bind_iff, Ensures.get_iff]
  simp only [Checker.outline] at new unwinding
  simp only [new]
  rw [Ensures.bind_iff, Ensures.get_iff]
  refine Ensures.ite (fun _ => ?_) fun idle => absurd (by simp [unwinding]) idle
  rw [Ensures.bind_iff, Ensures.modifyGet_iff, Ensures.bind_iff, Ensures.modify_iff,
    Ensures.pure_iff, Checker.outline_defer, Checker.outline_place]
  exact held

/-- A new key while nothing is given up. -/
theorem resolveSymbol_starts (idle : o.abandoning = none) (shallow : o.depth < maxDepth)
    (new : o.states ⟨symbol, args⟩ = none)
    (rest : Traces (resolveInto descent ⟨symbol, args⟩ ⟨o.size⟩ demand)
      { o with depth := o.depth + 1, size := o.size + 1 } result) :
    Traces (resolveSymbol env descent symbol args demand location) o result := by
  refine resolveSymbol_traces ?_
  rintro c rfl
  unfold resolveKey start reserveFor
  rw [Ensures.bind_iff, Ensures.get_iff]
  simp only [Checker.outline] at new idle
  simp only [new]
  rw [Ensures.bind_iff, Ensures.get_iff]
  refine Ensures.ite (fun unwinding => by simp [idle] at unwinding) fun _ => ?_
  refine Ensures.bind enter_ensures ?_
  rintro _ _ (⟨rfl, rfl⟩ | ⟨_, deep, _⟩)
  · simp only [↓reduceIte]
    rw [Ensures.bind_iff, Ensures.modifyGet_iff]
    exact rest _ (Checker.outline_place _ _)
  · exact absurd deep (Nat.not_le.mpr shallow)

/-- A key under work that is demanded in full by a frame that a reference started. -/
theorem resolveSymbol_abandons (idle : o.abandoning = none) (stacked : o.stack = [top, bottom])
    (reference : top.demand = .reference) (apart : top.key ≠ ⟨symbol, args⟩)
    (under : bottom.key = ⟨symbol, args⟩)
    (resolving : o.states ⟨symbol, args⟩ = some (.resolving id))
    (held : result TypeStore.error { o with abandoning := some 1 }) :
    Traces (resolveSymbol env descent symbol args .complete location) o result := by
  refine resolveSymbol_traces ?_
  rintro c rfl
  unfold resolveKey completeWhileResolving
  rw [Ensures.bind_iff, Ensures.get_iff]
  simp only [Checker.outline] at resolving idle stacked
  simp only [resolving]
  rw [Ensures.bind_iff, Ensures.get_iff]
  have height : c.stack.findIdx? (·.key = ⟨symbol, args⟩) = some 1 := by
    simp [stacked, List.findIdx?_cons, apart, under]
  have youngest : (c.stack.take 1).findIdx? (·.demand = .reference) = some 0 := by
    simp [stacked, List.findIdx?_cons, reference]
  have given : (c.abandon 0).outline = { c.outline with abandoning := some 1 } := by
    simp [Checker.abandon, Checker.outline, stacked]
  simp only [idle, Option.isNone_none, ↓reduceIte, height, youngest]
  rw [Ensures.bind_iff, Ensures.modify_iff, Ensures.pure_iff, given]
  exact held

/-- A frame that ends with its type stored. -/
theorem resolveInto_done
    (body : ∀ dependent, Traces (descent.body key id dependent) (o.push key id demand)
      fun _ after => after.abandoning = none ∧ after.states key = some (.resolving id) ∧
        result id ({ after with
          stack := after.stack.tail, depth := after.depth - 1 }.turn key (.resolved id))) :
    Traces (resolveInto descent key id demand) o result := by
  rintro c rfl
  unfold resolveInto isDependent leaveFrame leave
  rw [Ensures.bind_iff, Ensures.modify_iff, Ensures.bind_iff, Ensures.bind_iff, Ensures.get_iff,
    Ensures.pure_iff]
  refine Ensures.bind (body _ _ (Checker.outline_push key id demand)) ?_
  rintro _ after ⟨idle, resolving, held⟩
  rw [Ensures.bind_iff, Ensures.modify_iff, Ensures.modifyGet_iff]
  simp only [Checker.outline] at idle resolving
  have popped : Checker.pop { after with depth := after.depth - 1 } key id demand =
      (id, Checker.setState { after with
        stack := after.stack.tail, depth := after.depth - 1 } key (.resolved id)) := by
    simp only [Checker.pop, idle, resolving, Option.any_none, Bool.false_eq_true, ↓reduceIte]
  rw [popped, Checker.outline_setState]
  exact held

/-- A frame that is given up. -/
theorem resolveInto_given
    (body : ∀ dependent, Traces (descent.body key id dependent) (o.push key id demand)
      fun _ after => after.abandoning = some (after.stack.length - 1) ∧
        result (Checker.handedOut id demand) ({ after with
          stack := after.stack.tail, abandoning := none, depth := after.depth - 1 }.defer key id)) :
    Traces (resolveInto descent key id demand) o result := by
  rintro c rfl
  unfold resolveInto isDependent leaveFrame leave
  rw [Ensures.bind_iff, Ensures.modify_iff, Ensures.bind_iff, Ensures.bind_iff, Ensures.get_iff,
    Ensures.pure_iff]
  refine Ensures.bind (body _ _ (Checker.outline_push key id demand)) ?_
  rintro _ after ⟨unwinding, held⟩
  rw [Ensures.bind_iff, Ensures.modify_iff, Ensures.modifyGet_iff]
  simp only [Checker.outline] at unwinding
  simp only [Checker.pop, unwinding, Option.any_some, Nat.le_refl, decide_true, ↓reduceIte,
    Checker.outline_defer]
  exact held

/-- A key that was put off is taken up. -/
theorem resume_traces {result : Unit → Outline → Prop} (shallow : o.depth < maxDepth)
    (waiting : o.states key = some (.deferred id))
    (rest : Traces (resolveInto descent key id .reference) { o with depth := o.depth + 1 }
      fun _ after => result () after) : Traces (resume descent key) o result := by
  rintro c rfl
  unfold resume
  rw [Ensures.bind_iff, Ensures.get_iff]
  simp only [Checker.outline] at waiting
  simp only [waiting]
  refine Ensures.bind enter_ensures ?_
  rintro _ _ (⟨rfl, rfl⟩ | ⟨_, deep, _⟩)
  · exact Ensures.map_iff.mpr (rest _ rfl)
  · exact absurd deep (Nat.not_le.mpr shallow)

end CheckM

/-! Templates of one parameter. -/

namespace Environment

/-- Whether an expression is the name of a parameter. -/
def isParam (env : Environment) (scope : Scope) (param : SymbolId) : TypeExpr → Bool
  | .reference path [] false _ =>
    env.symbols.named? scope path = some param ∧
      (env.symbols.symbol param).kind = .templateParameter
  | _ => false

/-- Whether a model is built on nothing, or on what its parameter stands for. -/
def isBare (env : Environment) (scope : Scope) (param : SymbolId) : Heritage → Bool
  | .plain => true
  | .extends base => env.isParam scope param base
  | .is _ => false

/-- The parameter and the members of a model with one parameter. -/
def template? (env : Environment) (id : SymbolId) : Option (SymbolId × List Member) :=
  let symbol := env.symbols.symbol id
  match symbol.kind, symbol.templated, symbol.templateParams, symbol.declarations.head? with
  | .model, true, [param], some ⟨_, .model ⟨[], _, _, heritage, members, _⟩⟩ =>
    if env.isBare symbol.bodyScope param heritage then some (param, members) else none
  | _, _, _, _ => none

/-- The templates that an expression applies to a parameter, the outermost first. -/
def applied? (env : Environment) (scope : Scope) (param : SymbolId) :
    TypeExpr → Option (List SymbolId)
  | .reference path [arg] true _ =>
    match env.symbols.named? scope path, env.applied? scope param arg with
    | some symbol, some inner =>
      if (env.template? symbol).isSome then some (symbol :: inner) else none
    | _, _ => none
  | expr => if env.isParam scope param expr then some [] else none

/-- Whether the first template has a property of the second, and the second spreads the first and
has a property of the first of the first. -/
def regrows (env : Environment) (first second : SymbolId) : Bool :=
  match env.template? first, env.template? second with
  | some (param, [.property [] _ _ whole _]), some (other, [.spread base _, .property [] _ _ next _]) =>
    env.applied? (env.symbols.symbol first).bodyScope param whole = some [second] &&
      env.applied? (env.symbols.symbol second).bodyScope other base = some [first] &&
      env.applied? (env.symbols.symbol second).bodyScope other next = some [first, first]
  | _, _ => false

/-- What `template?` finds. -/
structure Template (env : Environment) (id param : SymbolId) (members : List Member) : Prop where
  kind : (env.symbols.symbol id).kind = .model
  templated : (env.symbols.symbol id).templated = true
  params : (env.symbols.symbol id).templateParams = [param]
  declared : ∃ location decl,
    (env.symbols.symbol id).declarations.head? = some ⟨location, .model decl⟩ ∧
      decl.decorators = [] ∧ decl.members = members ∧
      env.isBare (env.symbols.symbol id).bodyScope param decl.heritage = true

variable {env : Environment} {id : SymbolId} {inner : List SymbolId}

theorem Template.of_found (found : env.template? id = some (param, members)) :
    env.Template id param members := by
  unfold template? at found
  dsimp only at found
  split at found
  · rename_i kind templated params declared
    split at found
    · rename_i bare
      cases found
      exact ⟨kind, templated, params, _, _, declared, rfl, rfl, bare⟩
    · cases found
  · cases found

/-- An expression that applies nothing is the parameter. -/
theorem applied?_nil (applied : env.applied? scope param expr = some []) :
    env.isParam scope param expr = true := by
  unfold applied? at applied
  split at applied
  · split at applied
    · split at applied <;> cases applied
    · cases applied
  · split at applied
    · assumption
    · cases applied

theorem applied?_cons (applied : env.applied? scope param expr = some (symbol :: inner)) :
    ∃ path arg span, expr = .reference path [arg] true span ∧
      env.symbols.named? scope path = some symbol ∧
      env.applied? scope param arg = some inner ∧ ∃ own members, env.Template symbol own members := by
  unfold applied? at applied
  split at applied
  · rename_i path arg span
    split at applied
    · rename_i found below named within
      split at applied
      · rename_i template
        cases applied
        obtain ⟨⟨own, members⟩, found⟩ := Option.isSome_iff_exists.mp template
        exact ⟨path, arg, span, rfl, named, within, own, members, .of_found found⟩
      · cases applied
    · cases applied
  · split at applied <;> cases applied

/-- What `regrows` finds. -/
structure Regrows (env : Environment) (first second : SymbolId) : Prop where
  whole : ∃ param name optional whole span,
    env.Template first param [.property [] name optional whole span] ∧
      env.applied? (env.symbols.symbol first).bodyScope param whole = some [second]
  grown : ∃ param base spread name optional next span,
    env.Template second param [.spread base spread, .property [] name optional next span] ∧
      env.applied? (env.symbols.symbol second).bodyScope param base = some [first] ∧
      env.applied? (env.symbols.symbol second).bodyScope param next = some [first, first]

theorem Regrows.of_found (found : env.regrows first second = true) : env.Regrows first second := by
  unfold regrows at found
  split at found
  · rename_i param name optional whole span other base spread key flag next last one two
    simp only [Bool.and_eq_true, decide_eq_true_eq] at found
    obtain ⟨⟨applied, spreads⟩, again⟩ := found
    exact ⟨⟨param, name, optional, whole, span, .of_found one, applied⟩,
      ⟨other, base, spread, key, flag, next, last, .of_found two, spreads, again⟩⟩
  · cases found

theorem Regrows.apart (regrows : env.Regrows first second) : first ≠ second := by
  rintro rfl
  obtain ⟨_, _, _, _, _, one, _⟩ := regrows.whole
  obtain ⟨_, _, _, _, _, _, _, two, _⟩ := regrows.grown
  obtain ⟨_, _, declared, _, members, _⟩ := one.declared
  obtain ⟨_, _, again, _, others, _⟩ := two.declared
  cases declared.symm.trans again
  cases members.symm.trans others

end Environment

namespace CheckM
variable {inner : List SymbolId}

private theorem resolvePath_traces (path : DottedName) :
    Traces (resolvePath env path context) o fun found after =>
      found = env.symbols.named? context.scope path ∧ after = o := by
  rintro c rfl found after ran
  have works : Works env [] (resolvePath env path context) c _ := resolvePath_works context
  refine ⟨(works found after ran).2.1, ?_⟩
  have quiet : Quiet (resolvePath env path context) c := resolvePath_quiet
  obtain ⟨other, last, same, annotated⟩ := quiet
  cases ran.symm.trans same
  exact annotated.outline

/-- A parameter gives what stands for it. -/
theorem parameter_traces (found : env.isParam context.scope param expr = true)
    (stands : context.subst.get? param = some arg) (held : result arg o) :
    Traces (typeExpr env descent expr context demand) o result := by
  unfold Environment.isParam at found
  split at found
  · rename_i path span
    obtain ⟨named, kind⟩ := of_decide_eq_true found
    unfold typeExpr
    refine evaluating_traces (.value_bind (resolvePath_traces path) ?_)
    rw [named]
    simp only [kind, Bool.false_eq_true, ↓reduceIte, stands]
    exact .pure held
  · cases found

theorem argument_traces (stands : context.subst.get? param = some arg) (written : TypeExpr)
    (bare : env.applied? context.scope param written = some []) :
    Traces (typeExpr env descent written context demand) o fun id after => id = arg ∧ after = o :=
  parameter_traces (Environment.applied?_nil bare) stands ⟨rfl, rfl⟩

/-- An instance is resolved for its argument. -/
theorem instance_traces (applied : env.applied? context.scope param expr = some (symbol :: inner))
    (argument : ∀ written, env.applied? context.scope param written = some inner →
      Traces (typeExpr env descent written context .reference) o fun id after =>
        id = arg ∧ after = o)
    (right : o.wrong arg = false)
    (resolves : ∀ location,
      Traces (resolveSymbol env descent symbol [arg] demand (some location)) o result) :
    Traces (typeExpr env descent expr context demand) o result := by
  obtain ⟨path, written, span, rfl, named, within, own, members, template⟩ :=
    Environment.applied?_cons applied
  have arguments : Traces (typeExprs env descent [written] context) o fun ids after =>
      ids = [arg] ∧ after = o := by
    have none : Traces (typeExprs env descent [] context) o fun ids after => ids = [] ∧ after = o := by
      unfold typeExprs
      exact .pure ⟨rfl, rfl⟩
    unfold typeExprs
    exact .value_bind (argument written within) (.value_bind none (.pure ⟨rfl, rfl⟩))
  unfold typeExpr
  refine evaluating_traces (.value_bind (resolvePath_traces path) ?_)
  rw [named]
  simp only [template.kind, template.templated, ↓reduceIte]
  refine .value_bind arguments ?_
  have instantiates : Traces (instantiate env descent symbol [arg] (context.location span) demand)
      o result := by
    rintro c rfl
    unfold instantiate
    rw [Ensures.bind_iff, Ensures.get_iff]
    have sound : [arg].any c.types.isError = false := by simpa [Checker.outline] using right
    simp only [sound, template.params, Bool.false_eq_true, ↓reduceIte, List.length_singleton,
      Nat.lt_irrefl, List.take_succ_cons, List.take_zero, List.drop_succ_cons, List.drop_zero]
    unfold fillDefaults
    rw [Ensures.bind_iff, Ensures.pure_iff]
    exact resolves _ c rfl
  exact instantiates.bind fun _ _ held =>
    .quiet_bind (fun _ => checkDeprecated_quiet) fun _ => .pure held

/-! Members and bodies. Only the outline after them matters, not the properties. -/

variable {ended : Outline → Prop}

section
variable (properties : List Property)
include properties

theorem property_traces {optional : Bool}
    (typed : Traces (typeExpr env descent expr context .reference) o fun _ after => ended after) :
    Traces (member env descent (.property [] name optional expr span) context properties) o
      fun _ after => ended after := by
  unfold member
  refine typed.bind fun type middle held => ?_
  unfold decoratorList
  exact .value_bind (.pure ⟨rfl, rfl⟩) (.quiet (fun _ => addProperty_quiet) fun _ => held)

theorem spread_traces
    (typed : Traces (typeExpr env descent expr context .complete) o fun _ after => ended after) :
    Traces (member env descent (.spread expr span) context properties) o
      fun _ after => ended after := by
  unfold member
  refine typed.bind fun source middle held => .modify_bind (fun _ => rfl) ?_
  refine .quiet_bind (fun _ => .get_bind .pure) fun found => ?_
  split
  · exact .quiet (fun _ => addProperties_quiet) fun _ => held
  · exact .pure held
  · exact .pure held
  · exact .quiet (fun _ => .bind (.modify rfl) fun _ _ => .pure) fun _ => held

theorem memberList_traces {between : Outline → Prop}
    (begun : Traces (member env descent first context properties) o fun _ after => between after)
    (further : ∀ added middle, between middle →
      Traces (memberList env descent rest context added) middle fun _ after => ended after) :
    Traces (memberList env descent (first :: rest) context properties) o
      fun _ after => ended after := by
  unfold memberList
  exact begun.bind fun added middle held => further added middle held

theorem memberList_done (held : ended o) :
    Traces (memberList env descent [] context properties) o fun _ after => ended after := by
  unfold memberList
  exact .pure held

end

/-- What a model extends is looked at, and not worked on. -/
private theorem baseOf_traces (found : env.isParam context.scope param base = true)
    (stands : context.subst.get? param = some arg) (own : SymbolId) (place : TypeId)
    (model : ModelType) :
    Traces (baseOf env descent own place base context model) o fun found after =>
      found.properties = model.properties ∧ after = o := by
  refine .value_bind (parameter_traces found stands ⟨rfl, rfl⟩) ?_
  rintro c rfl
  rw [Ensures.bind_iff, Ensures.get_iff]
  have failed {code : Code} {message : String} {location : Location} :
      Traces (do errorAt code message location; return model : CheckM ModelType) c.outline
        fun found after => found.properties = model.properties ∧ after = c.outline :=
    .quiet_bind (fun _ => errorAt_quiet) fun _ => .pure ⟨rfl, rfl⟩
  refine Ensures.ite (fun _ => failed c rfl) fun _ => ?_
  suffices extended : Traces _ c.outline fun (found : ModelType) after =>
      found.properties = model.properties ∧ after = c.outline from extended c rfl
  refine .quiet_bind (fun _ => isModel_quiet) fun found => ?_
  split
  · exact .modify_bind (fun _ => rfl) (.pure ⟨rfl, rfl⟩)
  · split
    · exact .pure ⟨rfl, rfl⟩
    · exact .pure ⟨rfl, rfl⟩
    · exact failed

/-- The body of a template is that of its members, with the argument for the parameter. -/
theorem template_traces (template : env.Template symbol param members) (place : TypeId)
    (dependent : Bool)
    (works : ∀ context : Context, context.scope = (env.symbols.symbol symbol).bodyScope →
      context.subst.get? param = some arg →
      Traces (memberList env descent members context []) o fun _ after => ended after) :
    Traces (symbolBody env descent ⟨symbol, [arg]⟩ place dependent) o
      fun _ after => ended after := by
  obtain ⟨location, decl, declared, plain, written, bare⟩ := template.declared
  have binds : Substitution.ofArguments [param] [arg] = .ok _ :=
    Substitution.ofArguments_of_length rfl
  unfold symbolBody
  simp only [template.params, binds, declared]
  generalize entered : (⟨_, _, _, dependent⟩ : Context) = context
  have scope : context.scope = (env.symbols.symbol symbol).bodyScope := by rw [← entered]
  have stands : context.subst.get? param = some arg := by simp [← entered, Dictionary.ofList]
  have rest (model : ModelType) (empty : model.properties = []) : Traces (do
      let properties ← gathering decl.members context model.properties
        (memberList env descent decl.members context model.properties)
      let own ← decoratorList env descent decl.decorators context
      finish place (.model { model with properties, decorators := model.decorators ++ own })
      decorate env place context) o fun _ after => ended after := by
    rw [written, plain, empty]
    refine Traces.bind ((works context scope stands).bind fun _ _ held =>
      .modify_bind (fun _ => rfl) (.pure held)) fun properties middle held => ?_
    unfold decoratorList
    refine .value_bind (.pure ⟨rfl, rfl⟩) (.modify_bind (fun c => c.outline_finish _ _) ?_)
    exact .quiet (fun _ => decorate_quiet) fun _ => held
  unfold modelBody
  dsimp only
  rw [← scope] at bare
  generalize decl.heritage = heritage at bare
  cases heritage with
  | plain =>
    rw [pure_bind]
    exact rest _ rfl
  | «extends» base =>
    refine Traces.bind (baseOf_traces bare stands symbol place _) fun model middle kept => ?_
    obtain ⟨empty, rfl⟩ := kept
    exact rest model empty
  | «is» source => cases bare

/-! The two templates. -/

variable {id : TypeId}

/-- The second template is given up where it needs the first, which is under work. The larger
instance of the first is put off on the way. -/
theorem grown_gives_up (regrows : env.Regrows first second) (dependent : Bool)
    (idle : o.abandoning = none)
    (stacked : o.stack = [⟨⟨second, [arg]⟩, id, .reference⟩, ⟨⟨first, [arg]⟩, place, .reference⟩])
    (resolving : o.states ⟨first, [arg]⟩ = some (.resolving place))
    (new : o.states ⟨first, [place]⟩ = none)
    (right : o.wrong arg = false ∧ o.wrong place = false) :
    Traces (symbolBody env descent ⟨second, [arg]⟩ id dependent) o fun _ after =>
      after = { o with abandoning := some 1, size := o.size + 1 }.defer
        ⟨first, [place]⟩ ⟨o.size⟩ := by
  obtain ⟨param, base, spread, name, optional, larger, span, template, spreads, again⟩ :=
    regrows.grown
  refine template_traces template id dependent fun context scope stands => ?_
  rw [← scope] at spreads again
  have given : Traces (typeExpr env descent base context .complete) o fun _ after =>
      after = { o with abandoning := some 1 } :=
    instance_traces spreads (argument_traces stands) right.1
      fun _ => resolveSymbol_abandons idle stacked rfl (by simp [regrows.apart.symm]) rfl resolving rfl
  refine memberList_traces [] (spread_traces [] given) ?_
  rintro added _ rfl
  -- From here on a frame is being given up, so a new key is put off without being worked on.
  have postponed : Traces (typeExpr env descent larger context .reference)
      { o with abandoning := some 1 } fun _ after =>
        after = { o with abandoning := some 1, size := o.size + 1 }.defer
          ⟨first, [place]⟩ ⟨o.size⟩ :=
    instance_traces again
      (fun _ inner => instance_traces inner (argument_traces stands) right.1
        fun _ => resolveSymbol_known (.inr ⟨rfl, .inl resolving⟩) ⟨rfl, rfl⟩)
      right.2 fun _ => resolveSymbol_postponed rfl new rfl
  refine memberList_traces added (property_traces added postponed) ?_
  rintro more _ rfl
  exact memberList_done more rfl

/-- The second template is worked on to its end when the first is there. -/
theorem grown_ends (regrows : env.Regrows first second) (dependent : Bool)
    (resolved : o.states ⟨first, [arg]⟩ = some (.resolved place))
    (waiting : o.states ⟨first, [place]⟩ = some (.deferred next))
    (right : o.wrong arg = false ∧ o.wrong place = false) :
    Traces (symbolBody env descent ⟨second, [arg]⟩ id dependent) o fun _ after => after = o := by
  obtain ⟨param, base, spread, name, optional, larger, span, template, spreads, again⟩ :=
    regrows.grown
  refine template_traces template id dependent fun context scope stands => ?_
  rw [← scope] at spreads again
  have instantiated (demand : Demand) (written : TypeExpr)
      (applied : env.applied? context.scope param written = some [first]) :
      Traces (typeExpr env descent written context demand) o fun id after =>
        id = place ∧ after = o :=
    instance_traces applied (argument_traces stands) right.1
      fun _ => resolveSymbol_known (.inl resolved) ⟨rfl, rfl⟩
  have given : Traces (typeExpr env descent base context .complete) o fun _ after => after = o :=
    (instantiated .complete base spreads).weaken fun _ _ same => same.2
  refine memberList_traces [] (spread_traces [] given) ?_
  rintro added _ rfl
  have larger : Traces (typeExpr env descent larger context .reference) _ fun _ after =>
      after = _ :=
    instance_traces again (instantiated .reference) right.2
      fun _ => resolveSymbol_known (.inr ⟨rfl, .inr waiting⟩) rfl
  refine memberList_traces added (property_traces added larger) ?_
  rintro more _ rfl
  exact memberList_done more rfl

end CheckM

/-! Rounds. -/

/-- An instance of the first template waits, and nothing was made of its place yet. -/
structure Outline.Sprouts (first second : SymbolId) (arg place : TypeId) (o : Outline) : Prop where
  waiting : o.states ⟨first, [arg]⟩ = some (.deferred place)
  unmade : o.states ⟨second, [arg]⟩ = none
  fresh : o.states ⟨first, [place]⟩ = none ∧ o.states ⟨second, [place]⟩ = none
  right : o.wrong arg = false ∧ o.wrong place = false

/-- An instance of the first template is there, and the second waits to use it. -/
structure Outline.Regrown (first second : SymbolId) (arg place : TypeId) (o : Outline) : Prop where
  resolved : o.states ⟨first, [arg]⟩ = some (.resolved place)
  waiting : ∃ id, o.states ⟨second, [arg]⟩ = some (.deferred id)
  right : o.wrong arg = false

/-- What is known of all keys of a state in which nothing is under work. -/
structure Outline.Calm (o : Outline) : Prop where
  stack : o.stack = []
  idle : o.abandoning = none
  depth : o.depth = 0
  held : ∀ key id, o.states key = some (.deferred id) → id.index < o.size
  unmade : ∀ symbol (id : TypeId), o.size ≤ id.index → o.states ⟨symbol, [id]⟩ = none
  right : ∀ id : TypeId, o.size ≤ id.index → o.wrong id = false

theorem Resting.calm (resting : Resting env c) : c.outline.Calm where
  stack := resting.stack
  idle := resting.idle
  depth := resting.depth
  held := fun _ _ waiting => resting.consistent.holds_waiting waiting
  unmade := by
    intro symbol id outside
    by_contra known
    obtain ⟨place, placed⟩ := (resting.consistent.keys.known _).mp known
    have held := (resting.consistent.holdings.proper _ place placed).held id (by simp)
    exact Nat.not_lt.mpr outside held
  right := by
    intro id outside
    have empty : c.types.get? id = none := by
      by_contra stored
      obtain ⟨type, found⟩ := Option.ne_none_iff_exists'.mp stored
      exact Nat.not_lt.mpr outside (TypeStore.lt_size_of_get? found)
    have other : id ≠ TypeStore.error := by
      rintro rfl
      exact Nat.not_lt.mpr outside resting.consistent.holds_error
    simp [Checker.outline, TypeStore.isError, empty, other]

namespace CheckM
variable {o : Outline}

/-- The second template is asked for while the first is under work, and is put off together with
the larger instance of the first. -/
private theorem grown_postponed (regrows : env.Regrows first second) (idle : o.abandoning = none)
    (shallow : o.depth < maxDepth) (stacked : o.stack = [⟨⟨first, [arg]⟩, place, .reference⟩])
    (resolving : o.states ⟨first, [arg]⟩ = some (.resolving place))
    (unmade : o.states ⟨second, [arg]⟩ = none) (new : o.states ⟨first, [place]⟩ = none)
    (right : o.wrong arg = false ∧ o.wrong place = false) (location : Option Location) :
    Traces (resolveSymbol env (descentOf env (levels + 1)) second [arg] .reference location) o
      fun _ after => after = ({ o with size := o.size + 2 }.defer ⟨first, [place]⟩
        ⟨o.size + 1⟩).defer ⟨second, [arg]⟩ ⟨o.size⟩ := by
  have apart := regrows.apart
  refine resolveSymbol_starts idle shallow unmade (resolveInto_given fun dependent => ?_)
  have pushed : ({ o with depth := o.depth + 1, size := o.size + 1 }.push ⟨second, [arg]⟩
      ⟨o.size⟩ .reference).stack = [⟨⟨second, [arg]⟩, ⟨o.size⟩, .reference⟩,
        ⟨⟨first, [arg]⟩, place, .reference⟩] := congrArg (_ :: ·) stacked
  refine Traces.weaken (grown_gives_up regrows dependent ?_ pushed ?_ ?_ right) ?_
  · exact idle
  · simp [Outline.push, Outline.turn, apart.symm, resolving]
  · simp [Outline.push, Outline.turn, apart.symm, new]
  rintro _ _ rfl
  constructor
  · simp [Outline.defer, Outline.push, Outline.turn, stacked]
  · simp only [Outline.defer, Outline.push, Outline.turn, List.tail_cons, Nat.add_sub_cancel, idle]
    congr 1
    funext key
    split <;> rfl

/-- A round on the first template leaves the second to be done again, and after it a larger
instance of the first. -/
theorem whole_round (regrows : env.Regrows first second) (calm : o.Calm)
    (sprouts : o.Sprouts first second arg place) :
    Traces (resume (descentOf env (levels + 2)) ⟨first, [arg]⟩) { o with deferred := rest }
      fun _ after => ∃ next, after.deferred = ⟨second, [arg]⟩ :: ⟨first, [place]⟩ :: rest ∧
        after.Regrown first second arg place ∧ after.Sprouts first second place next := by
  obtain ⟨param, name, optional, whole, span, template, applied⟩ := regrows.whole
  have apart := regrows.apart
  have distinct : arg ≠ place := by
    rintro rfl
    cases sprouts.waiting.symm.trans sprouts.fresh.1
  have shallow : o.depth < maxDepth := by rw [calm.depth]; decide
  refine resume_traces shallow sprouts.waiting (resolveInto_done fun dependent => ?_)
  refine template_traces template place dependent fun context scope stands => ?_
  rw [← scope] at applied
  refine memberList_traces [] (property_traces [] ?_) fun added middle held => memberList_done added held
  refine instance_traces applied (argument_traces stands) sprouts.right.1 fun location => ?_
  have stacked : ({ o with deferred := rest, depth := o.depth + 1 }.push ⟨first, [arg]⟩ place
      .reference).stack = [⟨⟨first, [arg]⟩, place, .reference⟩] := congrArg (_ :: ·) calm.stack
  refine Traces.weaken (grown_postponed regrows ?_ ?_ stacked ?_ ?_ ?_ ?_ _) ?_
  · exact calm.idle
  · show o.depth + 1 < maxDepth
    rw [calm.depth]
    decide
  · simp [Outline.push, Outline.turn]
  · simp [Outline.push, Outline.turn, apart, sprouts.unmade]
  · simp [Outline.push, Outline.turn, distinct, sprouts.fresh.1]
  · exact sprouts.right
  rintro _ _ rfl
  have later : place ≠ ⟨o.size + 1⟩ := by
    rintro rfl
    exact absurd (calm.held _ _ sprouts.waiting) (by simp)
  have outside : arg ≠ ⟨o.size + 1⟩ := by
    rintro rfl
    cases sprouts.waiting.symm.trans (calm.unmade first _ (Nat.le_succ _))
  have new (symbol : SymbolId) := calm.unmade symbol ⟨o.size + 1⟩ (Nat.le_succ _)
  refine ⟨calm.idle, ?_, ⟨o.size + 1⟩, rfl, ⟨?_, ⟨⟨o.size⟩, ?_⟩, sprouts.right.1⟩,
    ⟨?_, ?_, ⟨?_, ?_⟩, sprouts.right.2, calm.right _ (Nat.le_succ _)⟩⟩
  all_goals simp [Outline.defer, Outline.push, Outline.turn, apart, apart.symm, distinct,
    distinct.symm, later, outside, new, sprouts.fresh]

/-- A round on the second template leaves the larger instance of the first. -/
theorem grown_round (regrows : env.Regrows first second) (calm : o.Calm)
    (regrown : o.Regrown first second arg place) (sprouts : o.Sprouts first second place next) :
    Traces (resume (descentOf env (levels + 1)) ⟨second, [arg]⟩) { o with deferred := rest }
      fun _ after => after.deferred = rest ∧ after.Sprouts first second place next := by
  have apart := regrows.apart
  obtain ⟨id, waiting⟩ := regrown.waiting
  have shallow : o.depth < maxDepth := by rw [calm.depth]; decide
  have distinct : arg ≠ place := by
    rintro rfl
    cases regrown.resolved.symm.trans sprouts.waiting
  have further : arg ≠ next := by
    rintro rfl
    cases regrown.resolved.symm.trans sprouts.fresh.1
  refine resume_traces shallow waiting (resolveInto_done fun dependent => ?_)
  have still : ({ o with deferred := rest, depth := o.depth + 1 }.push ⟨second, [arg]⟩ id
      .reference).states ⟨first, [place]⟩ = some (.deferred next) := by
    simp [Outline.push, Outline.turn, apart.symm, sprouts.waiting]
  refine Traces.weaken (grown_ends regrows dependent ?_ still ⟨regrown.right, sprouts.right.1⟩) ?_
  · simp [Outline.push, Outline.turn, apart.symm, regrown.resolved]
  rintro _ _ rfl
  refine ⟨calm.idle, ?_, rfl, ⟨?_, ?_, ⟨?_, ?_⟩, sprouts.right⟩⟩
  all_goals simp [Outline.push, Outline.turn, apart.symm, distinct, further, sprouts.waiting,
    sprouts.unmade, sprouts.fresh]

/-- One round, from rest to rest. -/
private theorem round_ensures (sound : descent.Sound env) (resting : Resting env c)
    (queued : c.deferred = key :: rest)
    (traces : Traces (resume descent key) { c.outline with deferred := rest } result)
    (further : ∀ middle, Resting env middle → result () middle.outline →
      Ensures (resolveDeferred descent rounds) middle ended) :
    Ensures (resolveDeferred descent (rounds + 1)) c ended := by
  intro done after ran
  rw [resolveDeferred_cons queued] at ran
  obtain ⟨_, middle, begun, rested⟩ := of_run_bind ran
  have advanced := resume_advances sound resting queued _ _ begun
  exact further middle advanced.2 (traces _ rfl _ _ begun) done after rested

/-- Two rounds after a state of this kind there is another one, so what was put off is never
done. -/
theorem resolveDeferred_endless (sound : (descentOf env (levels + 2)).Sound env)
    (regrows : env.Regrows first second) (rounds : Nat) (resting : Resting env c)
    (regrown : c.outline.Regrown first second arg place)
    (sprouts : c.outline.Sprouts first second place next)
    (queued : c.deferred = ⟨second, [arg]⟩ :: ⟨first, [place]⟩ :: rest) :
    Ensures (resolveDeferred (descentOf env (levels + 2)) rounds) c fun _ _ => False := by
  induction rounds using Nat.twoStepInduction generalizing arg place next c with
  | zero => exact Ensures.exhausted
  | one =>
    exact round_ensures sound resting queued (grown_round regrows resting.calm regrown sprouts)
      fun _ _ _ => Ensures.exhausted
  | more rounds ih _ =>
    refine round_ensures sound resting queued (grown_round regrows resting.calm regrown sprouts) ?_
    rintro middle rested ⟨waits, sprouting⟩
    refine round_ensures sound rested waits (whole_round regrows rested.calm sprouting) ?_
    rintro after again ⟨larger, queue, regrown, further⟩
    exact ih again regrown further queue

end CheckM

/-! A program of two templates that grow each other again. -/

/-- Visits symbols up to the first time that what was put off is resolved. -/
def CheckM.opening? (env : Environment) : List Task → Checker → Option (List Task × Checker)
  | .visit symbol :: rest, c =>
    (visit env (descentOf env env.levels) symbol c).bind fun visited => opening? env rest visited.2
  | .drain :: rest, c => some (rest, c)
  | [], _ => none

theorem Comes.opening (comes : Comes env tasks c)
    (opened : CheckM.opening? env tasks c = some (rest, after)) :
    Comes env (.drain :: rest) after := by
  induction tasks generalizing c with
  | nil => cases opened
  | cons task tasks ih =>
    cases task with
    | drain =>
      cases opened
      exact comes
    | visit symbol =>
      obtain ⟨⟨_, middle⟩, ran, further⟩ := Option.bind_eq_some_iff.mp opened
      exact ih (comes.visit ran) further

/-- A program that comes to the two keys when what was put off is first resolved is checked
forever. -/
theorem endless_of_opening (bound : env.Bound)
    (regrows : env.regrows first second = true)
    (opened : CheckM.opening? env (Task.listOf env.symbols.toList) {} = some (rest, c))
    (regrown : c.outline.Regrown first second arg place)
    (sprouts : c.outline.Sprouts first second place next)
    (queued : c.deferred = [⟨second, [arg]⟩, ⟨first, [place]⟩]) (rounds : Nat) :
    check env rounds = none := by
  obtain ⟨levels, enough⟩ : ∃ levels, env.levels = levels + 2 :=
    ⟨63 + env.symbols.size, by simp only [Environment.levels, CheckM.maxDepth]; omega⟩
  have comes := Comes.start.opening opened
  refine Option.eq_none_iff_forall_ne_some.mpr fun final checked => ?_
  obtain ⟨_, middle, drained, _⟩ := CheckM.of_run_bind (comes.leads checked)
  rw [enough] at drained
  exact CheckM.resolveDeferred_endless (enough ▸ CheckM.descentOf_sound bound env.levels)
    (.of_found regrows) rounds (comes.resting bound) regrown sprouts queued _ _ drained

/-- A template whose instances need a second one, which spreads the first and has a larger
instance of it. -/
private def endlessText : String :=
  "model R<T> extends T \x7b p: Q<T> \x7d model Q<T> \x7b ...R<T>; n: R<R<T>> \x7d"

/-- The two keys wait, and nothing is known of the instances that they are about to make. -/
private def isSprouting (opened : List Task × Checker) : Bool :=
  let c := opened.2
  c.deferred = [⟨⟨3⟩, [⟨3⟩]⟩, ⟨⟨1⟩, [⟨4⟩]⟩] &&
    c.resolutions.get? ⟨⟨1⟩, [⟨3⟩]⟩ = some (.resolved ⟨4⟩) &&
    c.resolutions.get? ⟨⟨3⟩, [⟨3⟩]⟩ = some (.deferred ⟨5⟩) &&
    c.resolutions.get? ⟨⟨1⟩, [⟨4⟩]⟩ = some (.deferred ⟨6⟩) &&
    c.resolutions.get? ⟨⟨3⟩, [⟨4⟩]⟩ = none && c.resolutions.get? ⟨⟨1⟩, [⟨6⟩]⟩ = none &&
    c.resolutions.get? ⟨⟨3⟩, [⟨6⟩]⟩ = none &&
    !c.types.isError ⟨3⟩ && !c.types.isError ⟨4⟩ && !c.types.isError ⟨6⟩

/-- The check of a program can go on forever, and make new instances all the time. -/
theorem check_never_returns :
    let env := Environment.ofText endlessText
    (∀ rounds, check env rounds = none) ∧ ¬ {key | env.Creates key}.Finite := by
  intro env
  have bound : env.Bound := Environment.ofScripts_bound _ _ _
  have opens : (CheckM.opening? env (Task.listOf env.symbols.toList) {}).any isSprouting = true := by
    decide +kernel
  have regrows : env.regrows ⟨1⟩ ⟨3⟩ = true := by decide +kernel
  obtain ⟨⟨rest, c⟩, opened, sprouting⟩ := (Option.any_eq_true _ _).mp opens
  simp only [isSprouting, Bool.and_eq_true, decide_eq_true_eq, Bool.not_eq_true'] at sprouting
  obtain ⟨⟨⟨⟨⟨⟨⟨⟨⟨queued, resolved⟩, waiting⟩, larger⟩, unmade⟩, fresh⟩, other⟩, arg⟩,
    place⟩, grown⟩ := sprouting
  have endless (rounds : Nat) : check env rounds = none :=
    endless_of_opening bound regrows opened ⟨resolved, ⟨_, waiting⟩, arg⟩
      ⟨larger, unmade, ⟨fresh, other⟩, place, grown⟩ queued rounds
  refine ⟨endless, fun finite => ?_⟩
  obtain ⟨rounds, final, checked⟩ := returns_of_finite bound finite
  rw [endless] at checked
  cases checked

end Idl
