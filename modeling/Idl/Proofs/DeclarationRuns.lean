import Idl.Proofs.ExpressionRuns

/-! Checking the body of a declaration fills its place, unless the declaration is
given up on the way. What is stored is what the declaration says, as far as
nothing was reported, and a model is stored with the base that was last settled
for it. -/
namespace Idl
variable {id : TypeId}

/-- Work on a declaration: its frame is the youngest, and its place is empty. -/
structure Working (env : Environment) (frame : Frame) (rest : List Frame) (c : Checker) : Prop
    extends Ready env c where
  stacked : c.stack = frame :: rest

section
variable (working : Working env frame rest before) (run : Moves env (frame :: rest) before after)
include working run

theorem Working.moves : Working env frame rest after where
  toReady := working.toReady.moves (working.stacked ▸ run)
  stacked := run.stack.trans working.stacked

/-- What was made in the work on a declaration counts as long as the work goes on. -/
theorem Working.made (made : before.Made env id) : after.Made env id := by
  rw [← working.stacked] at run
  exact run.made made

end

section
variable (working : Working env frame rest c)
include working

theorem Working.empty : c.Empty frame.id :=
  working.unfilled frame (by rw [working.stacked]; exact List.mem_cons_self ..)

theorem Working.placed : c.Placed frame.key frame.id :=
  working.consistent.top_placed working.stacked

theorem Working.held_args : ∀ arg ∈ frame.key.args, c.Holds arg :=
  (working.consistent.holdings.proper _ _ working.placed).held

theorem Working.worker : c.worker = some frame.key := by
  rw [Checker.worker, working.stacked]
  rfl

end

theorem Working.retains (working : Working env frame rest before)
    (moves : Moves env (frame :: rest) before after) :
    Checker.Retains (some frame.key) before after := by
  rw [← working.stacked] at moves
  exact working.worker ▸ moves.retains

section
variable (working : Working env frame rest c)
include working

theorem Working.on_top :
    ∀ id ∈ some frame.id, ∃ top below, c.stack = top :: below ∧ top.id = id := by
  rintro _ ⟨⟩
  exact ⟨frame, rest, working.stacked, rfl⟩

theorem Working.isUnwinding (given : c.abandoning = some below) :
    c.isUnwinding frame.id = true := by
  have inside := (working.consistent.unwinding_inside working.stacked given).1
  have above : rest.length + 1 - below = (rest.length - below) + 1 := by omega
  simp [Checker.isUnwinding, given, working.stacked, above]

/-- The work on a declaration looks at its text. -/
theorem Working.licenses : env.Licenses c.stack (env.text frame.key.symbol) := by
  refine Environment.Opens.licenses fun youngest top => ?_
  rw [working.stacked] at top
  cases top
  exact .own

/-- A type is put into the place of the declaration. -/
theorem Working.stored (type : CheckedType) :
    (c.fill frame.id type).types.get? frame.id = some type := by
  have held := working.consistent.holds_placed working.placed
  exact (TypeStore.get?_fill held working.empty type frame.id).trans (if_pos rfl)

/-- Right after a concrete type was stored, all its decorators are due. -/
theorem Working.owes (idle : c.abandoning = none) (type : CheckedType)
    (concrete : frame.id ∉ c.dependentTypes) :
    (c.fill frame.id type).Owes frame rest type
      ((c.fill frame.id type).types.applications frame.id) where
  idle := idle
  stacked := working.stacked
  stored := working.stored type
  concrete := concrete
  next := by
    rw [Checker.sinceFilled_eq_nil rfl]
    rfl

end

/-- The place of a declaration without parameters. -/
theorem Consistent.made_plain (consistent : Consistent env c)
    (right : id = TypeStore.error ∨ ∃ args, c.Placed ⟨symbol, args⟩ id)
    (plain : (env.symbols.symbol symbol).templateParams = []) : c.Made env id := by
  rcases right with rfl | ⟨args, placed⟩
  · exact .error
  · have counted := (consistent.holdings.proper _ _ placed).counted
    rw [plain] at counted
    obtain rfl := List.length_eq_zero_iff.mp counted.symm
    exact .plain placed

theorem Moves.of_rest (moves : Moves env (frame :: rest) before after) :
    Moves env rest before after :=
  { moves with
    unfilled := fun other member => moves.unfilled other (List.mem_cons_of_mem _ member)
    quiet := by
      obtain ⟨added, history, calm⟩ := moves.quiet
      exact ⟨added, history, fun other member => calm other (List.mem_cons_of_mem _ member)⟩ }

/-- Work that brings the work on a declaration to its end. -/
def Finishes (env : Environment) (frame : Frame) (rest : List Frame) (work : CheckM Unit)
    (c : Checker) : Prop :=
  Ensures work c fun _ after => Ends env frame rest c after

theorem Ends.behind (moves : Moves env rest before middle)
    (ends : Ends env frame rest middle after) : Ends env frame rest before after :=
  ⟨moves.trans ends.moves, ends.stored, ends.decorated, ends.marked⟩

/-- Some work, and then work that finishes the declaration. -/
theorem Works.finishes (working : Working env frame rest c)
    (begun : Works env c.stack work c between)
    (further : ∀ a middle, Moves env (frame :: rest) c middle → Working env frame rest middle →
      between a middle → Finishes env frame rest (next a) middle) :
    Finishes env frame rest (work >>= next) c := by
  rw [working.stacked] at begun
  refine Ensures.bind begun ?_
  rintro a middle ⟨moves, result⟩
  exact (further a middle moves (working.moves moves) result).weaken
    fun _ _ ends => ends.behind moves.of_rest

namespace CheckM
variable {descent : Descent} {c : Checker}

/-! The end of a declaration. -/

/-- A type is put into the place of the declaration, unless that is given up. -/
private theorem finish_stores (working : Working env frame rest c)
    (completes : c.abandoning = none → Completes env c frame type) :
    Ensures (finish frame.id type) c fun _ after => Moves env rest c after ∧
      (after.abandoning = none ↔ ¬ after.Empty frame.id) ∧
        (after.abandoning = none → after = c.fill frame.id type) := by
  have consistent := working.consistent
  refine Ensures.modify_iff.mpr ?_
  rcases Option.eq_none_or_eq_some c.abandoning with idle | ⟨below, given⟩
  · have held := consistent.holds_placed working.placed
    have outside : c.isUnwinding frame.id = false := by simp [Checker.isUnwinding, idle]
    rw [Checker.finish_eq_fill held working.empty outside]
    have step : Step env c _ := .fill idle working.stacked working.empty (completes idle)
    have others {id : TypeId} (other : id ≠ frame.id) (empty : c.Empty id) :
        (c.fill frame.id type).Empty id :=
      (TypeStore.get?_fill held working.empty type id).trans ((if_neg other).trans empty)
    refine ⟨.of_runs ⟨.single step, ?_, ?_, fun _ _ own _ => own, ⟨[_], rfl, by simp⟩⟩ rfl rfl rfl,
      ⟨fun _ empty => ?_, fun _ => idle⟩, fun _ => rfl⟩
    · exact fun below member => others (consistent.below_apart working.stacked below member)
    · refine fun param id own => others fun same => ?_
      subst same
      exact consistent.ledger.param_apart working.placed ((consistent.params.listed _ _).mpr own)
    · have stored := TypeStore.get?_fill held working.empty type frame.id
      rw [if_pos rfl] at stored
      cases stored.symm.trans empty
  · have same : c.finish frame.id type = c := by simp [Checker.finish, working.isUnwinding given]
    rw [same]
    have busy (idle : c.abandoning = none) : False := by
      cases given.symm.trans idle
    exact ⟨.refl _ _ _, ⟨fun idle => (busy idle).elim, fun filled => absurd working.empty filled⟩,
      fun idle => (busy idle).elim⟩

/-- A declaration that is wrong ends without decorators. -/
theorem finishError_finishes (working : Working env frame rest c)
    (completes : c.abandoning = none → Completes env c frame .error) :
    Finishes env frame rest (finish frame.id .error) c := by
  refine Ensures.weaken (finish_stores working completes) ?_
  rintro _ after ⟨moves, stored, filled⟩
  refine ⟨moves, stored, fun idle => ?_, fun idle => ?_⟩
  · intro type found concrete
    rw [filled idle] at found concrete ⊢
    have owes := working.owes (moves.idle idle) .error concrete
    have nothing : (c.fill frame.id .error).types.applications frame.id = [] := by
      rw [TypeStore.applications, owes.stored]
    rw [nothing] at owes
    exact owes.decorated type found concrete
  · rw [filled idle]
    refine ⟨.error, working.stored .error, fun _ _ deprecated => ?_⟩
    obtain ⟨application, member, _⟩ := deprecated
    cases member

/-- After the type is stored its decorators are applied, unless it depends on parameters. -/
theorem finish_decorate_finishes (working : Working env frame rest c)
    (completes : c.abandoning = none → Completes env c frame type)
    (dependent : context.dependent = c.isDependent frame.id) :
    Finishes env frame rest (do finish frame.id type; decorate env frame.id context) c := by
  refine Ensures.bind (finish_stores working completes) ?_
  rintro _ middle ⟨begun, stored, filled⟩
  have consistent := working.consistent.steps begun.steps
  have applied : Works env (frame :: rest) (decorate env frame.id context) middle fun _ after =>
      (middle.abandoning = none → after.Decorated frame.id) ∧
        after.abandoning = middle.abandoning := by
    unfold decorate
    split
    · rename_i concrete
      have concrete : frame.id ∉ c.dependentTypes := by
        simpa [dependent, Checker.isDependent] using concrete
      refine (applyDecorators_works (counts_declared env frame rest type) consistent frame.id
        fun idle => ?_).weaken ?_
      · rw [filled idle]
        exact working.owes (begun.idle idle) type concrete
      · exact fun _ _ _ ended => ⟨fun idle => (ended.1 idle).decorated, ended.2⟩
    · rename_i templated
      have templated : frame.id ∈ c.dependentTypes := by
        simpa [dependent, Checker.isDependent] using templated
      refine .pure ⟨fun _ _ _ concrete => absurd ?_ concrete, rfl⟩
      exact (begun.grows.dependent _ (working.consistent.holds_placed working.placed)).mpr templated
  have marks : Ensures (decorate env frame.id context) middle fun _ after =>
      middle.abandoning = none → env.library = Builtin.library → frame.id ∉ c.dependentTypes →
        type.Deprecated → after.annotations.Marks (.type frame.id) := by
    intro a after ran idle builtin concrete deprecated
    have there : middle.types.get? frame.id = some type := by
      rw [filled idle]
      exact working.stored type
    simp only [decorate, dependent, Checker.isDependent, concrete, decide_false, Bool.not_false,
      if_true] at ran
    exact applyDecorators_marks builtin frame.id idle there deprecated a after ran
  refine Ensures.weaken (applied.both marks) ?_
  rintro _ after ⟨moves, ⟨decorated, same⟩, marked⟩
  have all := begun.grows.trans moves.grows
  refine ⟨begun.trans moves.of_rest, ?_, fun idle => decorated (same ▸ idle), fun idle => ?_⟩
  · rw [same]
    constructor
    · exact fun idle empty => stored.mp idle (moves.grows.empty_before empty)
    · intro filled
      by_contra given
      have empty : middle.Empty frame.id := not_not.mp fun filled => given (stored.mpr filled)
      exact filled (moves.unfilled frame (List.mem_cons_self ..) empty)
  · rw [same] at idle
    refine ⟨type, moves.grows.filled _ _ (filled idle ▸ working.stored type), ?_⟩
    intro builtin concrete
    apply marked idle builtin
    rw [← all.dependent _ (working.consistent.holds_placed working.placed)]
    exact concrete

/-! What a model takes over from others. -/

/-- What is known of a model once its heritage is read. -/
structure Inherited (env : Environment) (c : Checker) (frame : Frame) (context : Context)
    (heritage : Heritage) (model : ModelType) : Prop where
  sound : (CheckedType.model model).Sound env c
  settled : ∀ base, model.base = some base → c.Settles frame.id base
  inherits : c.Clean → Inherits True env c context heritage model.properties model.decorators
  base : c.abandoning = none → ∀ base target, heritage = .extends base →
    env.NamesModel context.scope base target →
    (∃ place, model.base = some place ∧ c.Placed ⟨target, []⟩ place) ∨
      c.Blames env target (some (context.location base.span))
  symbol : model.symbol = some frame.key.symbol
  template : ∀ made ∈ model.template, made.arguments = frame.key.args
  extended : c.Clean → ∀ id ∈ model.base, ∃ expr, heritage = .extends expr ∧
    Denotes True env c context expr id
  copied : c.Clean → ∀ id ∈ model.source, ∃ expr, heritage = .is expr ∧
    Denotes True env c context expr id
  meets : c.Meets env (heritage.refers env.symbols context.scope context.file)
  made : ∀ id, (CheckedType.model model).Leads env id → c.Made env id
  starts : c.Starts model.source model.properties

theorem Inherited.moves (inherited : Inherited env before frame context heritage model)
    (working : Working env frame rest before) (moves : Moves env (frame :: rest) before after) :
    Inherited env after frame context heritage model where
  sound := inherited.sound.grows moves.grows
  settled := by
    intro base given
    obtain ⟨added, history, calm⟩ := moves.quiet
    exact (inherited.settled base given).later added history fun _ found =>
      calm frame (List.mem_cons_self ..) _ found rfl
  inherits := fun clean => (inherited.inherits (moves.clean clean)).grows moves.grows
  base := by
    intro idle base target written names
    rcases inherited.base (moves.idle idle) base target written names with
      ⟨place, given, placed⟩ | blames
    · exact .inl ⟨place, given, moves.grows.placed placed⟩
    · exact .inr (blames.grows moves.grows)
  symbol := inherited.symbol
  template := inherited.template
  extended := by
    intro clean id given
    obtain ⟨expr, written, denotes⟩ := inherited.extended (moves.clean clean) id given
    exact ⟨expr, written, denotes.grows moves.grows⟩
  copied := by
    intro clean id given
    obtain ⟨expr, written, denotes⟩ := inherited.copied (moves.clean clean) id given
    exact ⟨expr, written, denotes.grows moves.grows⟩
  meets := inherited.meets.moves moves
  made := fun id leads => working.made moves (inherited.made id leads)
  starts := inherited.starts.grows moves.grows

/-- The properties that a model takes over have different names. -/
theorem Inherited.distinct (inherited : Inherited env c frame context heritage model)
    (consistent : Consistent env c) : (model.properties.map Property.name).Nodup := by
  have starts := inherited.starts
  cases copied : model.source with
  | none =>
    rw [copied] at starts
    have nothing : model.properties = [] := starts
    simp [nothing]
  | some source =>
    rw [copied] at starts
    obtain ⟨found, stored, same⟩ := starts
    rw [same]
    exact consistent.holdings.distinct source found stored

/-- A model before anything is known of it. -/
structure Unwritten (frame : Frame) (model : ModelType) : Prop where
  properties : model.properties = []
  decorators : model.decorators = []
  base : model.base = none
  source : model.source = none
  symbol : model.symbol = some frame.key.symbol
  template : ∀ made ∈ model.template, made.arguments = frame.key.args

theorem Unwritten.sound (unwritten : Unwritten frame model)
    (held : ∀ arg ∈ frame.key.args, c.Holds arg) : (CheckedType.model model).Sound env c := by
  obtain ⟨properties, decorators, base, source, _, template⟩ := unwritten
  refine ⟨?_, ?_, ?_, ?_, ?_⟩
  · simp [properties]
  · simp [base]
  · simp [source]
  · exact fun made given => template made given ▸ held
  · simp [decorators]

/-- Such a model leads to the arguments of its key only. -/
theorem Unwritten.made (unwritten : Unwritten frame model) (stacked : c.stack = frame :: rest)
    (leads : (CheckedType.model model).Leads env id) : c.Made env id := by
  obtain ⟨properties, _, base, source, _, template⟩ := unwritten
  cases leads with
  | property member => simp [properties] at member
  | base given => simp [base] at given
  | source given => simp [source] at given
  | argument given member => exact .given stacked (template _ given ▸ member)

/-- A model takes nothing over. -/
theorem Unwritten.inherited (unwritten : Unwritten frame model)
    (held : ∀ arg ∈ frame.key.args, c.Holds arg) (stacked : c.stack = frame :: rest)
    (inherits : c.Clean → Inherits True env c context heritage [] [])
    (reason : c.abandoning = none → ∀ base target, heritage = .extends base →
      env.NamesModel context.scope base target →
        c.Blames env target (some (context.location base.span)))
    (meets : c.Meets env (heritage.refers env.symbols context.scope context.file)) :
    Inherited env c frame context heritage model where
  sound := unwritten.sound held
  settled := by simp [unwritten.base]
  inherits := by rw [unwritten.properties, unwritten.decorators]; exact inherits
  base := fun idle base target written names => .inr (reason idle base target written names)
  symbol := unwritten.symbol
  template := unwritten.template
  extended := by simp [unwritten.base]
  copied := by simp [unwritten.source]
  meets := meets
  made := fun _ => unwritten.made stacked
  starts := by
    rw [unwritten.source]
    exact unwritten.properties

/-- A model is a copy of the model that its source denotes. -/
theorem sourceOf_works (bound : env.Bound) (sound : descent.Sound env)
    (working : Working env frame rest c) (held : context.Held env c)
    (licenses : env.Licenses c.stack ((Heritage.is source).mentions env.symbols context.scope))
    (unwritten : Unwritten frame model) :
    Works env c.stack (sourceOf env descent source context model) c fun copy after =>
      Inherited env after frame context (.is source) copy := by
  unfold sourceOf
  refine Works.bind (typeExpr_works bound sound source working.toReady held (by simp) licenses) ?_
  rintro id earlier moves ⟨⟨inside, denotes, there, meets, _⟩, made⟩
  refine Works.bind (need_works .copy (there rfl)) ?_
  rintro _ middle noted ⟨needed, _⟩
  replace made := (moves.stack ▸ noted : Moves env earlier.stack earlier middle).made made
  replace moves := moves.trans noted
  replace denotes (clean : middle.Clean) : Denotes True env middle context source id :=
    (denotes (noted.clean clean)).grows noted.grows
  replace meets : middle.Meets env ((Heritage.is source).refers env.symbols context.scope
      context.file) := meets.moves noted
  have unchanged {after : Checker} (further : Moves env c.stack middle after)
      (inherits : after.Clean → Inherits True env after context (.is source) [] []) :
      Inherited env after frame context (.is source) model := by
    have stacked := further.stack.trans (moves.stack.trans working.stacked)
    refine unwritten.inherited (fun arg member => ?_) stacked inherits (by simp)
      (meets.moves further)
    exact further.grows.holds (moves.grows.holds (working.held_args arg member))
  simp only [type?, bind_assoc, pure_bind]
  refine .get_bind ?_
  split
  · rename_i found named
    obtain ⟨properties, _, _, _, decorators⟩ :=
      (working.toReady.moves moves).consistent.holdings.sound id _ named
    have plain : (CheckedType.model model).Sound env middle := unwritten.sound fun arg member =>
      moves.grows.holds (working.held_args arg member)
    obtain ⟨_, base, _, arguments, _⟩ := plain
    have copied (clean : middle.Clean) :
        Inherits True env middle context (.is source) found.properties found.decorators :=
      .is (denotes clean) named
    refine .pure ⟨⟨properties, base, ?_, arguments, decorators⟩, ?_, copied, by simp,
      unwritten.symbol, unwritten.template, ?_, ?_, meets, fun other leads => ?_,
      found, named, rfl⟩
    · rintro _ ⟨⟩
      exact noted.grows.holds inside
    · simp [unwritten.base]
    · simp [unwritten.base]
    · rintro clean _ ⟨⟩
      exact ⟨source, rfl, denotes clean⟩
    · have stacked := moves.stack.trans working.stacked
      cases leads with
      | property member => exact .part made ⟨_, named, .property member⟩
      | base given => exact unwritten.made stacked (.base given)
      | source given => exact Option.some.inj given ▸ made
      | argument given member => exact unwritten.made stacked (.argument given member)
  · rename_i named
    exact .pure (unchanged (.refl _ _ _) fun clean => .isBarren trivial (denotes clean) (.inl named))
  · rename_i param named
    exact .pure (unchanged (.refl _ _ _) fun clean => .isBarren trivial (denotes clean) (.inr ⟨param, named⟩))
  · rename_i model error param
    refine reportError_works _ rfl (fun idle => needed idle ?_)
      (fun _ => .other (Use.finding_code_ne _ _))
      fun after unclean further => .pure (unchanged further fun clean => absurd clean unclean)
    intro type found
    cases type <;> simp_all [Use.accepts]

/-- The place of a model is recognized, whether or not it is filled. -/
theorem isModel_works (consistent : Consistent env c) (id : TypeId) :
    Works env frames (isModel env id) c fun found after => after = c ∧ (found = false →
      ∀ key, c.Placed key id → (env.symbols.symbol key.symbol).kind ≠ .model) := by
  refine Works.get_bind ?_
  split
  · rename_i type stored
    refine .pure ⟨rfl, fun other key placed kind => ?_⟩
    have fits := kind ▸ consistent.holdings.fits key id type placed stored
    cases type with
    | model => cases other
    | _ => cases fits
  · refine .pure ⟨rfl, fun other key placed kind => ?_⟩
    simp [consistent.holdings.reserved key id placed, kind] at other

/-- What a model extends, if that is written as the name of a model without parameters. -/
private theorem baseExpr_works (bound : env.Bound)
    (sound : descent.Sound env) (base : TypeExpr) (ready : Ready env c) (held : context.Held env c)
    (licenses : env.Licenses c.stack (base.mentions env.symbols context.scope none)) :
    Works env c.stack (typeExpr env descent base context .reference) c fun id after =>
      (after.Has env id ∧ (after.Clean → Denotes True env after context base id) ∧
        after.Meets env (base.refers env.symbols context.scope context.file none)) ∧
        ∀ target, env.NamesModel context.scope base target →
          after.Answers env ⟨target, []⟩ .reference (some (context.location base.span)) id := by
  intro id after ran
  obtain ⟨moves, ⟨inside, denotes, _, meets, _⟩, made⟩ :=
    typeExpr_works bound sound base ready held (by simp) licenses id after ran
  refine ⟨moves, ⟨⟨inside, made⟩, denotes, meets⟩, ?_⟩
  rintro target ⟨named, kind, plain⟩
  exact (plainReference_works bound sound ready held named (.inl kind) plain (by simp) licenses
    id after ran).2

/-- It is written down which model the youngest declaration extends. -/
private theorem settle_moves (working : Working env frame rest c) (held : c.Holds base)
    (apart : baseChainReaches c.types frame.id (c.types.size + 1) base = false) :
    let after := c.log (.extended frame.id base)
    Moves env rest c after ∧ Working env frame rest after ∧ after.Settles frame.id base ∧
      ∀ id, c.Made env id → after.Made env id := by
  have step : Step env c _ := .settle working.stacked working.empty held apart
  refine ⟨.of_runs ⟨.single step, fun _ _ empty => empty, fun _ _ _ empty => empty,
    fun _ _ own _ => own, ⟨[_], rfl, ?_⟩⟩ rfl rfl rfl, ?_, ⟨[], c.history, rfl, nofun⟩, ?_⟩
  · intro other member event found
    rw [List.mem_singleton.mp found]
    exact (working.consistent.below_apart working.stacked other member).symm
  · exact ⟨⟨working.consistent.step step, working.unfilled, working.level⟩, working.stacked⟩
  · intro id made
    have history : (c.log (.extended frame.id base)).history =
        [.extended frame.id base] ++ c.history := rfl
    exact made.later step.grows rfl history (by simp)

/-- A model has the base that was settled for it. -/
private theorem Unwritten.extend {base : TypeExpr} (unwritten : Unwritten frame model)
    (grown : Grows c after) (arguments : ∀ arg ∈ frame.key.args, c.Holds arg) (held : c.Holds found)
    (stacked : after.stack = frame :: rest) (made : after.Made env found)
    (denotes : c.Clean → Denotes True env c context base found) (settles : after.Settles frame.id found)
    (answers : ∀ target, env.NamesModel context.scope base target →
      c.Answers env ⟨target, []⟩ .reference (some (context.location base.span)) found)
    (clean : after.Clean → c.Clean)
    (meets : after.Meets env (base.refers env.symbols context.scope context.file none)) :
    Inherited env after frame context (.extends base) { model with base := some found } := by
  have plain : (CheckedType.model model).Sound env after := unwritten.sound fun arg member =>
    grown.holds (arguments arg member)
  obtain ⟨properties, _, source, arguments, decorators⟩ := plain
  refine ⟨⟨properties, ?_, source, arguments, decorators⟩, ?_, ?_, ?_, unwritten.symbol,
    unwritten.template, ?_, ?_, meets, fun other leads => ?_, ?_⟩
  · rintro _ ⟨⟩
    exact grown.holds held
  · rintro _ ⟨⟩
    exact settles
  · rw [unwritten.properties, unwritten.decorators]
    exact fun _ => .extending
  · rintro _ _ target ⟨⟩ names
    rcases (answers target names).sure (.inl rfl) with placed | ⟨_, blames, _⟩
    · exact .inl ⟨found, rfl, grown.placed placed⟩
    · exact .inr (blames.grows grown)
  · rintro still _ ⟨⟩
    exact ⟨base, rfl, (denotes (clean still)).grows grown⟩
  · simp [unwritten.source]
  · cases leads with
    | property member => exact unwritten.made stacked (.property member)
    | base given => exact Option.some.inj given ▸ made
    | source given => exact unwritten.made stacked (.source given)
    | argument given member => exact unwritten.made stacked (.argument given member)
  · show after.Starts model.source model.properties
    rw [unwritten.source]
    exact unwritten.properties

/-- The base of a model is settled, unless something is wrong with it. -/
theorem baseOf_ensures (bound : env.Bound) (sound : descent.Sound env)
    (base : TypeExpr) (working : Working env frame rest c) (held : context.Held env c)
    (licenses : env.Licenses c.stack ((Heritage.extends base).mentions env.symbols context.scope))
    (explained : ∀ after : Checker, after.Justifies env (.report .cyclicReference
      (cyclicMessage env frame.key.symbol) (some (context.location base.span))))
    (unwritten : Unwritten frame model) :
    Ensures (baseOf env descent frame.key.symbol frame.id base context model) c fun derived after =>
      Moves env rest c after ∧ Working env frame rest after ∧
        Inherited env after frame context (.extends base) derived ∧
          ∀ id, c.Made env id → after.Made env id := by
  unfold baseOf
  refine Ensures.bind (baseExpr_works bound sound base working.toReady held licenses) ?_
  rintro found middle ⟨moves, ⟨inside, denotes, meets⟩, answers⟩
  rw [working.stacked] at moves
  have begun := working.moves moves
  -- Without a base the model is as it was before, and a cycle or an error is the reason.
  have baseless {after : Checker} (further : Moves env (frame :: rest) middle after)
      (reason : after.abandoning = none → ∀ target, env.NamesModel context.scope base target →
        after.Blames env target (some (context.location base.span))) :
      Moves env rest c after ∧ Working env frame rest after ∧
        Inherited env after frame context (.extends base) model ∧
          ∀ id, c.Made env id → after.Made env id := by
    refine ⟨(moves.trans further).of_rest, begun.moves further,
      unwritten.inherited (begun.moves further).held_args (begun.moves further).stacked
        (fun _ => .extending) ?_ (meets.moves further),
      fun id => working.made (moves.trans further)⟩
    rintro idle _ target ⟨⟩ names
    exact reason idle target names
  rw [Ensures.bind_iff, Ensures.get_iff]
  refine Ensures.ite (fun cycle => ?_) fun apart => ?_
  · rw [Ensures.bind_iff, errorAt, report, Ensures.modify_iff, Ensures.pure_iff]
    refine baseless (.report middle _ (fun _ => .of_code ?_) fun _ => explained middle) ?_
    · exact (by decide : Code.cyclicReference.Unrelated)
    · exact fun idle _ _ => .inr ⟨_, Checker.mem_report idle, rfl, rfl⟩
  · have recognizes : Works env rest (isModel env found) middle _ :=
      isModel_works begun.consistent found
    refine Ensures.bind recognizes ?_
    rintro recognized after ⟨_, same, other⟩
    obtain rfl := same.symm
    cases recognized with
    | true =>
      rw [if_pos rfl, Ensures.bind_iff, Ensures.modify_iff, Ensures.pure_iff]
      obtain ⟨further, still, settles, carried⟩ :=
        settle_moves begun inside.held (by simpa using apart)
      refine ⟨moves.of_rest.trans further, still, ?_, fun id made => carried id (working.made moves made)⟩
      exact unwritten.extend further.grows begun.held_args inside.held still.stacked
        (carried _ inside.made) denotes settles answers further.clean (meets.moves further)
    | false =>
      have reason (idle : middle.abandoning = none) (target : SymbolId)
          (names : env.NamesModel context.scope base target) :
          middle.Blames env target (some (context.location base.span)) := by
        rcases (answers target names).sure (.inl rfl) with placed | ⟨_, blames, _⟩
        · obtain ⟨_, kind, _⟩ := names
          exact absurd kind (other rfl _ placed)
        · exact blames
      simp only [Bool.false_eq_true, if_false]
      split
      · exact Ensures.pure_iff.mpr (baseless (.refl _ _ _) reason)
      · exact Ensures.pure_iff.mpr (baseless (.refl _ _ _) reason)
      · rw [Ensures.bind_iff, errorAt, report, Ensures.modify_iff, Ensures.pure_iff]
        refine baseless (.report middle _ (fun _ => .of_message ?_) fun _ => .other ?_)
          fun idle target names => ?_
        · intro use
          cases use <;> simp [Use.message, Diagnostic.report]
        · exact (by decide : Code.invalidBaseType ≠ .cyclicReference)
        · exact (reason idle target names).grows (.report _)

/-! The bodies of declarations. -/

/-- The declaration of the youngest frame, and where its body is read. -/
structure Reading (env : Environment) (c : Checker) (frame : Frame) (location : Location)
    (definition : Definition) (context : Context) : Prop where
  declared : (env.symbols.symbol frame.key.symbol).declarations.head? = some ⟨location, definition⟩
  kind : definition.kind = (env.symbols.symbol frame.key.symbol).kind
  substitution : Substitution.ofArguments (env.symbols.symbol frame.key.symbol).templateParams
    frame.key.args = .ok context.subst
  inside : context = c.bodyContext (env.symbols.symbol frame.key.symbol) ⟨location, definition⟩
    context.subst frame.id
  held : context.Held env c

section
variable (reading : Reading env before frame location definition context)
  (working : Working env frame rest before)
include reading working

/-- The declaration is read on as long as what was made in the work on it counts. -/
theorem Reading.carry (grown : Grows before after)
    (carried : ∀ id, before.Made env id → after.Made env id) :
    Reading env after frame location definition context := by
  refine { reading with
    inside := reading.inside.trans ?_
    held := fun param id value => ?_ }
  · rw [Checker.bodyContext, Checker.bodyContext,
      grown.isDependent (working.consistent.holds_placed working.placed)]
  · have has := reading.held param id value
    exact ⟨grown.holds has.held, carried id has.made⟩

theorem Reading.moves (moves : Moves env (frame :: rest) before after) :
    Reading env after frame location definition context :=
  reading.carry working moves.grows fun _ => working.made moves

end

section
variable (reading : Reading env c frame location definition context)
include reading

theorem Reading.scope : context.scope = (env.symbols.symbol frame.key.symbol).bodyScope := by
  rw [reading.inside]
  rfl

theorem Reading.file : context.file = location.file := by
  rw [reading.inside]
  rfl

/-- A declaration that is deprecated has a type that is, if the decorators that are written at it
are among those of the type. -/
theorem Reading.carries {own : List Application}
    (carried : ∀ expr ∈ definition.decorators, env.Deprecating context.scope expr →
      ∃ application ∈ own, Builtin.Deprecates application) {type : CheckedType}
    (among : ∀ application ∈ own, application ∈ type.decorators)
    (deprecates : env.Deprecates frame.key.symbol) : type.Deprecated := by
  obtain ⟨declaration, declared, expr, member, deprecating⟩ := deprecates
  cases reading.declared.symm.trans declared
  obtain ⟨application, given, applied⟩ := carried expr member (reading.scope ▸ deprecating)
  exact ⟨application, among application given, applied⟩

theorem Reading.dependent : context.dependent = c.isDependent frame.id := by
  rw [reading.inside]
  rfl

theorem Reading.reads (written : ReadsBody True env c context definition type) :
    Reads env c frame.key frame.id type := by
  intro declaration subst declared substitution
  cases reading.declared.symm.trans declared
  cases reading.substitution.symm.trans substitution
  rw [← reading.inside]
  exact written

theorem Reading.links (refers : Refers env c context frame.key definition type) :
    ReadsLinks env c frame.key frame.id type := by
  intro declaration subst declared substitution
  cases reading.declared.symm.trans declared
  cases reading.substitution.symm.trans substitution
  rw [← reading.inside]
  exact refers

end

private theorem mem_args {template : Option TemplateInstance}
    (arguments : ∀ made ∈ template, made.arguments = args)
    (member : id ∈ template.toList.flatMap (·.arguments)) : id ∈ args := by
  obtain ⟨made, given, inside⟩ := List.mem_flatMap.mp member
  exact arguments made (Option.mem_toList.mp given) ▸ inside

/-- A model is stored with what it takes over, its members and its decorators. -/
private theorem Reading.completes_model
    (reading : Reading env c frame location (.model decl) context) (idle : c.abandoning = none)
    {model : ModelType} (inherited : Inherited env c frame context decl.heritage model)
    {properties : List Property}
    (members : Assembles env c context decl.members model.properties properties)
    (distinct : (properties.map Property.name).Nodup)
    (gathered : ∃ steady, c.Keeps (some frame.key) (.gathered
      ⟨some frame.key, context, decl.members, model.properties, properties, steady⟩))
    (decorators : (∀ application ∈ own, application.Sound env c) ∧
      (c.Clean → Decorates True env c context decl.decorators own))
    (carried : ∀ expr ∈ decl.decorators, env.Deprecating context.scope expr →
      ∃ application ∈ own, Builtin.Deprecates application) :
    Completes env c frame
      (.model { model with properties, decorators := model.decorators ++ own }) where
  sound := by
    obtain ⟨_, base, source, arguments, inheritedDecorators⟩ := inherited.sound
    refine ⟨fun property member => (members.kept property member).sound, base, source, arguments,
      fun application member => ?_⟩
    rcases List.mem_append.mp member with early | late
    · exact inheritedDecorators application early
    · exact decorators.1 application late
  fits := reading.kind.symm
  settled := by
    rintro _ base ⟨⟩ given
    exact inherited.settled base given
  reads := by
    intro nothing
    have clean : c.Clean := ⟨idle, nothing⟩
    obtain ⟨contributed, same, contributes⟩ := members.contributes clean
    exact reading.reads ⟨_, rfl, _, _, contributed, own, inherited.inherits clean, contributes,
      decorators.2 clean, same, rfl⟩
  links := fun nothing => reading.links (.model inherited.symbol
    (inherited.extended ⟨idle, nothing⟩) (inherited.copied ⟨idle, nothing⟩) inherited.template)
  base := by
    intro place other base target declared extending names
    cases reading.declared.symm.trans declared
    rcases inherited.base idle base target extending (reading.scope ▸ names) with
      ⟨place, given, placed⟩ | blames
    · exact .inl ⟨_, place, rfl, given, placed⟩
    · exact .inr (reading.file ▸ blames)
  meets := by
    simp only [Environment.refers, reading.declared, ← reading.scope, ← reading.file]
    exact inherited.meets.append members.meets idle
  carries := fun deprecates _ => reading.carries carried
    (fun application member => List.mem_append_right _ member) deprecates
  parameters := by simp
  made := by
    intro id leads
    cases leads with
    | property member => exact (members.kept _ member).made
    | base given => exact inherited.made id (.base given)
    | source given => exact inherited.made id (.source given)
    | argument given member => exact inherited.made id (.argument given member)
  named := by
    intro others same
    have bare : model.symbol = none := congrArg ModelType.symbol (CheckedType.model.inj same)
    cases inherited.symbol.symm.trans bare
  distinct := by
    rintro _ ⟨⟩
    exact distinct
  composes := by
    obtain ⟨steady, gathered⟩ := gathered
    exact .model reading.declared gathered rfl rfl inherited.starts rfl
  parts := by
    intro id member
    simp only [CheckedType.textParts, inherited.symbol, Option.isNone_some, Bool.false_eq_true,
      if_false, List.append_nil] at member
    exact mem_args inherited.template member

section
variable (bound : env.Bound) (sound : descent.Sound env)
  (working : Working env frame rest c)
  (reading : Reading env c frame location (.model decl) context)
include bound sound working reading

/-- The members and the decorators of a model are read after its heritage. -/
private theorem modelMembers_finishes
    (inherited : Inherited env c frame context decl.heritage model) :
    Finishes env frame rest (do
      let properties ← gathering decl.members context model.properties
        (memberList env descent decl.members context model.properties)
      let own ← decoratorList env descent decl.decorators context
      finish frame.id (.model { model with properties, decorators := model.decorators ++ own })
      decorate env frame.id context) c := by
  have licenses := working.licenses
  simp only [Environment.text, reading.declared, Option.map_some, ← reading.scope] at licenses
  refine Works.finishes working (gathering_works (memberList_works bound sound
    working.toReady reading.held licenses.left.right fun property member =>
      ⟨inherited.sound.1 property member, inherited.made _ (.property member)⟩)) ?_
  rintro properties second moves begun ⟨assembles, steady, gathered⟩
  have inherited := inherited.moves working moves
  have reading := reading.moves working moves
  rw [working.stacked, ← begun.stacked] at licenses
  refine Works.finishes begun ((decoratorList_works bound sound begun.toReady
    reading.held licenses.right).both decoratorList_carries) ?_
  rintro own third moves near ⟨⟨applied, decorates, _⟩, carried⟩
  have reading := reading.moves begun moves
  refine finish_decorate_finishes near (fun idle => ?_) reading.dependent
  have still : Moves env second.stack second third := begun.stacked ▸ moves
  rw [begun.worker] at gathered
  exact reading.completes_model idle (inherited.moves begun moves) (assembles.moves still)
    (assembles.distinct (inherited.distinct begun.consistent))
    ⟨steady, (begun.retains moves).keeps _ gathered⟩ ⟨applied, decorates⟩ carried

theorem modelBody_finishes (arguments : ∀ made ∈ template, made.arguments = frame.key.args) :
    Finishes env frame rest
      (modelBody env descent frame.key.symbol decl template context frame.id) c := by
  have unwritten : Unwritten frame
      { name := decl.name.name, symbol := some frame.key.symbol, template } :=
    ⟨rfl, rfl, rfl, rfl, rfl, arguments⟩
  have licenses := working.licenses
  simp only [Environment.text, reading.declared, Option.map_some, ← reading.scope] at licenses
  unfold modelBody
  dsimp only
  split
  · rename_i plain
    rw [pure_bind]
    refine modelMembers_finishes bound sound working reading
      (unwritten.inherited working.held_args working.stacked ?_ ?_ ?_)
    · rw [plain]; exact fun _ => .plain
    · rw [plain]; simp
    · rw [plain]; exact .nil
  · rename_i source copies
    rw [copies] at licenses
    refine Works.finishes working (sourceOf_works bound sound working reading.held
      licenses.left.left unwritten) ?_
    rintro copy middle moves begun inherited
    exact modelMembers_finishes bound sound begun (reading.moves working moves) (copies ▸ inherited)
  · rename_i base extending
    rw [extending] at licenses
    have explained (after : Checker) : after.Justifies env (.report .cyclicReference
        (cyclicMessage env frame.key.symbol) (some (context.location base.span))) := by
      refine ⟨.extension reading.declared extending ?_, fun _ message => ?_⟩
      · rw [Context.location, reading.inside]
        rfl
      · exact absurd message cyclicMessage_ne_tooDeep
    refine Ensures.bind (baseOf_ensures bound sound base working reading.held licenses.left.left
      explained unwritten) ?_
    rintro derived middle ⟨moves, begun, inherited, carried⟩
    refine Ensures.weaken (modelMembers_finishes bound sound begun
      (reading.carry working moves.grows carried) (extending ▸ inherited)) ?_
    exact fun _ _ ends => ends.behind moves

end

/-- What is stored for a declaration other than a model. -/
private theorem Reading.completes_other (reading : Reading env c frame location definition context)
    (other : definition.kind ≠ .model) (idle : c.abandoning = none) (sound : type.Sound env c)
    (fits : type.Fits definition.kind) (reads : c.Clean → ReadsBody True env c context definition type)
    (refers : c.Clean → Refers env c context frame.key definition type)
    (meets : c.Meets env (env.refers frame.key.symbol))
    (carries : env.Deprecates frame.key.symbol → type ≠ .error → type.Deprecated)
    (parameters : ∀ operation, type = .operation operation →
      .nameless (some frame.id) operation.parameters ∈ c.history)
    (made : ∀ id, type.Leads env id → c.Made env id) (composes : c.Composes env frame.key type)
    (parts : ∀ id ∈ type.textParts, id ∈ frame.key.args) : Completes env c frame type where
  sound := sound
  fits := reading.kind ▸ fits
  settled := by
    rintro model base rfl given
    exact absurd fits other
  reads := fun nothing => reading.reads (reads ⟨idle, nothing⟩)
  links := fun nothing => reading.links (refers ⟨idle, nothing⟩)
  base := by
    intro place decl base target declared
    cases reading.declared.symm.trans declared
    exact absurd rfl other
  meets := meets idle
  carries := carries
  parameters := parameters
  made := made
  named := by
    rintro properties rfl
    exact absurd fits other
  distinct := by
    rintro model rfl
    exact absurd fits other
  composes := composes
  parts := parts

theorem writtenOperation_finishes (bound : env.Bound)
    (sound : descent.Sound env) (working : Working env frame rest c)
    (reading : Reading env c frame location (.operation decl) context) {parameters : List Member}
    {span : Span} (signature : decl.signature = .written parameters span returns)
    (sourceless : operation.source = none)
    (arguments : ∀ made ∈ operation.template, made.arguments = frame.key.args) :
    Finishes env frame rest
      (writtenOperation env descent operation decl parameters returns context frame.id) c := by
  have licenses := working.licenses
  simp only [Environment.text, reading.declared, Option.map_some, ← reading.scope, signature]
    at licenses
  unfold writtenOperation
  refine Works.finishes working (gathering_works (memberList_works bound sound
    working.toReady reading.held licenses.left.left (by simp))) ?_
  rintro properties first one begun ⟨assembles, steady, gathered⟩
  refine Works.finishes begun (alloc_works begun.toReady
    (fun property member => (assembles.kept property member).sound) begun.on_top
    (assembles.distinct (by simp))) ?_
  rintro place second two near ⟨stored, nameless, _⟩
  have reading := (reading.moves working one).moves begun two
  rw [working.stacked, ← near.stacked] at licenses
  refine Works.finishes near (typeExpr_works bound sound returns near.toReady reading.held
    (by simp) licenses.left.right) ?_
  rintro result third three close ⟨⟨inside, denotes, _, met, _⟩, made⟩
  have reading := reading.moves near three
  rw [near.stacked, ← close.stacked] at licenses
  refine Works.finishes close ((decoratorList_works bound sound close.toReady
    reading.held licenses.right).both decoratorList_carries) ?_
  rintro own last four ending ⟨⟨applied, decorates, _⟩, carried⟩
  have kept := four.grows.filled _ _ (three.grows.filled _ _ stored)
  have reading := reading.moves close four
  refine finish_decorate_finishes ending (fun idle => ?_) reading.dependent
  refine reading.completes_other (by simp [Definition.kind]) idle ⟨?_, ?_, ?_, ?_, applied⟩ rfl ?_
    (fun _ => .written signature sourceless arguments) ?_
    (fun deprecates _ => reading.carries carried (fun _ member => member) deprecates) ?_
    (fun id leads => ?_) ?_ fun _ => mem_args arguments
  · exact TypeStore.lt_size_of_get? kept
  · exact four.grows.holds inside
  · simp [sourceless]
  · exact fun made given => arguments made given ▸ ending.held_args
  · intro clean
    obtain ⟨contributed, same, all⟩ :=
      assembles.contributes (two.clean (three.clean (four.clean clean)))
    rw [List.nil_append] at same
    subst same
    simp only [ReadsBody, signature]
    exact ⟨_, rfl, properties, kept, all.grows (two.grows.trans (three.grows.trans four.grows)),
      (denotes (four.clean clean)).grows four.grows, decorates clean⟩
  · simp only [Environment.refers, reading.declared, ← reading.scope, ← reading.file, signature]
    exact (assembles.meets.moves (two.trans (three.trans four))).append (met.moves four)
  · rintro _ ⟨⟩
    exact (three.grows.trans four.grows).history.subset nameless
  · cases leads with
    | parameters =>
      refine .parameters kept ((three.grows.trans four.grows).history.subset nameless) ?_
      exact fun property member =>
        begun.made (two.trans (three.trans four)) (assembles.kept property member).made
    | returns => exact close.made four made
    | signature given => simp [sourceless] at given
    | operationArgument given member =>
      exact .given ending.stacked (arguments _ given ▸ member)
  · rw [begun.worker] at gathered
    have retains := begun.retains (two.trans (three.trans four))
    exact .written reading.declared signature sourceless (retains.keeps _ gathered) rfl rfl rfl kept

/-- What is said of an operation that takes over its own signature is said of nothing else. -/
private theorem chained_message (name : String) (use : Use) :
    s!"Cannot reuse the signature of '{name}', which itself reuses another operation's signature." ≠
      use.message := by
  intro same
  have start := congrArg (fun text : String => text.toList.take 8) same
  cases use <;> simp [Use.message, toString] at start

/-- What is known where an operation takes over the signature at a place. -/
structure Taking (env : Environment) (c : Checker) (key : ResolutionKey) (context : Context)
    (decl : OperationDecl) (source : TypeExpr) (id : TypeId) (own : List Application) : Prop where
  signature : decl.signature = .reuse source
  held : c.Holds id
  denotes : c.Clean → Denotes True env c context source id
  meets : c.Meets env (env.refers key.symbol)
  made : c.Made env id
  evaluated : c.Evaluated (some key) source id
  applied : ∀ application ∈ own, application.Sound env c
  uses : c.Uses env (some key) context decl.decorators own
  carried : ∀ expr ∈ decl.decorators, env.Deprecating context.scope expr →
    ∃ application ∈ own, Builtin.Deprecates application

theorem Taking.reads (taking : Taking env before key context decl source id own)
    (type : CheckedType) : ReadsBody True env c context (.operation decl) type := by
  simp only [ReadsBody, taking.signature]

section
variable (working : Working env frame rest c)
  (reading : Reading env c frame location (.operation decl) context)
include working reading

/-- An operation is found whose signature is its own. Its parameters are copied. -/
private theorem takenOperation_finishes {operation : OperationType}
    (arguments : ∀ made ∈ operation.template, made.arguments = frame.key.args)
    (taking : Taking env c frame.key context decl source id own)
    (named : c.types.get? id = some (.operation found)) (original : ¬ found.source.isSome) :
    Finishes env frame rest (do
      let c ← get
      let properties := ((c.types.model? found.parameters).map (·.properties)).getD []
      let parameters ← alloc properties (context.dependent || c.isDependent id) (some frame.id)
      finish frame.id (.operation { operation with
        parameters, returns := found.returns, source := some id,
        decorators := found.decorators ++ own })
      decorate env frame.id context) c := by
  refine Ensures.bind_iff.mpr (Ensures.get_iff.mpr ?_)
  have properties := working.consistent.sound_parameters found.parameters
  obtain ⟨_, parameters, within⟩ := working.consistent.holdings.owned _ _ named
  have same : ((c.types.model? found.parameters).map (·.properties)).getD [] = parameters := by
    simp [TypeStore.model?, within, CheckedType.model?]
  refine Works.finishes working (alloc_works working.toReady properties working.on_top
    (same ▸ working.consistent.holdings.distinct _ _ within)) ?_
  rintro place after moves close ⟨stored, nameless, _⟩
  obtain ⟨_, returns, _, _, decorators⟩ := working.consistent.holdings.sound id _ named
  have grown := moves.grows
  have kept : after.types.get? id = some (.operation found) := grown.filled _ _ named
  have reading := reading.moves working moves
  refine finish_decorate_finishes close (fun idle => ?_) reading.dependent
  refine reading.completes_other (by simp [Definition.kind]) idle ⟨?_, ?_, ?_, ?_, ?_⟩ rfl
    (fun _ => taking.reads _) (fun clean => ?_) (taking.meets.moves moves) (fun deprecates _ => ?_) ?_
    (fun other leads => ?_) ?_ fun _ => mem_args arguments
  · exact TypeStore.lt_size_of_get? stored
  · exact grown.holds returns
  · rintro _ ⟨⟩
    exact grown.holds taking.held
  · exact fun made given => arguments made given ▸ close.held_args
  · intro application member
    rcases List.mem_append.mp member with early | late
    · exact (decorators application early).grows grown
    · exact (taking.applied application late).grows grown
  · refine .reuse taking.signature ((taking.denotes (moves.clean clean)).grows grown) kept rfl rfl
      stored (fun property member => ?_) arguments
    obtain ⟨model, held, among⟩ := TypeStore.exists_model_of_mem member
    exact ⟨model, grown.filled _ _ held, among⟩
  · exact reading.carries taking.carried (fun _ => List.mem_append_right _) deprecates
  · rintro _ ⟨⟩
    exact nameless
  · have whole : after.Made env id := working.made moves taking.made
    cases leads with
    | parameters =>
      refine .parameters stored nameless fun property member => ?_
      obtain ⟨model, held, among⟩ := TypeStore.exists_model_of_mem member
      exact .part (.part whole ⟨_, kept, .parameters⟩) ⟨_, grown.filled _ _ held, .property among⟩
    | returns => exact .part whole ⟨_, kept, .returns⟩
    | signature given => exact Option.some.inj given ▸ whole
    | operationArgument given member => exact .given close.stacked (arguments _ given ▸ member)
  · have retains := working.retains moves
    exact .reused rfl ⟨reading.declared, taking.signature, taking.evaluated.later retains, kept,
      by simpa using original, rfl, grown.filled _ _ within, same ▸ stored, reading.scope,
      reading.file, taking.uses.later retains, rfl⟩

variable (bound : env.Bound) (sound : descent.Sound env)
include bound sound

theorem reusingOperation_finishes (signature : decl.signature = .reuse source)
    {operation : OperationType}
    (arguments : ∀ made ∈ operation.template, made.arguments = frame.key.args) :
    Finishes env frame rest
      (reusingOperation env descent operation decl source context frame.id) c := by
  have licenses := working.licenses
  simp only [Environment.text, reading.declared, Option.map_some, ← reading.scope, signature]
    at licenses
  unfold reusingOperation
  refine Works.finishes working ((typeExpr_works bound sound source working.toReady reading.held
    (by simp) licenses.left).both typeExpr_evaluated) ?_
  rintro id first one begun ⟨⟨⟨inside, denotes, there, met, _⟩, made⟩, evaluated⟩
  have reading := reading.moves working one
  refine Works.finishes begun (need_works .signature (there rfl)) ?_
  rintro _ noted two begun' ⟨needed, _⟩
  have reading := reading.moves begun two
  rw [working.stacked, ← begun'.stacked] at licenses
  refine Works.finishes begun' ((decoratorList_works bound sound begun'.toReady
    reading.held licenses.right).both decoratorList_carries) ?_
  rintro own second three near ⟨⟨applied, _, _, uses⟩, carried⟩
  have reading := reading.moves begun' three
  have moves := two.trans three
  rw [begun.worker] at evaluated
  rw [near.worker] at uses
  have taking : Taking env second frame.key context decl source id own := by
    refine ⟨signature, moves.grows.holds inside,
      fun clean => (denotes (moves.clean clean)).grows moves.grows, ?_, begun.made moves made,
      evaluated.later (begun.retains moves), applied, uses, carried⟩
    simp only [Environment.refers, reading.declared, ← reading.scope, ← reading.file, signature]
    exact met.moves moves
  have wrong {c : Checker} (working : Working env frame rest c)
      (reading : Reading env c frame location (.operation decl) context)
      (refers : c.Clean → Refers env c context frame.key (.operation decl) .error)
      (meets : c.Meets env (env.refers frame.key.symbol)) :
      Finishes env frame rest (finish frame.id .error) c :=
    finishError_finishes working fun idle => reading.completes_other (by simp [Definition.kind])
      idle trivial rfl (fun _ => taking.reads _) refers meets (by simp) (by simp) (by rintro _ ⟨⟩)
      .error (by simp [CheckedType.textParts])
  have reported {finding : Diagnostic} (error : finding.isError = true)
      (warranted : second.abandoning = none → second.Warrants env finding)
      (other : finding.code ≠ .cyclicReference) :
      Finishes env frame rest (do report finding; finish frame.id .error) second := by
    refine Works.finishes near (report_works _ warranted fun _ => .other other) ?_
    rintro _ _ moves after rfl
    exact wrong after (reading.moves near moves)
      (fun clean => absurd clean (Checker.not_clean_report error)) (taking.meets.moves moves)
  simp only [type?, bind_assoc, pure_bind]
  refine Ensures.bind_iff.mpr (Ensures.get_iff.mpr ?_)
  split
  · rename_i found named
    split
    · exact reported rfl (fun _ => .of_message (chained_message found.name)) (by
        simp [Diagnostic.report])
    · rename_i original
      exact takenOperation_finishes near reading arguments taking named original
  · rename_i named
    exact wrong near reading
      (fun clean => .reuseWrong signature (taking.denotes clean) (.inl named)) taking.meets
  · rename_i param named
    exact wrong near reading
      (fun clean => .reuseWrong signature (taking.denotes clean) (.inr ⟨param, named⟩)) taking.meets
  · rename_i operation error param
    refine reported rfl (fun idle => (needed (three.idle idle) fun type found => ?_).grows three.grows)
      (Use.finding_code_ne _ _)
    have later := three.grows.filled _ _ found
    cases type <;> simp_all [Use.accepts]

theorem operationBody_finishes (arguments : ∀ made ∈ template, made.arguments = frame.key.args) :
    Finishes env frame rest
      (operationBody env descent frame.key.symbol decl template context frame.id) c := by
  unfold operationBody
  dsimp only
  split
  · rename_i parameters span returns signature
    exact writtenOperation_finishes bound sound working reading signature rfl arguments
  · rename_i source signature
    exact reusingOperation_finishes working reading bound sound signature arguments

end

/-- The operations of an interface are in the store, each with the place of its declaration. -/
theorem checkOperations_works (sound : descent.Sound env) (operations : List SymbolId)
    (ready : Ready env c) (declares : ∀ operation ∈ operations, env.Declares operation)
    (licenses : env.Licenses c.stack (operations.map (⟨·, none⟩))) :
    Works env c.stack (checkOperations env descent operations) c fun listed after =>
      (∀ entry ∈ listed, after.Holds entry.2) ∧
        (∀ operation entry, (operation, entry) ∈ operations.zip listed →
          entry.2 = TypeStore.error ∨ ∃ args, after.Placed ⟨operation, args⟩ entry.2) ∧
        (after.Faultless → ∀ operation entry, (operation, entry) ∈ operations.zip listed →
          ∃ args, after.Placed ⟨operation, args⟩ entry.2) := by
  induction operations generalizing c with
  | nil => exact .pure ⟨by simp, by simp, by simp⟩
  | cons operation rest ih =>
    refine Works.bind (checkDeclaration_works sound ready (declares operation (by simp))
      (licenses.lets (List.mem_cons_self ..) (by simp))) ?_
    rintro id middle moves ⟨inside, right, placed⟩
    have step : Step env middle _ := .assign operation inside right placed
    refine .modify_bind (.of_runs (.of_step step rfl rfl [] rfl (by simp)) rfl rfl rfl) ?_
    have begun := (ready.moves moves).moves
      (.of_runs (.of_step step rfl rfl [] rfl (by simp)) rfl rfl rfl)
    rw [← moves.stack] at licenses ⊢
    refine Works.bind (ih begun (fun other member => declares other (List.mem_cons_of_mem _ member))
      (licenses.mono fun _ => List.mem_cons_of_mem _)) ?_
    rintro listed after further ⟨held, rights, places⟩
    have grown := step.grows.trans further.grows
    refine .pure ⟨fun other member => ?_, fun other entry member => ?_,
      fun faultless other entry member => ?_⟩
    · rcases List.mem_cons.mp member with rfl | member
      · exact grown.holds inside
      · exact held other member
    · rcases List.mem_cons.mp member with same | member
      · cases same
        rcases right with rfl | ⟨args, placed, _⟩
        · exact .inl rfl
        · exact .inr ⟨args, grown.placed placed⟩
      · exact rights other entry member
    · rcases List.mem_cons.mp member with same | member
      · cases same
        obtain ⟨args, placed⟩ := placed (grown.faultless faultless)
        exact ⟨args, grown.placed placed⟩
      · exact places faultless other entry member

section
variable (bound : env.Bound) (sound : descent.Sound env)
  (working : Working env frame rest c)
include bound sound working

theorem interfaceBody_finishes {decl : InterfaceDecl}
    {context : Context} (reading : Reading env c frame location (.interface decl) context) :
    Finishes env frame rest (interfaceBody env descent frame.key.symbol decl context frame.id) c := by
  unfold interfaceBody
  have operations := bound.operations reading.kind.symm
  have licenses := working.licenses
  simp only [Environment.text, reading.declared, Option.map_some, ← reading.scope] at licenses
  refine Works.finishes working (checkOperations_works sound _ working.toReady
    (fun operation member => .inr (.inl (operations operation member))) licenses.left) ?_
  rintro listed first one begun ⟨held, rights, places⟩
  have reading := reading.moves working one
  rw [working.stacked, ← begun.stacked] at licenses
  refine Works.finishes begun ((decoratorList_works bound sound begun.toReady
    reading.held licenses.right).both decoratorList_carries) ?_
  rintro own second two near ⟨⟨applied, _⟩, carried⟩
  have reading := reading.moves begun two
  refine finish_decorate_finishes near (fun idle => ?_) reading.dependent
  refine reading.completes_other (by simp [Definition.kind]) idle
    ⟨fun operation member => two.grows.holds (held operation member), applied⟩ rfl
    (fun _ => trivial) (fun clean => .interface rfl fun operation entry member => ?_) ?_
    (fun deprecates _ => reading.carries carried (fun _ member => member) deprecates) (by simp)
    (fun id leads => ?_) (.interface _) (by simp [CheckedType.textParts])
  · obtain ⟨args, placed⟩ := places (two.clean clean).2 operation entry member
    exact ⟨args, two.grows.placed placed⟩
  · simp only [Environment.refers, reading.declared]
    exact .nil
  · cases leads with
    | operation given member plain =>
      cases given
      exact begun.made two (begun.consistent.made_plain (rights _ _ member) (bound.plain plain))

/-- The body of a declaration is read with the arguments of its key, and the declaration is of the
kind of its symbol. -/
theorem symbolBody_finishes :
    Finishes env frame rest
      (symbolBody env descent frame.key frame.id (c.isDependent frame.id)) c := by
  have proper := working.consistent.holdings.proper _ _ working.placed
  obtain ⟨⟨location, definition⟩, declared, kind, _⟩ := bound.definition proper.declares.not_space
  obtain ⟨subst, substitution⟩ : ∃ subst, Substitution.ofArguments
      (env.symbols.symbol frame.key.symbol).templateParams frame.key.args = .ok subst :=
    ⟨_, Substitution.ofArguments_of_length proper.counted⟩
  have arguments : ∀ made ∈ (if frame.key.args.isEmpty then none
      else some ⟨frame.key.symbol, frame.key.args⟩ : Option TemplateInstance),
      made.arguments = frame.key.args := by
    intro made given
    split at given
    · cases given
    · cases given
      rfl
  have reading : Reading env c frame location definition
      (c.bodyContext (env.symbols.symbol frame.key.symbol) ⟨location, definition⟩ subst frame.id) :=
    ⟨declared, kind, substitution, rfl, fun _ id value =>
      have argument := Substitution.mem_of_get? substitution value
      ⟨proper.held id argument, .given working.stacked argument⟩⟩
  unfold symbolBody
  simp only [substitution, declared]
  cases definition with
  | model decl => exact modelBody_finishes bound sound working reading arguments
  | operation decl => exact operationBody_finishes working reading bound sound arguments
  | interface decl => exact interfaceBody_finishes bound sound working reading
  | _ => rcases proper.declares with other | other | other <;> cases kind.trans other

end

/-- Checking is sound at every level. -/
theorem descentOf_sound (bound : env.Bound) (levels : Nat) :
    (descentOf env levels).Sound env := by
  -- A body may lead to any other body, so the induction is on the levels and not on the syntax.
  induction levels with
  | zero => exact ⟨fun _ _ _ _ _ _ => Ensures.exhausted, fun _ _ _ _ _ _ => Ensures.exhausted⟩
  | succ levels ih =>
    refine ⟨fun c expr context ready held licenses => ?_, fun c frame rest ready stacked _ => ?_⟩
    · exact (typeExpr_works bound ih expr ready held (by simp) licenses).weaken
        fun _ _ _ result => ⟨⟨result.1.held, result.2⟩, result.1.denotes⟩
    · exact symbolBody_finishes bound ih ⟨ready, stacked⟩

end CheckM

end Idl
