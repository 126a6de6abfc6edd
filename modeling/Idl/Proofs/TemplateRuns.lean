import Idl.Proofs.ResolutionRuns

/-! Templates: the places of their parameters, the defaults of arguments that
are left out, and instances. -/
namespace Idl

/-- The symbols of a program are bound, with the decorators of its library. -/
abbrev Environment.Bound (env : Environment) : Prop := env.symbols.Bound env.library.size

namespace Checker
variable {c : Checker} {id : TypeId}

/-- A place that belongs to no frame that is given up can be filled while it is empty. -/
theorem finish_eq_fill (held : c.Holds id) (empty : c.Empty id) (outside : c.isUnwinding id = false)
    (type : CheckedType) : c.finish id type = c.fill id type := by
  rw [finish, outside, TypeStore.finish_of_empty held empty]
  rfl

theorem isUnwinding_of_outside (outside : ∀ frame ∈ c.stack, frame.id ≠ id) :
    c.isUnwinding id = false := by
  unfold isUnwinding
  split
  · rfl
  · rw [List.any_eq_false]
    intro frame mem
    simpa using outside frame (List.mem_of_mem_take mem)

end Checker

namespace CheckM
variable {descent : Descent}

/-- A parameter gets its place, something happens, and the place is filled. -/
private theorem fillParam_moves (ready : Ready env c) (new : c.paramTypes.get? param = none)
    (moves : Moves env c.stack (c.placeParam param).2 middle)
    {default : Option TypeId} (held : ∀ other ∈ default, middle.Holds other) :
    middle.Holds ⟨c.types.size⟩ ∧ middle.Empty ⟨c.types.size⟩ ∧
      Moves env c.stack c
        (middle.fill ⟨c.types.size⟩ (.templateParameter ⟨name, param, default⟩)) := by
  have placed : Step env c (c.placeParam param).2 := .placeParam new
  have own : (c.placeParam param).2.paramTypes.get? param = some ⟨c.types.size⟩ :=
    Dictionary.get?_insert_self ..
  have empty : middle.Empty ⟨c.types.size⟩ :=
    moves.pending param _ own (TypeStore.vacant_reserve c.types)
  have consistent := (ready.consistent.step placed).steps moves.steps
  have inside : middle.Holds ⟨c.types.size⟩ := consistent.holds_param (moves.grows.params _ _ own)
  have filled : Step env middle
      (middle.fill ⟨c.types.size⟩ (.templateParameter ⟨name, param, default⟩)) :=
    .fillParam (moves.grows.params _ _ own) empty held
  have other {id : TypeId} (different : id ≠ ⟨c.types.size⟩) (vacant : middle.Empty id) :
      (middle.fill ⟨c.types.size⟩ (.templateParameter ⟨name, param, default⟩)).Empty id := by
    rw [Checker.Empty, Checker.fill, TypeStore.get?_fill inside empty, if_neg different]
    exact vacant
  have old {id : TypeId} (held : c.Holds id) : id ≠ ⟨c.types.size⟩ := by
    rintro rfl
    exact Nat.lt_irrefl _ held
  refine ⟨inside, empty, {
    steps := (Relation.ReflTransGen.single placed).trans (moves.steps.tail filled)
    stack := moves.stack
    depth := moves.depth
    abandoning := moves.abandoning
    unfilled := ?_
    pending := ?_
    params := ?_
    quiet := ?_ }⟩
  · intro frame mem vacant
    refine other (old (ready.consistent.holds_frame mem)) (moves.unfilled frame mem ?_)
    exact (TypeStore.get?_reserve _ _).trans vacant
  · intro another id given vacant
    refine other (old (ready.consistent.holds_param given))
      (moves.pending another id (placed.grows.params _ _ given) ?_)
    exact (TypeStore.get?_reserve _ _).trans vacant
  · intro another id given vacant
    have different : id ≠ ⟨c.types.size⟩ := by
      rintro rfl
      rw [Checker.Empty, Checker.fill, TypeStore.get?_fill inside empty, if_pos rfl] at vacant
      cases vacant
    rw [Checker.Empty, Checker.fill, TypeStore.get?_fill inside empty, if_neg different] at vacant
    have earlier := moves.params another id given vacant
    rw [Checker.placeParam, Dictionary.get?_insert] at earlier
    split at earlier
    · exact absurd (Option.some.inj earlier).symm different
    · exact earlier
  · obtain ⟨added, history, calm⟩ := moves.quiet
    refine ⟨.filled ⟨c.types.size⟩ (.templateParameter ⟨name, param, default⟩) ::
      (added ++ [.placedParam param ⟨c.types.size⟩]), ?_, ?_⟩
    · simp [Checker.fill, history, Checker.placeParam, TypeStore.reserve]
    · intro frame mem event found
      simp only [List.mem_cons, List.mem_append, List.not_mem_nil, or_false] at found
      rcases found with rfl | found | rfl
      · exact True.intro
      · exact calm frame mem event found
      · exact True.intro

section
variable (sound : descent.Sound env)
include sound

/-- A parameter gets its place, and the place its type once the default is known. -/
theorem paramType_works (ready : Ready env c) {param : SymbolId}
    (opened : env.Opens c.stack param) :
    Works env c.stack (paramType env descent param) c fun id after =>
      after.paramTypes.get? param = some id := by
  refine Works.get_bind ?_
  cases own : c.paramTypes.get? param with
  | some id => exact .pure own
  | none =>
    have placed : Step env c (c.placeParam param).2 := .placeParam own
    have begun : Ready env (c.placeParam param).2 :=
      ⟨ready.consistent.step placed, fun frame mem =>
        (TypeStore.get?_reserve _ _).trans (ready.unfilled frame mem), ready.level⟩
    have ended {default : Option TypeId} {middle : Checker}
        (moves : Moves env c.stack (c.placeParam param).2 middle)
        (held : ∀ other ∈ default, middle.Holds other) :
        Ensures (do
          finish (c.placeParam param).1
            (.templateParameter ⟨(env.symbols.symbol param).name, param, default⟩)
          return (c.placeParam param).1) middle fun id after =>
            Moves env c.stack c after ∧ after.paramTypes.get? param = some id := by
      obtain ⟨inside, empty, all⟩ := fillParam_moves ready own moves held
      have consistent := begun.consistent.steps moves.steps
      have given : middle.paramTypes.get? param = some ⟨c.types.size⟩ :=
        moves.grows.params _ _ (Dictionary.get?_insert_self ..)
      have outside : ∀ frame ∈ middle.stack, frame.id ≠ ⟨c.types.size⟩ := by
        intro frame mem same
        have placed := (consistent.keys.frames frame mem).1
        rw [same] at placed
        exact consistent.ledger.param_apart placed ((consistent.params.listed param _).mpr given)
      rw [Ensures.bind_iff, finish, Ensures.modify_iff, Ensures.pure_iff]
      have filled := Checker.finish_eq_fill inside empty (Checker.isUnwinding_of_outside outside)
        (.templateParameter ⟨(env.symbols.symbol param).name, param, default⟩)
      exact ⟨filled ▸ all, filled ▸ given⟩
    rw [Works, Ensures.bind_iff, Ensures.modifyGet_iff]
    dsimp only
    split
    · rename_i file expr written
      have licenses := opened.licenses
      rw [Environment.text_default written] at licenses
      rw [Ensures.bind_iff, Ensures.map_iff]
      refine Ensures.weaken (sound.default _ _ _ begun ?_ licenses) ?_
      · intro _ _ given
        cases given
      · rintro id middle ⟨moves, held, _⟩
        refine ended moves fun other given => ?_
        cases given
        exact held.held
    · rw [Ensures.bind_iff, Ensures.pure_iff]
      exact ended (.refl ..) (by simp)

/-- The places of parameters, one after the other. -/
theorem paramTypes_works (params : List SymbolId) (ready : Ready env c)
    (opened : ∀ param ∈ params, env.Opens c.stack param) :
    Works env c.stack (paramTypes env descent params) c fun ids after =>
      params.map after.paramTypes.get? = ids.map some ∧ ∀ id ∈ ids, after.Holds id := by
  induction params generalizing c with
  | nil => exact .pure ⟨rfl, nofun⟩
  | cons param rest ih =>
    refine Works.bind (paramType_works sound ready (opened param (List.mem_cons_self ..))) ?_
    intro id middle moves own
    have begun := ready.moves moves
    have held := begun.consistent.holds_param own
    rw [← moves.stack] at opened ⊢
    refine Works.bind (ih begun fun other mem => opened other (List.mem_cons_of_mem _ mem)) ?_
    rintro ids after moves ⟨owned, others⟩
    refine .pure ⟨?_, fun other mem => ?_⟩
    · rw [List.map_cons, List.map_cons, moves.grows.params param id own, owned]
    · rcases List.mem_cons.mp mem with rfl | mem
      · exact moves.grows.holds held
      · exact others other mem

/-- A declaration on its own. -/
theorem checkDeclaration_works (ready : Ready env c) (declares : env.Declares symbol)
    (lets : env.Lets c.stack symbol .reference) :
    Works env c.stack (checkDeclaration env descent symbol) c fun id after =>
      after.Holds id ∧ (id = TypeStore.error ∨ ∃ args, after.Placed ⟨symbol, args⟩ id ∧
        after.isDeclarationView env.symbols ⟨symbol, args⟩ = true) ∧
        (after.Faultless → ∃ args, after.Placed ⟨symbol, args⟩ id) := by
  refine Works.bind (paramTypes_works sound _ ready fun param mem => lets.opens mem) ?_
  rintro args middle moves ⟨owned, held⟩
  have begun := ready.moves moves
  have counted := congrArg List.length owned
  rw [List.length_map, List.length_map] at counted
  have view : middle.isDeclarationView env.symbols ⟨symbol, args⟩ = true := decide_eq_true owned
  rw [← moves.stack] at lets ⊢
  have right : TypeStore.error ∉ args := by
    intro mem
    obtain ⟨param, _, own⟩ := List.mem_map.mp (owned ▸ List.mem_map_of_mem mem)
    obtain ⟨_, _, wrong⟩ :=
      begun.consistent.params.stored param _ _ own begun.consistent.tables.error
    cases wrong
  refine (resolveSymbol_works sound begun ⟨declares, counted, held, right⟩ lets).weaken ?_
  intro id after moves answers
  exact ⟨(begun.moves moves).consistent.holds_answer answers,
    answers.given.imp_right fun placed => ⟨args, placed, moves.grows.isDeclarationView view⟩,
    fun faultless => ⟨args, answers.placed (.inl rfl) faultless⟩⟩

/-- The default of a parameter is read one level down. -/
private theorem enter_default_works (ready : Ready env c)
    (held : context.Held env c) (written : ¬ env.Undefaulted)
    (licenses : env.Licenses c.stack (expr.mentions env.symbols context.scope none))
    {next : TypeId → CheckM α} (rest : ∀ id middle, Moves env c.stack c middle → middle.Has env id →
      (middle.Clean → Denotes True env middle context expr id) →
        Works env c.stack (next id) middle result)
    (deep : ∀ middle, ¬ middle.Clean → Works env c.stack other middle result) :
    Works env c.stack (do
      if ← enter location then
        let id ← descent.default expr context
        leave
        next id
      else other) c result := by
  refine Ensures.bind enter_ensures ?_
  rintro entered below (⟨rfl, rfl⟩ | ⟨rfl, _, finding, code, message, wrong, _, rfl⟩)
  · simp only [↓reduceIte]
    have down : Runs env c.stack c { c with depth := c.depth + 1 } :=
      .of_step .descend rfl rfl [] rfl (by simp)
    have held : context.Held env { c with depth := c.depth + 1 } :=
      fun param id value => down.has rfl (held param id value)
    refine Ensures.bind (sound.default _ expr context
      ⟨ready.consistent.step .descend, ready.unfilled, fun plain => absurd plain written⟩ held
      licenses) ?_
    rintro id middle ⟨moves, inside, denotes⟩
    have up : Runs env middle.stack middle { middle with depth := middle.depth - 1 } :=
      .of_step .ascend rfl rfl [] rfl (by simp)
    have all : Moves env c.stack c { middle with depth := middle.depth - 1 } :=
      { (down.trans moves.toRuns).trans (moves.stack ▸ up) with
        stack := moves.stack
        depth := by rw [moves.depth, Nat.add_sub_cancel]
        abandoning := moves.abandoning }
    rw [leave, Ensures.bind_iff, Ensures.modify_iff]
    refine Ensures.weaken (rest id _ all (up.has rfl inside) fun clean => (denotes clean).grows up.grows) ?_
    exact fun _ _ ended => ⟨all.trans ended.1, ended.2⟩
  · simp only [Bool.false_eq_true, ↓reduceIte]
    have reported : Moves env c.stack c (c.report finding) :=
      .report c finding (fun _ => .of_code (by rw [code]; decide)) fun _ => .deep message
        fun plain => absurd plain written
    refine Ensures.weaken (deep _ (Checker.not_clean_report wrong)) ?_
    exact fun _ _ ended => ⟨reported.trans ended.1, ended.2⟩

/-- Arguments are completed by the defaults of the parameters that are left. -/
theorem fillDefaults_works
    (rest : List SymbolId) (ready : Ready env c) (count : bound.length = args.length)
    (has : ∀ arg ∈ args, c.Has env arg) (right : TypeStore.error ∉ args)
    (opened : ∀ param ∈ rest, env.Opens c.stack param) :
    Works env c.stack (fillDefaults env descent template explicit location bound rest args) c
      fun result after => (∀ all ∈ result, all.length = bound.length + rest.length ∧
          (∀ arg ∈ all, after.Has env arg) ∧ TypeStore.error ∉ all) ∧
        (after.Clean → Fills True env after bound rest args result) := by
  induction rest generalizing bound args c with
  | nil =>
    refine .pure ⟨fun all given => ?_, fun _ => .done⟩
    cases given
    exact ⟨count.symm, has, right⟩
  | cons param rest ih =>
    unfold fillDefaults
    dsimp only
    split
    · exact errorAt_works _ fun after unclean _ => .pure ⟨nofun, fun clean => absurd clean unclean⟩
    · rename_i file expr written
      have binds := Substitution.ofArguments_of_length count
      have licenses := (opened param (List.mem_cons_self ..)).licenses
      rw [Environment.text_default written] at licenses
      rw [binds]
      refine Works.get_bind (enter_default_works sound ready ?_ ?_ licenses ?_ ?_)
      · exact fun param id value => has id (Substitution.mem_of_get? binds value)
      · intro plain
        cases (plain param).symm.trans written
      · intro id middle moves inside denotes
        have begun := ready.moves moves
        have held : ∀ arg ∈ args, c.Holds arg := fun arg mem => (has arg mem).held
        have kept : ∀ arg ∈ args, middle.Holds arg :=
          fun arg mem => moves.grows.holds (held arg mem)
        -- Whether the arguments mention parameters is asked before the default is read.
        rw [← moves.grows.anyDependent held] at denotes
        refine Works.get_bind ?_
        split
        · rename_i error
          exact .pure ⟨nofun, fun clean => .broken trivial kept written binds (denotes clean) error⟩
        · rename_i right'
          have right : TypeStore.error ∉ args ++ [id] := by
            simp only [List.mem_append, List.mem_singleton, not_or]
            exact ⟨right, fun same => right' (by simp [TypeStore.isError, ← same])⟩
          rw [← moves.stack] at opened ⊢
          have inside : ∀ arg ∈ args ++ [id], middle.Has env arg := by
            intro arg mem
            rcases List.mem_append.mp mem with mem | mem
            · exact moves.has (has arg mem)
            · rw [List.mem_singleton.mp mem]
              exact inside
          have opened := fun other mem => opened other (List.mem_cons_of_mem _ mem)
          refine (ih begun (by simp [count]) inside right opened).weaken ?_
          rintro result after further ⟨filled, fills⟩
          refine ⟨fun all given => ⟨?_, (filled all given).2⟩, fun clean => ?_⟩
          · rw [(filled all given).1]
            simp only [List.length_append, List.length_cons, List.length_nil]
            omega
          · have denotes := (denotes (further.clean clean)).grows further.grows
            rw [← further.grows.anyDependent kept] at denotes
            exact .next (fun arg mem => further.grows.holds (kept arg mem)) written binds
              denotes (fills clean)
      · exact fun middle unclean => .pure ⟨nofun, fun clean => absurd clean unclean⟩

end

/-- The instance of a template. Only a model or an operation has parameters. -/
theorem instantiate_works (bound : env.Bound) (sound : descent.Sound env)
    (ready : Ready env c) (declares : args = [] → env.Declares template)
    (has : ∀ arg ∈ args, c.Has env arg)
    (lets : env.Lets c.stack template demand) :
    Works env c.stack (instantiate env descent template args location demand) c fun id after =>
      after.Holds id ∧ after.Ripe env id ∧
        (after.Clean → Instantiates True env after template args id) ∧
        (demand = .complete → ¬ after.Empty id) := by
  refine Works.get_bind ?_
  split
  · rename_i error
    obtain ⟨arg, mem, wrong⟩ := List.any_eq_true.mp error
    exact .pure ⟨ready.consistent.holds_error, .made .error, fun _ => .wrong trivial mem wrong,
      fun _ => ready.consistent.there_error⟩
  · rename_i sane
    have right : TypeStore.error ∉ args := fun mem =>
      sane (List.any_eq_true.mpr ⟨_, mem, by simp [TypeStore.isError]⟩)
    dsimp only
    split
    · exact errorAt_works _ fun after unclean moves => .pure
        ⟨(ready.moves moves).consistent.holds_error, .made .error,
          fun clean => absurd clean unclean, fun _ => (ready.moves moves).consistent.there_error⟩
    · rename_i enough
      have count : ((env.symbols.symbol template).templateParams.take args.length).length =
          args.length := by
        rw [List.length_take]
        omega
      have declares : env.Declares template := by
        by_cases none : args = []
        · exact declares none
        · have some : (env.symbols.symbol template).templateParams ≠ [] := by
            intro empty
            rw [empty] at enough
            exact enough (List.length_pos_iff.mpr none)
          exact (bound.templates some).2.imp_right .inl
      refine Works.bind (fillDefaults_works sound _ ready count has right
        fun param mem => lets.opens (List.mem_of_mem_drop mem)) ?_
      rintro result middle moves ⟨filled, fills⟩
      have begun := ready.moves moves
      rw [← moves.stack] at lets ⊢
      cases result with
      | none =>
        exact .pure ⟨begun.consistent.holds_error, .made .error,
          fun clean => .wrongDefault trivial (fills clean), fun _ => begun.consistent.there_error⟩
      | some all =>
        obtain ⟨length, has, right⟩ := filled all rfl
        have proper : Proper env middle ⟨template, all⟩ := by
          refine ⟨declares, ?_, fun arg mem => (has arg mem).held, right⟩
          rw [length, ← List.length_append, List.take_append_drop]
        refine (resolveSymbol_works sound begun proper lets).weaken ?_
        intro id after further answers
        refine ⟨(begun.moves further).consistent.holds_answer answers, ?_, fun clean => ?_,
          answers.there⟩
        · rcases answers.given with rfl | placed
          · exact .made .error
          · exact .applied placed fun arg mem => further.made (has arg mem).made
        · exact .made ((fills (further.clean clean)).grows further.grows)
            (answers.placed (.inr clean.1) clean.2)

end CheckM

end Idl
