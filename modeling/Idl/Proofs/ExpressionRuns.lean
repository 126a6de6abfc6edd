import Idl.Proofs.TemplateRuns

/-! Checking a type expression gives the place that the expression denotes. The
statement is proved along the syntax: type expressions, members and decorators
contain each other, and each of them is described by what it denotes once nothing
is given up and nothing was reported. -/
namespace Idl
variable {id : TypeId}

/-- The properties of a model in the store, as those of an operation's parameters are read. -/
theorem Consistent.sound_parameters (consistent : Consistent env c) (id : TypeId) :
    ∀ property ∈ ((c.types.model? id).map (·.properties)).getD [], property.Sound env c := by
  intro property member
  obtain ⟨model, found, among⟩ := TypeStore.exists_model_of_mem member
  exact (consistent.holdings.sound id _ found).1 property among

/-- The types of the properties of models of one shape are the same. -/
theorem exists_type_of_shape (same : shapeOf others = shapeOf properties) :
    ∀ other ∈ others, ∃ property ∈ properties, property.type = other.type := by
  intro other member
  have entry : (other.name, other.type, other.optional) ∈ shapeOf properties := by
    rw [← same]
    exact List.mem_map_of_mem member
  obtain ⟨property, inside, equal⟩ := List.mem_map.mp entry
  exact ⟨property, inside, congrArg (·.2.1) equal⟩

/-- The place of a model written in place has its type, with properties of the types written. -/
theorem Consistent.expressed (consistent : Consistent env c)
    (expresses : c.Expresses dependent properties id) :
    c.isDependent id = dependent ∧ ∃ others, c.types.get? id = some (.model { properties := others }) ∧
      ∀ other ∈ others, ∃ property ∈ properties, property.type = other.type := by
  unfold Checker.Expresses at expresses
  split at expresses
  · rename_i outside
    obtain ⟨plain, others, stored, same⟩ := consistent.tables.model _ id expresses
    exact ⟨plain.trans outside.1.symm, others, stored, exists_type_of_shape same⟩
  · exact ⟨expresses.2, properties, expresses.1, fun other member => ⟨other, member, rfl⟩⟩

namespace CheckM
variable {descent : Descent} {id : TypeId}

/-! Names. -/

theorem expectFound_works :
    Works env frames (expectFound env resolution name context) c fun found after =>
      (∀ id, found = some id ↔ resolution = .found id) ∧ (found = none → ¬ after.Clean) := by
  unfold expectFound
  split
  · exact .pure ⟨fun id => by simp, nofun⟩
  · exact errorAt_works _ fun after unclean _ => .pure ⟨fun id => by simp, fun _ => unclean⟩
  · exact errorAt_works _ fun after unclean _ => .pure ⟨fun id => by simp, fun _ => unclean⟩

theorem resolveMembers_works (segments : List Ident) :
    Works env frames (resolveMembers env context container segments) c fun found after =>
      found = env.symbols.memberPath? container (segments.map Ident.name) ∧
        (found = none → ¬ after.Clean) := by
  induction segments generalizing container c with
  | nil => exact .pure ⟨rfl, nofun⟩
  | cons segment rest ih =>
    simp only [resolveMembers, List.map_cons, SymbolTable.memberPath?, List.foldlM_cons]
    split
    · rename_i member found
      rw [found]
      exact ih
    · rename_i missing
      rw [missing]
      exact errorAt_works _ fun after unclean _ => .pure ⟨rfl, fun _ => unclean⟩

/-- A path is resolved to what it names; a path that names nothing is reported. -/
theorem resolvePath_works (context : Context) :
    Works env frames (resolvePath env path context) c fun found after =>
      found = env.symbols.named? context.scope path ∧ (found = none → ¬ after.Clean) := by
  unfold resolvePath
  refine Works.bind expectFound_works ?_
  rintro found middle moves ⟨same, missing⟩
  cases found with
  | none =>
    refine .pure ⟨?_, fun _ => missing rfl⟩
    simp only [SymbolTable.named?]
    split
    · rename_i id found
      cases (same id).mpr found
    · rfl
  | some id =>
    rw [SymbolTable.named?, (same id).mp rfl]
    exact resolveMembers_works path.rest

theorem decoratorSymbol_works (context : Context) :
    Works env frames (decoratorSymbol env path span context) c fun found after =>
      found = env.symbols.decorator? context.scope path ∧ (found = none → ¬ after.Clean) := by
  unfold decoratorSymbol
  have unknown {c : Checker} (missing : env.symbols.decorator? context.scope path = none) :
      Works env frames (do
        errorAt .unknownDecorator s!"Unknown decorator @{path.text}" (context.location span)
        return (none : Option SymbolId)) c fun found after =>
          found = env.symbols.decorator? context.scope path ∧ (found = none → ¬ after.Clean) :=
    errorAt_works _ fun after unclean _ => .pure ⟨missing.symm, fun _ => unclean⟩
  dsimp only
  split
  · rename_i missing
    refine unknown ?_
    simp only [SymbolTable.decorator?, missing]
  · rename_i resolution other
    refine Works.bind expectFound_works ?_
    rintro found middle moves ⟨same, none⟩
    cases found with
    | none =>
      refine .pure ⟨?_, fun _ => none rfl⟩
      unfold SymbolTable.decorator?
      dsimp only
      split
      · rename_i id found
        cases (same id).mpr found
      · rfl
    | some id =>
      have start := (same id).mp rfl
      dsimp only
      split
      · rename_i missing
        refine unknown ?_
        simp only [SymbolTable.decorator?, start, missing, Option.filter_none]
      · rename_i member found
        have reached : env.symbols.decorator? context.scope path =
            (some member).filter fun found => (env.symbols.symbol found).kind = .decorator := by
          simp only [SymbolTable.decorator?, start]
          exact congrArg (Option.filter _) found
        split
        · rename_i kind
          rw [reached, Option.filter_some, if_pos (decide_eq_true kind)]
          exact .pure ⟨rfl, by simp⟩
        · rename_i kind
          rw [Option.filter_some, if_neg (by simpa using kind)] at reached
          exact unknown reached

/-! Findings about what is referred to, and properties. -/

theorem checkDeprecated_works :
    Works env frames (checkDeprecated id path location) c fun _ after =>
      after.abandoning = none → c.annotations.Marks (.type id) →
        ∃ message, .report .deprecated message (some location) ∈ after.diagnostics := by
  have warns (message : String) : Works env frames (errorAt .deprecated message location) c
      fun _ after => after.abandoning = none → c.annotations.Marks (.type id) →
        ∃ message, .report .deprecated message (some location) ∈ after.diagnostics := by
    refine (report_works _ (fun _ => .of_code ?_) fun _ => .other ?_).weaken ?_
    · exact (by decide : Code.deprecated.Unrelated)
    · exact (by decide : Code.deprecated ≠ .cyclicReference)
    · rintro _ _ _ rfl idle _
      exact ⟨message, Checker.mem_report idle⟩
  refine Works.get_bind ?_
  split
  · rename_i unmarked
    exact .pure fun _ marks => absurd unmarked marks
  · exact warns _
  · exact warns _

/-- A property is added at the end, unless its name is taken, which is reported. -/
theorem addProperty_works :
    Works env frames (addProperty properties property location) c fun result after =>
      (∀ other ∈ result, other ∈ properties ∨ other = property) ∧
        (after.Clean → result = properties ++ [property]) ∧
        after.Admits after.worker after.abandoning.isNone properties [(property, location)]
          result := by
  unfold addProperty
  split
  · rename_i taken
    refine Works.bind (report_works (duplicateProperty property.name location)
      (fun _ => .of_code ?_) fun _ => .other ?_) ?_
    · exact (by decide : Code.duplicateProperty.Unrelated)
    · exact (by decide : Code.duplicateProperty ≠ .cyclicReference)
    · rintro _ _ _ rfl
      have unclean : ¬ (c.report (duplicateProperty property.name location)).Clean :=
        Checker.not_clean_report rfl
      refine Works.modify_bind (.note (.dropped property location)) (.pure ⟨fun _ member =>
        .inl member, fun clean => absurd clean unclean, .taken ?_ ?_⟩)
      · simpa using taken
      · rcases Option.eq_none_or_eq_some c.abandoning with idle | ⟨below, unwinding⟩
        · exact .inl (Checker.mem_report idle)
        · have unsteady : c.abandoning.isNone = false := by simp [unwinding]
          exact .inr ⟨unsteady, unsteady ▸ Checker.Keeps.log _ _ _⟩
  · rename_i free
    exact .pure ⟨fun _ member => by simpa using member, fun _ => rfl, .added (by simpa using free)⟩

theorem addProperties_works (more : List Property) :
    Works env c.stack (addProperties location properties more) c fun result after =>
      (∀ other ∈ result, other ∈ properties ∨ other ∈ more) ∧
        (after.Clean → result = properties ++ more) ∧
        after.Admits after.worker after.abandoning.isNone properties (more.map (·, location))
          result := by
  induction more generalizing properties c with
  | nil => exact .pure ⟨fun _ member => .inl member, fun _ => (List.append_nil _).symm, .nil _⟩
  | cons property rest ih =>
    refine Works.bind addProperty_works ?_
    rintro longer middle moves ⟨among, added, admits⟩
    rw [← moves.stack]
    refine ih.weaken ?_
    rintro result after further ⟨within, all, others⟩
    refine ⟨fun other member => ?_, fun clean => ?_, (admits.moves further).append others⟩
    · rcases within other member with early | late
      · exact (among other early).imp_right fun same => by simp [same]
      · exact .inr (List.mem_cons_of_mem _ late)
    · rw [all clean, added (further.clean clean), List.append_assoc]
      rfl

/-! Decorators that are applied leave annotations and findings. -/

private theorem reports_moves (findings : List Diagnostic) (c : Checker)
    (given : ∀ finding ∈ findings, env.library.Reports finding) :
    Moves env frames c (findings.foldl Checker.report c) := by
  induction findings generalizing c with
  | nil => exact .refl env frames c
  | cons finding rest ih =>
    have reports := given finding (List.mem_cons_self ..)
    have warranted : c.Warrants env finding := fun _ _ _ => .inl reports
    refine (Moves.report c finding (fun _ => warranted) fun _ => .decorator reports).trans (ih _ ?_)
    exact fun other member => given other (List.mem_cons_of_mem _ member)

private theorem reports_eq (findings : List Diagnostic) (c : Checker) :
    ∃ diagnostics, findings.foldl Checker.report c = { c with diagnostics } := by
  induction findings generalizing c with
  | nil => exact ⟨c.diagnostics, rfl⟩
  | cons finding rest ih =>
    obtain ⟨diagnostics, same⟩ := ih (c.report finding)
    exact ⟨diagnostics, same⟩

/-- A way to count the decorators that are still to be applied: the next one may be applied, and is
then no longer due. -/
structure Counts (env : Environment) (due : List (Application × Target) → Checker → Prop) :
    Prop where
  idle : ∀ {left c}, due left c → c.abandoning = none
  notes : ∀ {application target left c}, due ((application, target) :: left) c →
    c.Notes env (.invoked application target)
  apply : ∀ {application target left c} annotations diagnostics,
    due ((application, target) :: left) c →
      due left { c.log (.invoked application target) with annotations, diagnostics }

theorem counts_declared (env : Environment) (frame : Frame) (rest : List Frame)
    (type : CheckedType) : Counts env fun left c => c.Owes frame rest type left where
  idle := fun owes => owes.idle
  notes := fun owes => .invoked owes
  apply := fun annotations diagnostics owes => owes.apply annotations diagnostics

theorem counts_nameless :
    Counts env fun left c => c.OwesNameless id left where
  idle := fun owes => owes.idle
  notes := fun owes => .invokedNameless owes
  apply := fun annotations diagnostics owes => owes.apply annotations diagnostics

theorem invoke_works (counts : Counts env due) (sound : application.Sound env c)
    (owed : due ((application, target) :: left) c) :
    Works env frames (invoke env application target kind) c fun _ after => due left after := by
  have idle := counts.idle owed
  refine Works.modify_bind (.note (counts.notes owed)) ?_
  split
  · rename_i missing
    have found := sound.1
    rw [missing] at found
    cases found
  · rename_i definition found
    split
    · refine Works.get_bind (Ensures.set_iff.mpr ⟨?_, ?_⟩)
      · have noted {annotations : Annotations}
            (kept : env.library = Builtin.library → c.KeepsMarks { c with annotations }) :
            Moves env frames (c.log (.invoked application target))
              { c.log (.invoked application target) with annotations } :=
          .of_runs (.of_step (.annotate annotations idle kept) rfl rfl [] rfl (by simp)) rfl rfl rfl
        refine (noted fun builtin other marks => ?_).trans (reports_moves _ _ ?_)
        · exact Builtin.keeps_handler _ (builtin ▸ found) _ other marks
        · exact fun finding member => ⟨_, definition, _, _, found, member⟩
      · obtain ⟨diagnostics, same⟩ := reports_eq _ _
        rw [same]
        exact counts.apply _ diagnostics owed
    · refine (report_works _ (fun _ => .of_code ?_) fun _ => .other ?_).weaken ?_
      · exact (by decide : Code.invalidDecoratorTarget.Unrelated)
      · exact (by decide : Code.invalidDecoratorTarget ≠ .cyclicReference)
      · rintro _ _ _ rfl
        exact counts.apply _ _ owed

theorem invokeAll_works (counts : Counts env due)
    (applications : List Application)
    (sound : ∀ application ∈ applications, application.Sound env c)
    (owed : due (applications.map (·, target) ++ left) c) :
    Works env frames (invokeAll env target kind applications) c fun _ after => due left after := by
  induction applications generalizing c with
  | nil => exact .pure owed
  | cons application rest ih =>
    refine Works.bind (invoke_works counts (sound application (List.mem_cons_self ..)) owed) ?_
    intro _ middle moves owed
    exact ih (fun other member => (sound other (List.mem_cons_of_mem _ member)).grows moves.grows) owed

theorem invokeProperties_works (counts : Counts env due)
    (sound : ∀ property ∈ properties, property.Sound env c)
    (owed : due (propertyApplications model properties ++ left) c) :
    Works env frames (invokeProperties env model properties) c fun _ after => due left after := by
  induction properties generalizing c with
  | nil => exact .pure owed
  | cons property rest ih =>
    rw [propertyApplications, List.flatMap_cons, List.append_assoc] at owed
    refine Works.bind (invokeAll_works counts _ (sound property (List.mem_cons_self ..)).2 owed) ?_
    intro _ middle moves owed
    exact ih (fun other member => (sound other (List.mem_cons_of_mem _ member)).grows moves.grows) owed

/-- All decorators of a type are applied, unless a frame is being given up. -/
theorem applyDecorators_works (counts : Counts env due) (consistent : Consistent env c)
    (id : TypeId) (owed : c.abandoning = none → due (c.types.applications id) c) :
    Works env frames (applyDecorators env id) c fun _ after =>
      (c.abandoning = none → due [] after) ∧ after.abandoning = c.abandoning := by
  refine Works.get_bind ?_
  split
  · rename_i unwinding
    refine .pure ⟨fun idle => ?_, rfl⟩
    rw [idle] at unwinding
    cases unwinding
  · rename_i idle
    have idle : c.abandoning = none := by simpa using idle
    have owed := owed idle
    have done {work : CheckM Unit}
        (works : Works env frames work c fun _ after => due [] after) :
        Works env frames work c fun _ after =>
          (c.abandoning = none → due [] after) ∧ after.abandoning = c.abandoning :=
      works.weaken fun _ _ _ owed => ⟨fun _ => owed, (counts.idle owed).trans idle.symm⟩
    split
    · rename_i model found
      obtain ⟨properties, _, _, _, decorators⟩ := consistent.holdings.sound id _ found
      simp only [TypeStore.applications, found] at owed
      refine done (Works.bind (invokeProperties_works counts properties owed) ?_)
      intro _ middle moves owed
      rw [← List.append_nil (List.map _ _)] at owed
      exact invokeAll_works counts _
        (fun other member => (decorators other member).grows moves.grows) owed
    · rename_i operation found
      obtain ⟨_, _, _, _, decorators⟩ := consistent.holdings.sound id _ found
      simp only [TypeStore.applications, found] at owed
      refine done (Works.bind (invokeProperties_works counts
        (consistent.sound_parameters operation.parameters) owed) ?_)
      intro _ middle moves owed
      rw [← List.append_nil (List.map _ _)] at owed
      exact invokeAll_works counts _
        (fun other member => (decorators other member).grows moves.grows) owed
    · rename_i interface found
      obtain ⟨_, decorators⟩ := consistent.holdings.sound id _ found
      simp only [TypeStore.applications, found] at owed
      rw [← List.append_nil (List.map _ _)] at owed
      exact done (invokeAll_works counts _ decorators owed)
    · rename_i model operation interface
      have nothing : c.types.applications id = [] := by
        unfold TypeStore.applications
        split
        · exact absurd ‹_› (model _)
        · exact absurd ‹_› (operation _)
        · exact absurd ‹_› (interface _)
        · rfl
      rw [nothing] at owed
      exact done (.pure owed)

/-! Unions, models written in place, and arrays. -/

private theorem mem_distinct_seen {ids : List TypeId}
    (member : id ∈ ids.foldl (fun seen id => if id ∈ seen then seen else seen ++ [id]) seen) :
    id ∈ seen ∨ id ∈ ids := by
  induction ids generalizing seen with
  | nil => exact .inl member
  | cons first rest ih =>
    rw [List.foldl_cons] at member
    rcases ih member with early | late
    · split at early
      · exact .inl early
      · rcases List.mem_append.mp early with old | new
        · exact .inl old
        · exact .inr (by simp [List.mem_singleton.mp new])
    · exact .inr (List.mem_cons_of_mem _ late)

theorem mem_distinct {ids : List TypeId} (member : id ∈ distinct ids) : id ∈ ids :=
  (mem_distinct_seen member).resolve_left nofun

private theorem nodup_distinct_seen {ids : List TypeId} (once : seen.Nodup) :
    (ids.foldl (fun seen id => if id ∈ seen then seen else seen ++ [id]) seen).Nodup := by
  induction ids generalizing seen with
  | nil => exact once
  | cons first rest ih =>
    rw [List.foldl_cons]
    split
    · exact ih once
    · rename_i new
      refine ih (List.nodup_append.mpr ⟨once, by simp, fun id member other last same => new ?_⟩)
      rw [← List.mem_singleton.mp last, ← same]
      exact member

private theorem distinct_seen_ne_nil (ids : List TypeId) (some : seen ≠ []) :
    ids.foldl (fun seen id => if id ∈ seen then seen else seen ++ [id]) seen ≠ [] := by
  induction ids generalizing seen with
  | nil => exact some
  | cons first rest ih =>
    rw [List.foldl_cons]
    split
    · exact ih some
    · exact ih (by simp)

theorem distinct_ne_nil (some : ids ≠ []) : distinct ids ≠ [] := by
  cases ids with
  | nil => exact absurd rfl some
  | cons id rest => exact distinct_seen_ne_nil rest (by simp)

/-- A union that is known changes nothing. -/
private theorem unionOf_known (consistent : Consistent env c)
    (known : c.types.unions.get? options = some id) : c.unionOf options = (id, c) := by
  have marked := (consistent.tables.union options id known).2
  have settled : ¬ (options.any c.isDependent = true ∧ id ∉ c.dependentTypes) := by
    rintro ⟨some, none⟩
    rw [← marked] at some
    exact none (of_decide_eq_true some)
  simp only [Checker.unionOf, TypeStore.internUnion, known, if_neg settled]

theorem unionOf_works (ready : Ready env c) (held : ∀ id ∈ ids, c.Holds id) (some : ids ≠ []) :
    Works env c.stack (unionOf ids) c fun id after =>
      after.Holds id ∧ after.types.unions.get? (distinct ids) = .some id := by
  have consistent := ready.consistent
  cases known : c.types.unions.get? (distinct ids) with
  | some id =>
    have same := unionOf_known consistent known
    refine .modifyGet ?_ ?_
    · rw [same]
      exact .refl env c.stack c
    · rw [same]
      exact ⟨TypeStore.lt_size_of_get? (consistent.tables.union _ id known).1, known⟩
  | none =>
    have step : Step env c _ :=
      .union (fun id member => held id (mem_distinct member)) known (nodup_distinct_seen List.nodup_nil)
        (distinct_ne_nil some)
    have stored : (c.unionOf (distinct ids)).2.types.unions.get? (distinct ids) =
        .some (c.unionOf (distinct ids)).1 := by
      simp only [Checker.unionOf, TypeStore.internUnion, known]
      exact Dictionary.get?_insert_self ..
    refine .modifyGet (.of_runs (.of_gain step rfl ?_ [] rfl (by simp) consistent
      fun _ member => member) rfl rfl rfl) ⟨?_, stored⟩
    · intro id inside
      simp only [Checker.unionOf, TypeStore.internUnion, known]
      have alloc := TypeStore.get?_alloc c.types (.union (distinct ids)) id
      rw [if_neg (Nat.ne_of_lt inside)] at alloc
      exact alloc
    · exact TypeStore.lt_size_of_get? ((consistent.step step).tables.union _ _ stored).1

theorem alloc_works (ready : Ready env c)
    (sound : ∀ property ∈ properties, property.Sound env c)
    (working : ∀ id ∈ operation, ∃ frame rest, c.stack = frame :: rest ∧ frame.id = id)
    (distinct : (properties.map Property.name).Nodup) :
    Works env c.stack (alloc properties dependent operation) c fun id after =>
      after.types.get? id = some (.model { properties }) ∧
        .nameless operation id ∈ after.history ∧ after.isDependent id = dependent := by
  have step : Step env c _ := .alloc dependent operation sound working distinct
  refine .modifyGet (.of_runs (.of_gain step rfl ?_ [_] rfl (by simp) ready.consistent
    fun _ member => member) rfl rfl rfl)
    ⟨TypeStore.get?_alloc_self .., List.mem_cons_self .., ready.consistent.marks dependent⟩
  intro id inside
  exact (TypeStore.get?_alloc ..).trans (if_neg (Nat.ne_of_lt inside))

/-- A model written in place has the place of its shape, or one of its own. -/
theorem modelExpression_works (ready : Ready env c)
    (sound : ∀ property ∈ properties, property.Sound env c)
    (distinct : (properties.map Property.name).Nodup) (context : Context) :
    Works env c.stack (modelExpression env properties context) c fun id after =>
      after.Expresses context.dependent properties id := by
  have own {id : TypeId} {after : Checker}
      (written : ¬ (context.dependent = false ∧ ∀ property ∈ properties, property.decorators = []))
      (stored : after.types.get? id = some (.model { properties }))
      (mark : after.isDependent id = context.dependent) :
      after.Expresses context.dependent properties id := by
    rw [Checker.Expresses, if_neg written]
    exact ⟨stored, mark⟩
  unfold modelExpression
  split
  · rename_i dependent
    refine (alloc_works ready sound (by simp) distinct).weaken
      fun id after _ stored => own ?_ stored.1 (stored.2.2.trans dependent.symm)
    simp [dependent]
  · rename_i outside
    have outside : context.dependent = false := by simpa using outside
    split
    · rename_i plain
      have plain : ∀ property ∈ properties, property.decorators = [] := by
        simpa using plain
      have shared {id : TypeId} {after : Checker}
          (known : after.modelExpressions.get? (shapeOf properties) = some id) :
          after.Expresses context.dependent properties id := by
        rw [Checker.Expresses, if_pos ⟨outside, plain⟩]
        exact known
      refine Works.get_bind ?_
      split
      · rename_i id known
        exact .pure (shared known)
      · rename_i new
        have step : Step env c _ := .intern sound plain new distinct
        refine .modifyGet (.of_runs (.of_gain step rfl ?_ [] rfl (by simp) ready.consistent
          fun _ member => member) rfl rfl rfl) (shared (Dictionary.get?_insert_self ..))
        intro id inside
        exact (TypeStore.get?_alloc ..).trans (if_neg (Nat.ne_of_lt inside))
    · rename_i decorated
      refine Works.bind (alloc_works ready sound (by simp) distinct) ?_
      rintro id middle moves ⟨stored, nameless, mark⟩
      have begun := ready.moves moves
      refine Works.bind (applyDecorators_works counts_nameless begun.consistent id
        fun idle => .of_stored idle nameless stored) ?_
      intro _ after further _
      refine .pure (own ?_ (further.grows.filled _ _ stored) ?_)
      · rintro ⟨_, plain⟩
        exact decorated (by simpa using plain)
      · rw [further.grows.isDependent (TypeStore.lt_size_of_get? stored), mark, outside]

theorem arrayOf_works (bound : env.Bound) (sound : descent.Sound env)
    (ready : Ready env c) (has : c.Has env element)
    (lets : ∀ symbol, env.symbols.qualified? arrayModel = some symbol →
      env.Lets c.stack symbol demand) :
    Works env c.stack (arrayOf env descent element location demand) c fun id after =>
      after.Holds id ∧ after.Ripe env id ∧
        (after.Clean → ∃ symbol, env.symbols.qualified? arrayModel = some symbol ∧
          Instantiates True env after symbol [element] id) ∧
        (demand = .complete → ¬ after.Empty id) := by
  unfold arrayOf
  split
  · rename_i array named
    have only : ∀ arg ∈ [element], c.Has env arg := fun arg member =>
      List.mem_singleton.mp member ▸ has
    have made : Works env c.stack (instantiate env descent array [element] location demand) c _ :=
      instantiate_works bound sound ready (by nofun) only (lets array named)
    refine made.weaken ?_
    rintro id after _ ⟨inside, ripe, instantiates, there⟩
    exact ⟨inside, ripe, fun clean => ⟨array, named, instantiates clean⟩, there⟩
  · exact errorAt_works _ fun after unclean moves => .pure
      ⟨(ready.moves moves).consistent.holds_error, .made .error, fun clean => absurd clean unclean,
        fun _ => (ready.moves moves).consistent.there_error⟩

/-! References. -/

section
variable (bound : env.Bound) (sound : descent.Sound env)
  (ready : Ready env c) (declares : env.Declares symbol)
include bound sound ready declares

/-- A reference to a declaration without parameters gives its place. It is warned of, if the type
is marked. -/
theorem declared_works
    (plain : (env.symbols.symbol symbol).templated = false) (lets : env.Lets c.stack symbol demand)
    (name : String) (location : Location) :
    Works env c.stack (do
      let type ← resolveSymbol env descent symbol [] demand (some location)
      checkDeprecated type name location
      return type) c fun id after =>
        after.Answers env ⟨symbol, []⟩ demand (some location) id ∧
          (after.abandoning = none →
            ∀ use, after.Heeds env after.worker ⟨symbol, location, use⟩) := by
  have proper : Proper env c ⟨symbol, []⟩ := ⟨declares, by rw [bound.plain plain]; rfl, nofun, nofun⟩
  refine Works.bind (resolveSymbol_works sound ready proper lets) ?_
  intro id middle moves answers
  refine Works.bind checkDeprecated_works ?_
  intro _ after further warned
  refine .pure ⟨answers.moves further, fun idle use => ?_⟩
  rw [further.worker]
  have consistent := (ready.moves moves).consistent
  rcases answers.found (further.idle idle) with resolved | excuses
  · obtain ⟨placed, type, stored, marks⟩ := consistent.recorded.resolved _ _ resolved
    have concrete : id ∉ middle.dependentTypes := by
      simpa [Checker.isDependent] using consistent.holdings.dependent _ id placed
    by_cases deprecated : env.library = Builtin.library ∧ type.Deprecated
    · obtain ⟨message, told⟩ := warned idle (marks deprecated.1 concrete deprecated.2)
      exact .warned message told
    · exact .current (further.grows.placed placed) (further.grows.filled _ _ stored)
        (not_and.mp deprecated)
  · exact .excused (excuses.grows further.grows)

/-- A reference to a template gives an instance. -/
theorem applied_works (has : ∀ arg ∈ args, c.Has env arg)
    (lets : env.Lets c.stack symbol demand) :
    Works env c.stack (do
      let type ← instantiate env descent symbol args location demand
      checkDeprecated type name location
      return type) c fun id after =>
        after.Holds id ∧ after.Ripe env id ∧ (after.Clean → Instantiates True env after symbol args id) ∧
          (demand = .complete → ¬ after.Empty id) := by
  refine Works.bind (instantiate_works bound sound ready (fun _ => declares) has lets) ?_
  rintro id middle moves ⟨inside, ripe, made, there⟩
  rw [← moves.stack]
  refine Works.bind checkDeprecated_works ?_
  intro _ after further _
  exact .pure ⟨further.grows.holds inside, ripe.moves further,
    fun clean => (made (further.clean clean)).grows further.grows,
    fun complete => mt further.grows.empty_before (there complete)⟩

end

/-- What is known of the place that a type expression gave. One that was demanded in full has its
type, unless the expression is the name of a template parameter. -/
structure Gives (env : Environment) (c : Checker) (context : Context) (expr : TypeExpr)
    (use : Option Use) (demand : Demand) (id : TypeId) : Prop where
  held : c.Holds id
  denotes : c.Clean → Denotes True env c context expr id
  there : demand = .complete → c.Empty id → env.NamesParam c context expr id
  meets : c.Meets env (expr.refers env.symbols context.scope context.file use)
  ripe : c.Ripe env id

/-- What is known of the places that a list of type expressions gave. -/
structure GivesAll (env : Environment) (c : Checker) (context : Context) (exprs : List TypeExpr)
    (ids : List TypeId) : Prop where
  has : ∀ id ∈ ids, c.Has env id
  denotes : c.Clean → DenotesAll True env c context exprs ids
  meets : c.Meets env (TypeExpr.allRefers env.symbols context.scope context.file exprs)

section
variable {id : TypeId}

theorem Gives.error (consistent : Consistent env c)
    (denotes : c.Clean → Denotes True env c context expr TypeStore.error)
    (meets : c.Meets env (expr.refers env.symbols context.scope context.file use)) :
    Gives env c context expr use demand TypeStore.error :=
  ⟨consistent.holds_error, denotes, fun _ empty => absurd empty consistent.there_error, meets,
    .made .error⟩

/-- A place that has its type. -/
theorem Gives.stored (found : c.types.get? id = some type)
    (denotes : c.Clean → Denotes True env c context expr id)
    (meets : c.Meets env (expr.refers env.symbols context.scope context.file use))
    (ripe : c.Ripe env id) :
    Gives env c context expr use demand id := by
  refine ⟨TypeStore.lt_size_of_get? found, denotes, fun _ empty => ?_, meets, ripe⟩
  rw [Checker.Empty, found] at empty
  cases empty

theorem Gives.moves (moves : Moves env before.stack before after)
    (gives : Gives env before context expr use demand id) :
    Gives env after context expr use demand id where
  held := moves.grows.holds gives.held
  denotes := fun clean => (gives.denotes (moves.clean clean)).grows moves.grows
  there := fun complete empty =>
    (gives.there complete (moves.grows.empty_before empty)).grows moves.grows
  meets := gives.meets.moves moves
  ripe := gives.ripe.moves moves

/-- What is evaluated is written down. -/
theorem evaluating_works (works : Works env c.stack work c result)
    (expressed : ∀ id middle, result id middle → middle.Expressed expr id)
    (note : ∀ id middle, middle.Expressed expr id → result id middle →
      noted id (middle.log (.evaluated middle.worker expr id))) :
    Works env c.stack (evaluating expr work) c noted :=
  Works.bind works fun id middle _ held =>
    Works.modify_bind (.note (.evaluated (expressed id middle held)))
      (.pure (note id middle (expressed id middle held) held))

theorem evaluating_evaluated :
    Ensures (evaluating expr work) c fun id after => after.Evaluated after.worker expr id := by
  refine Ensures.bind Ensures.anything fun id middle _ => ?_
  rw [Ensures.bind_iff, Ensures.modify_iff, Ensures.pure_iff]
  exact Checker.Keeps.log _ _ _

/-- What an expression gives is made once that is written down. -/
theorem Gives.log (expressed : c.Expressed expr id)
    (gives : Gives env c context expr use demand id) :
    Gives env (c.log (.evaluated c.worker expr id)) context expr use demand id ∧
      (c.log (.evaluated c.worker expr id)).Made env id :=
  ⟨gives.moves (.note (.evaluated expressed)), gives.ripe.log expressed⟩

end

theorem typeExpr_evaluated :
    Ensures (typeExpr env descent expr context demand) c fun id after =>
      after.Evaluated after.worker expr id := by
  unfold typeExpr
  exact evaluating_evaluated

/-- It is noted that a type is needed in full. If it is not there, or cannot be used, that may be
reported. -/
theorem need_works (use : Use) (there : c.Empty id → env.NamesParam c context target id) :
    Works env frames (modify (·.need use context target location id)) c fun _ after =>
      (after.abandoning = none →
        (∀ type, after.types.get? id = some type → use.accepts type = false) →
          after.Warrants env (use.finding location)) ∧ after.types = c.types ∧
        after.Keeps after.worker
          (.needed ⟨use, context, target, location, id, c.types.get? id, c.abandoning.isNone⟩) := by
  refine .modify (.of_runs (.of_step (.need use context target location there) rfl rfl [_] rfl
    (by simp)) rfl rfl rfl) ⟨fun idle unusable other place same => ?_, rfl, .log _ _ _⟩
  obtain ⟨rfl, rfl⟩ := Use.finding_inj same
  refine .inr ⟨_, List.mem_cons_self .., rfl, rfl, ?_, ?_⟩
  · exact Option.isNone_iff_eq_none.mpr idle
  · cases found : c.types.get? id with
    | none => exact .inl rfl
    | some type => exact .inr ⟨type, found, unusable type found⟩

section
variable (bound : env.Bound) (sound : descent.Sound env)
include sound

/-- A reference to a template parameter gives what stands for it, or its own place. -/
private theorem parameter_works (ready : Ready env c) (held : context.Held env c)
    (named : env.symbols.named? context.scope path = some param)
    (kind : (env.symbols.symbol param).kind = .templateParameter) (opened : env.Opens c.stack param) :
    Works env c.stack (match context.subst.get? param with
      | some value => pure value
      | none => paramType env descent param) c fun id after =>
        Gives env after context (.reference path args false span) use demand id := by
  have nothing {after : Checker} : after.Meets env ((TypeExpr.reference path args false span).refers
      env.symbols context.scope context.file use) := by
    have missing : env.symbols.declaration? context.scope path = none :=
      Option.filter_eq_none_iff.mpr (by simp [named, kind, SymbolKind.declares])
    simp only [TypeExpr.refers, missing]
    exact .nil
  split
  · rename_i value given
    have has := held param value given
    exact .pure ⟨has.held, fun _ => .bound named kind given,
      fun _ _ => .reference named kind (.inl given), nothing, .made has.made⟩
  · rename_i free
    refine (paramType_works sound ready opened).weaken ?_
    intro id after moves own
    exact ⟨(ready.moves moves).consistent.holds_param own, fun _ => .unbound trivial named kind free own,
      fun _ _ => .reference named kind (.inr ⟨free, own⟩), nothing, .made (.param own)⟩

include bound

/-- A reference to a declaration, once its arguments are known. -/
private theorem declaration_works (ready : Ready env c)
    (named : env.symbols.named? context.scope path = some symbol) (declares : env.Declares symbol)
    (given : GivesAll env c context args ids) (hasArgs : Bool) (span : Span)
    (full : demand = .complete ↔ use ≠ none) (lets : env.Lets c.stack symbol demand) :
    Works env c.stack (do
      if (env.symbols.symbol symbol).templated then
        let type ← instantiate env descent symbol ids (context.location span) demand
        checkDeprecated type (path.text) (context.location span)
        return type
      if hasArgs then
        errorAt .invalidTemplateArgs
          s!"'{path.text}' is not a template and cannot take template arguments."
          (context.location span)
        return TypeStore.error
      let type ← resolveSymbol env descent symbol [] demand (some (context.location span))
      checkDeprecated type (path.text) (context.location span)
      return type) c fun id after =>
        Gives env after context (.reference path args hasArgs span) use demand id := by
  have declared : env.symbols.declaration? context.scope path = some symbol :=
    Option.filter_eq_some_iff.mpr ⟨named, declares.declares⟩
  split
  · rename_i template
    refine (applied_works bound sound ready declares given.has lets).weaken ?_
    rintro id after moves ⟨inside, ripe, made, there⟩
    refine ⟨inside, fun clean => .applied named declares template
      ((given.denotes (moves.clean clean)).grows moves.grows) (made clean),
      fun complete empty => absurd empty (there complete), ?_, ripe⟩
    simpa [TypeExpr.refers, declared, template] using given.meets.moves moves
  · rename_i plain
    have plain : (env.symbols.symbol symbol).templated = false := by simpa using plain
    split
    · rename_i applied
      refine errorAt_works _ fun after unclean moves => .pure
        (.error (ready.moves moves).consistent (fun clean => absurd clean unclean) ?_)
      simpa [TypeExpr.refers, declared, applied] using given.meets.moves moves
    · rename_i bare
      have bare : hasArgs = false := by simpa using bare
      subst bare
      refine (declared_works bound sound ready declares plain lets _ _).weaken ?_
      rintro id after moves ⟨answers, heeds⟩
      refine ⟨(ready.moves moves).consistent.holds_answer answers, fun clean =>
        .declared named declares plain (answers.placed (.inr clean.1) clean.2),
        fun complete empty => absurd empty (answers.there complete), ?_, .made answers.made⟩
      simp only [TypeExpr.refers, declared, plain]
      refine .append (fun idle reference member => ?_) (given.meets.moves moves)
      obtain rfl := List.mem_singleton.mp member
      refine ⟨heeds idle use, fun needed => ?_⟩
      obtain rfl := full.mpr needed
      exact answers.met idle

/-- A reference gives what its name denotes, if its arguments are what they denote. -/
private theorem reference_works (ready : Ready env c) (held : context.Held env c)
    (full : demand = .complete ↔ use ≠ none)
    (licenses : env.Licenses c.stack
      ((TypeExpr.reference path args hasArgs span).mentions env.symbols context.scope use))
    (arguments : ∀ {c : Checker}, Ready env c → context.Held env c →
      env.Licenses c.stack (TypeExpr.allMentions env.symbols context.scope args) →
      Works env c.stack (typeExprs env descent args context) c fun ids after =>
        GivesAll env after context args ids) :
    Works env c.stack (typeExpr env descent (.reference path args hasArgs span) context demand) c
      fun id after => Gives env after context (.reference path args hasArgs span) use demand id ∧
        after.Made env id := by
  unfold typeExpr
  refine evaluating_works ?_ (fun _ _ _ => .of_ne (by simp)) fun _ _ => Gives.log
  refine Works.bind (resolvePath_works context) ?_
  rintro found middle moves ⟨same, missing⟩
  have begun := ready.moves moves
  rw [← moves.stack] at licenses ⊢
  have wrong {after : Checker} (unclean : ¬ after.Clean)
      (further : Moves env middle.stack middle after)
      (other : ∀ symbol ∈ found, (env.symbols.symbol symbol).kind.declares = false) :
      Gives env after context (.reference path args hasArgs span) use demand TypeStore.error := by
    refine .error (begun.moves further).consistent (fun clean => absurd clean unclean) ?_
    have none : env.symbols.declaration? context.scope path = none :=
      Option.filter_eq_none_iff.mpr (same ▸ by simpa using other)
    simp only [TypeExpr.refers, none]
    exact .nil
  cases found with
  | none => exact .pure (wrong (missing rfl) (.refl _ _ _) (by simp))
  | some symbol =>
    have mentioned : ⟨symbol, use⟩ ∈
        (TypeExpr.reference path args hasArgs span).mentions env.symbols context.scope use := by
      simp [TypeExpr.mentions, ← same]
    have declared (declares : env.Declares symbol) := Works.bind
      (arguments begun (held.moves moves) licenses.right) fun ids after further result =>
        further.stack ▸ declaration_works bound sound (begun.moves further) same.symm declares
          result hasArgs span full
          (further.stack.symm ▸ licenses.lets mentioned full.mp)
    dsimp only
    split
    · rename_i kind
      exact errorAt_works _ fun after unclean further =>
        .pure (wrong unclean further (by simp [kind, SymbolKind.declares]))
    · rename_i kind
      exact errorAt_works _ fun after unclean further =>
        .pure (wrong unclean further (by simp [kind, SymbolKind.declares]))
    · rename_i kind
      split
      · exact errorAt_works _ fun after unclean further =>
          .pure (wrong unclean further (by simp [kind, SymbolKind.declares]))
      · rename_i bare
        have bare : hasArgs = false := by simpa using bare
        subst bare
        exact parameter_works sound begun (held.moves moves) same.symm kind
          (licenses.opens mentioned kind)
    · rename_i kind
      exact declared (.inl kind)
    · rename_i kind
      exact declared (.inr (.inl kind))
    · rename_i kind
      exact declared (.inr (.inr kind))

end

/-- What is known of the properties that a member was checked to after others. -/
structure Extends (env : Environment) (c : Checker) (context : Context) (member : Member)
    (properties result : List Property) : Prop where
  kept : ∀ property ∈ result, property.Kept env c
  contributes : c.Clean → ∃ contributed, result = properties ++ contributed ∧
    Contributes True env c context member contributed
  meets : c.Meets env (member.refers env.symbols context.scope context.file)
  admits : ∃ brought, c.Brings env c.worker context member brought ∧
    c.Admits c.worker c.abandoning.isNone properties brought result

/-- A spread adds the properties of what it names, if that is checked as described. -/
private theorem spread_works (ready : Ready env c)
    (named : Works env c.stack (typeExpr env descent target context .complete) c fun id after =>
      Gives env after context target (some .spread) .complete id ∧ after.Made env id)
    (parts : ∀ property ∈ properties, property.Kept env c) :
    Works env c.stack (CheckM.member env descent (.spread target span) context properties) c
      fun result after => Extends env after context (.spread target span) properties result := by
  unfold CheckM.member
  refine Works.bind (named.both typeExpr_evaluated) ?_
  rintro id earlier moves ⟨⟨⟨_, denotes, there, meets, _⟩, made⟩, evaluated⟩
  rw [← moves.stack]
  refine Works.bind (need_works .spread (there rfl)) ?_
  rintro _ middle noted ⟨needed, unmoved, written⟩
  rw [← unmoved] at written
  have brings : middle.Brings env middle.worker context (.spread target span)
      ((propertiesIn (middle.types.get? id)).map (·, context.location span)) :=
    .spread (evaluated.moves noted) written
  replace made := noted.made made
  replace moves := moves.trans (moves.stack ▸ noted)
  replace meets := meets.moves noted
  replace denotes : middle.Clean → Denotes True env middle context target id :=
    fun clean => (denotes (noted.clean clean)).grows noted.grows
  have begun := ready.moves moves
  have kept : ∀ property ∈ properties, property.Kept env middle :=
    fun property member => (parts property member).moves moves
  rw [← noted.stack]
  refine Works.get_bind ?_
  split
  · rename_i model found
    rw [found] at brings
    refine (addProperties_works _).weaken ?_
    rintro result after last ⟨among, added, admits⟩
    refine ⟨fun property member => ?_, fun clean => ?_, meets.moves last, _, brings.moves last,
      admits⟩
    · rcases among property member with old | new
      · exact (kept property old).moves last
      · have sound := (begun.consistent.holdings.sound id _ found).1 property new
        exact Property.Kept.moves ⟨sound, .part made ⟨_, found, .property new⟩⟩ last
    · exact ⟨_, added clean, .spread ((denotes (last.clean clean)).grows last.grows)
        (last.grows.filled _ _ found)⟩
  · rename_i found
    rw [found] at brings
    exact .pure ⟨kept, fun clean =>
      ⟨[], (List.append_nil _).symm, .spreadBarren trivial (denotes clean) (.inl found)⟩, meets, _,
      brings, .nil _⟩
  · rename_i param found
    rw [found] at brings
    exact .pure ⟨kept, fun clean =>
      ⟨[], (List.append_nil _).symm, .spreadBarren trivial (denotes clean) (.inr ⟨param, found⟩)⟩,
      meets, _, brings, .nil _⟩
  · rename_i model error param
    have nothing : propertiesIn (middle.types.get? id) = [] := by
      cases found : middle.types.get? id with
      | none => rfl
      | some type => cases type <;> simp_all [propertiesIn, CheckedType.model?]
    rw [nothing] at brings
    refine reportError_works _ rfl (fun idle => needed idle ?_)
      (fun _ => .other (Use.finding_code_ne _ _))
      fun after unclean last => .pure ⟨?_, fun clean => absurd clean unclean, meets.moves last, _,
        brings.moves last, .nil _⟩
    · intro type found
      cases type <;> simp_all [Use.accepts]
    · exact fun property member => (kept property member).moves last

/-- What is known of the properties that members were checked to after others. -/
structure Assembles (env : Environment) (c : Checker) (context : Context) (members : List Member)
    (properties result : List Property) : Prop where
  kept : ∀ property ∈ result, property.Kept env c
  contributes : c.Clean → ∃ contributed, result = properties ++ contributed ∧
    ContributesAll True env c context members contributed
  meets : c.Meets env (Member.allRefers env.symbols context.scope context.file members)
  admits : ∃ brought, c.Expands env c.worker context members brought ∧
    c.Admits c.worker c.abandoning.isNone properties brought result

theorem Assembles.moves (moves : Moves env before.stack before after)
    (assembles : Assembles env before context members properties result) :
    Assembles env after context members properties result where
  kept := fun property member => (assembles.kept property member).moves moves
  contributes := by
    intro clean
    obtain ⟨contributed, same, all⟩ := assembles.contributes (moves.clean clean)
    exact ⟨contributed, same, all.grows moves.grows⟩
  meets := assembles.meets.moves moves
  admits := by
    obtain ⟨brought, expands, admits⟩ := assembles.admits
    exact ⟨brought, moves.worker ▸ expands.later moves.retains, admits.moves moves⟩

theorem Assembles.distinct (assembles : Assembles env c context members properties result)
    (before : (properties.map Property.name).Nodup) : (result.map Property.name).Nodup := by
  obtain ⟨_, _, admits⟩ := assembles.admits
  rw [admits.kept]
  exact nodup_firsts before _

/-- What came of a list of members is written down. -/
theorem gathering_works (works : Works env c.stack work c fun result after =>
      Assembles env after context members properties result) :
    Works env c.stack (gathering members context properties work) c fun result after =>
      Assembles env after context members properties result ∧
        ∃ steady, after.Keeps after.worker
          (.gathered ⟨after.worker, context, members, properties, result, steady⟩) := by
  refine Works.bind works fun result middle moves assembles => ?_
  have notes : middle.Notes env (.gathered
      ⟨middle.worker, context, members, properties, result, middle.abandoning.isNone⟩) :=
    .gathered assembles.admits
  exact Works.modify_bind (.note notes) (.pure ⟨assembles.moves (.note notes), _, .log _ _ _⟩)

/-- A list of expressions, if the first one and the others are checked as described. -/
private theorem oneMore_works
    (first : Works env c.stack (typeExpr env descent expr context .reference) c fun id after =>
      Gives env after context expr none .reference id ∧ after.Made env id)
    (others : ∀ middle, Moves env c.stack c middle →
      Works env middle.stack (typeExprs env descent rest context) middle fun ids after =>
        GivesAll env after context rest ids) :
    Works env c.stack (typeExprs env descent (expr :: rest) context) c fun ids after =>
      ids ≠ [] ∧ GivesAll env after context (expr :: rest) ids := by
  unfold typeExprs
  refine Works.bind first ?_
  rintro id middle moves ⟨⟨inside, denotes, _, one, _⟩, made⟩
  rw [← moves.stack]
  refine Works.bind (others middle moves) ?_
  rintro ids after further ⟨others, all, meets⟩
  refine .pure ⟨by simp, fun other member => ?_, fun clean => ?_, (one.moves further).append meets⟩
  · rcases List.mem_cons.mp member with rfl | member
    · exact further.has ⟨inside, made⟩
    · exact others other member
  · exact .cons ((denotes (further.clean clean)).grows further.grows) (all clean)

private theorem decorator_carries :
    Ensures (decorator env descent expr context) c fun application _ =>
      env.Deprecating context.scope expr → ∃ one ∈ application, Builtin.Deprecates one := by
  by_cases deprecating : env.Deprecating context.scope expr
  · cases deprecating with
    | @use path text place span symbol id named defined own =>
      unfold decorator
      have found : Works env [] (decoratorSymbol env path span context) c _ :=
        decoratorSymbol_works context
      refine Ensures.bind found ?_
      rintro _ middle ⟨_, same, _⟩
      rw [named] at same
      subst same
      dsimp only
      rw [defined]
      simp only [decoratorArgs, decoratorArg, pure_bind, Option.map_some]
      exact Ensures.pure_iff.mpr fun _ => ⟨_, rfl, own, text, rfl⟩
  · exact Ensures.anything.weaken fun _ _ _ given => absurd given deprecating

/-- A decorator that deprecates is among those that are applied. -/
theorem decoratorList_carries :
    Ensures (decoratorList env descent decorators context) c fun applications _ =>
      ∀ expr ∈ decorators, env.Deprecating context.scope expr →
        ∃ application ∈ applications, Builtin.Deprecates application := by
  induction decorators generalizing c with
  | nil =>
    unfold decoratorList
    exact Ensures.pure_iff.mpr (by simp)
  | cons first rest ih =>
    unfold decoratorList
    refine Ensures.bind decorator_carries fun application middle one => ?_
    refine Ensures.bind ih fun others after all => Ensures.pure_iff.mpr ?_
    intro expr member deprecating
    rcases List.mem_cons.mp member with rfl | member
    · obtain ⟨found, given, deprecates⟩ := one deprecating
      exact ⟨found, List.mem_append_left _ (Option.mem_toList.mpr given), deprecates⟩
    · obtain ⟨found, given, deprecates⟩ := all expr member deprecating
      exact ⟨found, List.mem_append_right _ given, deprecates⟩

variable (bound : env.Bound) (sound : descent.Sound env)
include bound sound

mutual

-- The recursion is on what is written. Other declarations are reached one level further down, which
-- is sound by assumption.
theorem typeExpr_works (expr : TypeExpr) {c : Checker} (ready : Ready env c) (held : context.Held env c)
    (full : demand = .complete ↔ use ≠ none)
    (licenses : env.Licenses c.stack (expr.mentions env.symbols context.scope use)) :
    Works env c.stack (typeExpr env descent expr context demand) c fun id after =>
      Gives env after context expr use demand id ∧ after.Made env id := by
  cases expr with
  | reference path args hasArgs span =>
    exact reference_works bound sound ready held full licenses
      fun begun kept licenses => typeExprs_works begun kept licenses
  | intrinsic kind span =>
    unfold typeExpr
    have found := ready.consistent.tables.intrinsic kind
    exact evaluating_works
      (.pure (.stored found (fun _ => .intrinsic) .nil (.made (.intrinsic kind))))
      (fun _ _ _ => .of_ne (by simp)) fun _ _ => Gives.log
  | union first rest span =>
    unfold typeExpr
    refine evaluating_works ?_ (fun _ _ _ => .of_ne (by simp)) fun _ _ => Gives.log
    have options := oneMore_works
      (typeExpr_works first ready held (by simp) licenses.left) fun middle moves =>
        typeExprs_works (ready.moves moves) (held.moves moves)
          (moves.stack ▸ licenses.right)
    suffices Works env c.stack (typeExprs env descent (first :: rest) context >>= unionOf) c _ by
      simpa only [typeExprs, bind_assoc, pure_bind] using this
    refine Works.bind options ?_
    rintro ids middle moves ⟨some, inside, denotes, meets⟩
    rw [← moves.stack]
    refine (unionOf_works (ready.moves moves) (fun id member => (inside id member).held)
      some).weaken ?_
    rintro id after further ⟨_, stored⟩
    have consistent := ((ready.moves moves).moves further).consistent
    have made : after.Made env id := .union stored fun option member =>
      further.made (inside option (mem_distinct member)).made
    refine .stored (consistent.tables.union _ id stored).1 (fun clean => ?_) (meets.moves further)
      (.made made)
    exact .union ((denotes (further.clean clean)).grows further.grows) stored
  | model members span =>
    unfold typeExpr
    refine evaluating_works (?_ : Works env c.stack _ c fun id after =>
      Gives env after context (.model members span) use demand id ∧
        after.Expressed (.model members span) id) (fun _ _ given => given.2)
      fun _ _ expressed given => Gives.log expressed given.1
    refine Works.bind (gathering_works (memberList_works ready held licenses (by simp))) ?_
    rintro properties middle moves ⟨assembles, steady, gathered⟩
    rw [← moves.stack]
    refine Works.bind (modelExpression_works (ready.moves moves) (fun property member =>
      (assembles.kept property member).sound) (assembles.distinct (by simp)) context) ?_
    rintro id after further stored
    have notes : after.Notes env (.expressed context members properties id) :=
      .expressed (further.grows.history.subset gathered.mem) stored
    refine Works.modify_bind (.note notes) (.pure ⟨Gives.moves (.note notes) ?_, ?_⟩)
    · obtain ⟨_, others, found, same⟩ :=
        ((ready.moves moves).moves further).consistent.expressed stored
      have ripe : after.Ripe env id := .model found fun other member => by
        obtain ⟨property, inside, type⟩ := same other member
        exact type ▸ further.made (assembles.kept property inside).made
      refine .stored found (fun clean => ?_) (assembles.meets.moves further) ripe
      obtain ⟨contributed, same, written⟩ := assembles.contributes (further.clean clean)
      rw [List.nil_append] at same
      exact .model ((same ▸ written).grows further.grows) stored
    · rintro _ _ ⟨⟩
      exact ⟨context, properties, List.mem_cons_self ..⟩
  | array element span =>
    unfold typeExpr
    refine evaluating_works ?_ (fun _ _ _ => .of_ne (by simp)) fun _ _ => Gives.log
    refine Works.bind (typeExpr_works element ready held (by simp) licenses.right) ?_
    rintro part middle moves ⟨⟨inside, denotes, _, meets, _⟩, made⟩
    rw [← moves.stack] at licenses ⊢
    have lets (symbol : SymbolId) (named : env.symbols.qualified? arrayModel = some symbol) :
        env.Lets middle.stack symbol demand :=
      licenses.left.lets (List.mem_map.mpr ⟨symbol, Option.mem_toList.mpr named, rfl⟩) full.mp
    refine (arrayOf_works bound sound (ready.moves moves) ⟨inside, made⟩ lets).weaken ?_
    rintro id after further ⟨held, ripe, instantiated, there⟩
    refine ⟨held, fun clean => ?_, fun complete empty => absurd empty (there complete),
      meets.moves further, ripe⟩
    obtain ⟨symbol, named, instantiates⟩ := instantiated clean
    exact .array ((denotes (further.clean clean)).grows further.grows) named instantiates

theorem typeExprs_works {c : Checker} (ready : Ready env c) (held : context.Held env c)
    (licenses : env.Licenses c.stack (TypeExpr.allMentions env.symbols context.scope exprs)) :
    Works env c.stack (typeExprs env descent exprs context) c fun ids after =>
      GivesAll env after context exprs ids := by
  cases exprs with
  | nil => exact .pure ⟨nofun, fun _ => .nil, .nil⟩
  | cons expr rest =>
    have more := oneMore_works
      (typeExpr_works expr ready held (by simp) licenses.left) fun middle moves =>
        typeExprs_works (ready.moves moves) (held.moves moves)
          (moves.stack ▸ licenses.right)
    exact more.weaken fun _ _ _ listed => listed.2

theorem member_works (member : Member) {c : Checker} (ready : Ready env c) (held : context.Held env c)
    (licenses : env.Licenses c.stack (member.mentions env.symbols context.scope))
    (parts : ∀ property ∈ properties, property.Kept env c) :
    Works env c.stack (CheckM.member env descent member context properties) c fun result after =>
      Extends env after context member properties result := by
  cases member with
  | property decorators name optional type span =>
    unfold CheckM.member
    refine Works.bind ((typeExpr_works type ready held (by simp) licenses.left).both
      typeExpr_evaluated) ?_
    rintro id middle moves ⟨⟨⟨inside, denotes, _, meets, _⟩, made⟩, evaluated⟩
    have begun := ready.moves moves
    rw [← moves.stack] at licenses ⊢
    refine Works.bind (decoratorList_works begun (held.moves moves) licenses.right) ?_
    rintro applications later further ⟨applied, decorates, others, uses⟩
    rw [← further.stack]
    refine addProperty_works.weaken ?_
    rintro result after last ⟨among, added, admits⟩
    have rest : Moves env middle.stack middle after := further.trans (further.stack ▸ last)
    have grown := rest.grows
    have both := ((meets.moves further).append others).moves last
    refine ⟨fun property member => ?_, fun clean => ?_, both, _,
      .property (evaluated.moves rest) (last.worker ▸ uses.later last.retains), admits⟩
    · rcases among property member with old | rfl
      · exact ((parts property old).moves moves).moves rest
      · exact ⟨⟨grown.holds inside, fun application member =>
          (applied application member).grows last.grows⟩, rest.made made⟩
    · exact ⟨_, added clean, .property
        ((denotes (further.clean (last.clean clean))).grows grown)
        ((decorates (last.clean clean)).grows last.grows)⟩
  | spread target span =>
    exact spread_works ready (typeExpr_works target ready held (by simp) licenses) parts

theorem memberList_works {c : Checker} (ready : Ready env c) (held : context.Held env c)
    (licenses : env.Licenses c.stack (Member.allMentions env.symbols context.scope members))
    (parts : ∀ property ∈ properties, property.Kept env c) :
    Works env c.stack (memberList env descent members context properties) c fun result after =>
      Assembles env after context members properties result := by
  cases members with
  | nil =>
    exact .pure ⟨parts, fun _ => ⟨[], (List.append_nil _).symm, .nil⟩, .nil, [], .nil, .nil _⟩
  | cons first rest =>
    unfold memberList
    refine Works.bind (member_works first ready held licenses.left parts) ?_
    rintro longer middle moves ⟨kept, contributes, one, first, brings, admits⟩
    rw [← moves.stack] at licenses ⊢
    have others := memberList_works (ready.moves moves) (held.moves moves) licenses.right kept
    refine others.weaken ?_
    rintro result after further ⟨all, others, meets, last, expands, adds⟩
    refine ⟨all, fun clean => ?_, (one.moves further).append meets, first ++ last,
      .cons (brings.moves further) expands, (admits.moves further).append adds⟩
    obtain ⟨early, rfl, written⟩ := contributes (further.clean clean)
    obtain ⟨late, rfl, remaining⟩ := others clean
    exact ⟨early ++ late, List.append_assoc .., .cons (written.grows further.grows) remaining⟩

theorem decorator_works (expr : DecoratorExpr) {c : Checker} (ready : Ready env c)
    (held : context.Held env c)
    (licenses : env.Licenses c.stack (expr.mentions env.symbols context.scope)) :
    Works env c.stack (decorator env descent expr context) c fun application after =>
      (∀ one ∈ application, one.Sound env after) ∧
        (after.Clean → Decorates True env after context [expr] application.toList) ∧
        after.Meets env (expr.refers env.symbols context.scope context.file) ∧
        after.Uses env after.worker context [expr] application.toList := by
  cases expr with
  | use path args span =>
    unfold decorator
    refine Works.bind (decoratorSymbol_works context) ?_
    rintro found middle moves ⟨same, missing⟩
    have begun := ready.moves moves
    unfold DecoratorExpr.refers
    rw [← same]
    cases found with
    | none =>
      exact .pure ⟨nofun, fun clean => absurd clean (missing rfl), .nil, .unknown same.symm .nil⟩
    | some symbol =>
      have named := same.symm
      obtain ⟨id, defined, listed⟩ := bound.decorator (SymbolTable.decorator?_kind named)
      rw [← moves.stack] at licenses ⊢
      dsimp only
      rw [defined]
      dsimp only
      refine Works.bind (decoratorArgs_works begun (held.moves moves) licenses) ?_
      rintro values after further ⟨inside, argues, meets, takes⟩
      cases values with
      | none =>
        exact .pure ⟨nofun, fun clean => .wrong trivial named defined (argues clean) .nil, meets,
          .wrong takes .nil⟩
      | some values =>
        refine .pure ⟨fun application given => ?_,
          fun clean => .cons named defined (argues clean) .nil, meets,
          .applied named defined takes .nil⟩
        cases given
        exact ⟨listed, inside values rfl⟩

theorem decoratorList_works {c : Checker} (ready : Ready env c)
    (held : context.Held env c) (licenses : env.Licenses c.stack
      (DecoratorExpr.allMentions env.symbols context.scope decorators)) :
    Works env c.stack (decoratorList env descent decorators context) c fun applications after =>
      (∀ application ∈ applications, application.Sound env after) ∧
        (after.Clean → Decorates True env after context decorators applications) ∧
        after.Meets env (DecoratorExpr.allRefers env.symbols context.scope context.file decorators) ∧
        after.Uses env after.worker context decorators applications := by
  cases decorators with
  | nil => exact .pure ⟨nofun, fun _ => .nil, .nil, .nil⟩
  | cons first rest =>
    unfold decoratorList
    refine Works.bind (decorator_works first ready held licenses.left) ?_
    rintro application middle moves ⟨one, decorated, early, used⟩
    rw [← moves.stack] at licenses ⊢
    refine Works.bind (decoratorList_works (ready.moves moves) (held.moves moves) licenses.right) ?_
    rintro others after further ⟨all, decorates, late, uses⟩
    refine .pure ⟨fun other member => ?_, fun clean => ?_, (early.moves further).append late,
      (further.worker ▸ used.later further.retains).append uses⟩
    · rcases List.mem_append.mp member with early | late
      · exact (one other (Option.mem_toList.mp early)).grows further.grows
      · exact all other late
    · exact ((decorated (further.clean clean)).grows further.grows).append (decorates clean)

theorem decoratorArgs_works {c : Checker} (ready : Ready env c) (held : context.Held env c)
    (licenses : env.Licenses c.stack (DecoratorArg.allMentions env.symbols context.scope args)) :
    Works env c.stack (decoratorArgs env descent args context) c fun values after =>
      (∀ all ∈ values, ∀ value ∈ all, ∀ id, value = .type id → after.Holds id) ∧
        (after.Clean → Argues True env after context args values) ∧
        after.Meets env (DecoratorArg.firstRefers env.symbols context.scope context.file args) ∧
        after.Takes after.worker args values := by
  cases args with
  | nil =>
    refine .pure ⟨fun all given => ?_, fun _ => .nil, .nil, .nil⟩
    cases given
    exact nofun
  | cons first rest =>
    unfold decoratorArgs
    have behind : ∀ {middle : Checker} (value : Value), Moves env c.stack c middle →
        (∀ id, value = .type id → middle.Holds id) →
        (∀ after values, Moves env c.stack middle after → after.Clean →
          Argues True env after context rest values →
            Argues True env after context (first :: rest) (values.map (value :: ·))) →
        (∀ after, Moves env c.stack middle after →
          after.Meets env (DecoratorArg.firstRefers env.symbols context.scope context.file rest) →
            after.Meets env
              (DecoratorArg.firstRefers env.symbols context.scope context.file (first :: rest))) →
        (∀ after values, Moves env c.stack middle after → after.Takes after.worker rest values →
          after.Takes after.worker (first :: rest) (values.map (value :: ·))) →
        Works env c.stack
          (do return (← decoratorArgs env descent rest context).map (value :: ·)) middle
          fun values after =>
            (∀ all ∈ values, ∀ value ∈ all, ∀ id, value = .type id → after.Holds id) ∧
              (after.Clean → Argues True env after context (first :: rest) values) ∧
              after.Meets env
                (DecoratorArg.firstRefers env.symbols context.scope context.file (first :: rest)) ∧
              after.Takes after.worker (first :: rest) values := by
      intro middle value moves inside argues meets takes
      rw [← moves.stack] at argues meets takes licenses ⊢
      refine Works.bind (decoratorArgs_works (ready.moves moves)
        (held.moves moves) licenses.right) ?_
      rintro values after further ⟨others, remaining, left, taken⟩
      refine .pure ⟨fun all given one member id same => ?_,
        fun clean => argues after values further clean (remaining clean),
        meets after further left, takes after values further taken⟩
      obtain ⟨tail, found, rfl⟩ := Option.map_eq_some_iff.mp given
      rcases List.mem_cons.mp member with rfl | member
      · exact further.grows.holds (inside id same)
      · exact others tail found one member id same
    cases first with
    | literal value span =>
      have given : decoratorArg env descent (.literal value span) context =
          pure (some value.value) := by
        cases value <;> simp only [decoratorArg, Literal.value]
      rw [given, pure_bind]
      exact behind _ (.refl _ _ _) (by cases value <;> simp [Literal.value])
        (fun _ _ _ _ others => .literal others) (fun _ _ meets => meets)
        fun _ _ _ others => .literal others
    | type expr =>
      unfold decoratorArg
      rw [bind_assoc]
      refine Works.bind ((typeExpr_works expr ready held (by simp) licenses.left).both
        typeExpr_evaluated) ?_
      rintro id middle moves ⟨⟨⟨inside, denotes, _, meets, _⟩, _⟩, evaluated⟩
      simp only [isError, bind_assoc, pure_bind]
      refine .get_bind ?_
      by_cases wrong : middle.types.isError id
      · simp only [wrong, if_true, pure_bind]
        exact .pure ⟨nofun, fun clean => .wrong trivial (denotes clean) wrong, meets,
          .wrong evaluated wrong⟩
      · simp only [wrong, Bool.false_eq_true, if_false, pure_bind]
        refine behind _ moves ?_ ?_ (fun _ further _ => meets.moves further) ?_
        · rintro _ ⟨⟩
          exact inside
        · intro after values further clean others
          exact .type ((denotes (further.clean clean)).grows further.grows) others
        · intro after values further others
          refine .type (evaluated.moves (moves.stack ▸ further)) ?_ others
          rintro rfl
          exact wrong (by simp [TypeStore.isError])

end

/-- A reference to a declaration without parameters gives its place. -/
theorem plainReference_works (ready : Ready env c) (held : context.Held env c)
    (named : env.symbols.named? context.scope path = some target) (declares : env.Declares target)
    (plain : (env.symbols.symbol target).templated = false)
    (full : demand = .complete → use ≠ none) (licenses : env.Licenses c.stack
      ((TypeExpr.reference path args false span).mentions env.symbols context.scope use)) :
    Works env c.stack (typeExpr env descent (.reference path args false span) context demand) c
      fun id after => after.Answers env ⟨target, []⟩ demand (some (context.location span)) id := by
  have mentioned : ⟨target, use⟩ ∈
      (TypeExpr.reference path args false span).mentions env.symbols context.scope use := by
    simp [TypeExpr.mentions, named]
  have note (id : TypeId) (middle : Checker)
      (expressed : middle.Expressed (.reference path args false span) id)
      (answers : middle.Answers env ⟨target, []⟩ demand (some (context.location span)) id) :
      (middle.log (.evaluated middle.worker (.reference path args false span) id)).Answers env
        ⟨target, []⟩ demand (some (context.location span)) id := by
    have noted : Moves env middle.stack middle _ := .note (.evaluated expressed)
    exact answers.moves noted
  unfold typeExpr
  refine evaluating_works ?_ (fun _ _ _ => .of_ne (by simp)) note
  refine Works.bind (resolvePath_works context) ?_
  rintro found middle moves ⟨same, _⟩
  rw [named] at same
  subst same
  have begun := ready.moves moves
  rw [← moves.stack] at licenses ⊢
  have answered := Works.bind
    (typeExprs_works bound sound begun (held.moves moves) licenses.right)
    fun _ _ further _ => further.stack ▸ declared_works bound sound (begun.moves further) declares
      plain (further.stack.symm ▸ licenses.lets mentioned full) (path.text) (context.location span)
  have answered := answered.weaken fun _ _ _ answered => answered.1
  rcases declares with kind | kind | kind <;>
    simpa only [kind, plain, Bool.false_eq_true, if_false] using answered

end CheckM

end Idl
