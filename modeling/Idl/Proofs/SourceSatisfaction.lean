import Idl.Proofs.WholeRuns

/-! The types at the end of a check are what the source says, if nothing was
reported. The properties of a model were copied from others while these were
being worked on, in an order that depends on who asked for whom; in the end they
are those that the declarations say, read off the final store. No error and no
template parameter is met there outside templates, provided that the defaults of
template parameters name only parameters before their own. A default that names a
later one can make an operation an error without a report, and then a decorator
that has it for an argument is left out. -/
namespace Idl

/-- What is stored for a key is what its declaration says, as long as no error was reported. -/
def Readings (env : Environment) (c : Checker) : Prop :=
  ∀ key id type, c.Placed key id → c.types.get? id = some type → c.Faultless →
    Reads env c key id type ∧ ReadsLinks env c key id type

private theorem step_readings (consistent : Consistent env c) (step : Step env c after)
    (readings : Readings env c) : Readings env after := by
  intro key id type placed found faultless
  have grown := step.grows
  have before := grown.faultless faultless
  rcases consistent.stores_key step placed found with
    ⟨placed, found⟩ | ⟨frame, rest, stacked, rfl, rfl, completes, _⟩
  · have held := consistent.holds_placed placed
    obtain ⟨reads, links⟩ := readings key id type placed found before
    exact ⟨reads.grows grown held, links.grows grown held⟩
  · have member : frame ∈ c.stack := by simp [stacked]
    have held := consistent.holds_frame member
    exact ⟨(completes.reads before).grows grown held, (completes.links before).grows grown held⟩

theorem Ended.readings (ended : Ended env c) : Readings env c :=
  ended.keeps (Readings env) nofun fun _ _ => step_readings

namespace Environment

/-- Whether the defaults of a list of parameters, which come after others, name only parameters
before their own. -/
def looksBack (env : Environment) (names : SymbolId → List SymbolId) :
    List SymbolId → List SymbolId → Bool
  | _, [] => true
  | before, param :: rest =>
    (names param).all (fun named =>
      (env.symbols.symbol named).kind ≠ .templateParameter || named ∈ before) &&
      env.looksBack names (before ++ [param]) rest

/-- The defaults of template parameters name only parameters that come before, in the arguments of
decorators as elsewhere. -/
def DefaultsReadBack (env : Environment) : Prop :=
  ∀ symbol ∈ env.symbols.toList,
    env.looksBack (fun param => (env.text param).map Mention.symbol) [] symbol.templateParams = true

instance (env : Environment) : Decidable env.DefaultsReadBack :=
  inferInstanceAs (Decidable (∀ symbol ∈ env.symbols.toList, _))

theorem looksBack_append {env : Environment} (before first : List SymbolId)
    (back : env.looksBack names before (first ++ second) = true) :
    env.looksBack names (before ++ first) second = true := by
  induction first generalizing before with
  | nil => rwa [List.append_nil]
  | cons param rest ih =>
    rw [List.cons_append, looksBack, Bool.and_eq_true] at back
    rw [List.append_cons]
    exact ih (before ++ [param]) back.2

/-- The defaults of the parameters after some look back. -/
theorem Bound.looksBack {env : Environment} (bound : env.Bound)
    (back : ∀ symbol ∈ env.symbols.toList, env.looksBack names [] symbol.templateParams = true)
    (template : SymbolId) (count : Nat) :
    env.looksBack names ((env.symbols.symbol template).templateParams.take count)
      ((env.symbols.symbol template).templateParams.drop count) = true := by
  refine looksBack_append [] _ ?_
  rw [List.take_append_drop]
  by_cases none : (env.symbols.symbol template).templateParams = []
  · rw [none]
    rfl
  · have declares : env.Declares template := (bound.templates none).2.imp_right .inl
    exact back _ (bound.listed declares.not_space).1

end Environment

/-- A place outside templates that is not the one of errors. -/
def Checker.Fine (c : Checker) (id : TypeId) : Prop :=
  c.isDependent id = false ∧ id ≠ TypeStore.error

/-- In a state without errors, only places within templates have become errors. -/
structure Upright (env : Environment) (c : Checker) : Prop where
  bound : env.Bound
  consistent : Consistent env c
  back : env.DefaultsReadBack
  errors : ∀ id, c.types.get? id = some .error → id = TypeStore.error ∨ c.isDependent id = true

/-- Outside templates, where what stands for parameters is fine, and something stands for each that
is among what is mentioned. -/
structure Context.Apart (env : Environment) (c : Checker) (context : Context)
    (mentions : List Mention) : Prop where
  outside : context.dependent = false
  fine : ∀ param id, context.subst.get? param = some id → c.Fine id
  bound : ∀ path param use, env.symbols.named? context.scope path = some param →
    (env.symbols.symbol param).kind = .templateParameter → ⟨param, use⟩ ∈ mentions →
      context.subst.get? param ≠ none

section
variable {env : Environment}

namespace Context.Apart
variable {context : Context} (apart : context.Apart env c (early ++ late))
include apart

theorem left : context.Apart env c early :=
  { apart with bound := fun path param use named kind member =>
      apart.bound path param use named kind (List.mem_append_left _ member) }

theorem right : context.Apart env c late :=
  { apart with bound := fun path param use named kind member =>
      apart.bound path param use named kind (List.mem_append_right _ member) }

end Context.Apart

/-- A parameter that is named in a body is one of those that the arguments stand for. -/
theorem Environment.Bound.named_param (bound : env.Bound) (declares : env.Declares owner)
    (named : env.symbols.named? (env.symbols.symbol owner).bodyScope path = some param)
    (kind : (env.symbols.symbol param).kind = .templateParameter) :
    param ∈ (env.symbols.symbol owner).templateParams := by
  simp only [SymbolTable.named?] at named
  split at named
  · rename_i start found
    obtain ⟨_, rfl⟩ := bound.memberPath_param _ named kind
    refine bound.lookup_param ?_ found kind
    rcases declares with model | operation | interface <;> simp [*]
  · cases named

/-- Where no error is stored there is none. -/
theorem Consistent.not_error (consistent : Consistent env c) {id : TypeId}
    (right : c.types.get? id ≠ some .error) : c.types.isError id = false := by
  have other : id ≠ TypeStore.error := by
    rintro rfl
    exact right consistent.tables.error
  cases found : c.types.get? id with
  | none => simp [TypeStore.isError, found, other]
  | some type => cases type with
    | error => exact absurd found right
    | _ => simp [TypeStore.isError, found, other, CheckedType.isError]

namespace Upright

variable (world : Upright env c)
include world

/-- What is fine is neither an error nor a parameter. -/
theorem not_barren {id : TypeId} (fine : c.Fine id) : ¬ c.Barren id := by
  rintro (error | ⟨param, found⟩)
  · rcases world.errors id error with same | marked
    · exact fine.2 same
    · cases fine.1.symm.trans marked
  · have params := world.consistent.params
    have marked := params.dependent _ _ (params.origin id param found)
    exact of_decide_eq_false fine.1 marked

theorem not_error {id : TypeId} (fine : c.Fine id) : c.types.isError id = false :=
  world.consistent.not_error fun found => world.not_barren fine (.inl found)

theorem fine_placed {id : TypeId} (placed : c.Placed key id) (args : ∀ arg ∈ key.args, c.Fine arg) :
    c.Fine id := by
  constructor
  · rw [world.consistent.holdings.dependent key id placed, List.any_eq_false]
    exact fun arg member => by simp [(args arg member).1]
  · rintro rfl
    exact absurd (world.consistent.ledger.held _ placed _ rfl).1 (by decide)

/-- What is stored and is no error is fine outside templates. -/
theorem fine_stored {id : TypeId} (found : c.types.get? id = some type) (right : type ≠ .error)
    (outside : c.isDependent id = false) : c.Fine id := by
  refine ⟨outside, ?_⟩
  rintro rfl
  exact right (Option.some.inj (found.symm.trans world.consistent.tables.error))

theorem fine_intrinsic (kind : Intrinsic) : c.Fine (TypeStore.intrinsic kind) := by
  refine world.fine_stored (world.consistent.tables.intrinsic kind) (by simp) ?_
  refine decide_eq_false fun marked => ?_
  have least := (world.consistent.holdings.marked _ marked).1
  cases kind <;> exact absurd least (by decide)

/-- The body of a declaration is read outside templates if its place is. -/
theorem apart_body {id : TypeId} (placed : c.Placed key id) (outside : c.isDependent id = false)
    {context : Context} (dependent : context.dependent = false)
    (scope : context.scope = (env.symbols.symbol key.symbol).bodyScope)
    (binds : Substitution.ofArguments (env.symbols.symbol key.symbol).templateParams key.args =
      .ok context.subst) (mentions : List Mention) : context.Apart env c mentions := by
  have proper := world.consistent.holdings.proper key id placed
  have marks := world.consistent.holdings.dependent key id placed
  rw [outside] at marks
  refine ⟨dependent, fun param arg value => ?_, fun path param use named kind _ => ?_⟩
  · have member := Substitution.mem_of_get? binds value
    exact ⟨by simpa using List.any_eq_false.mp marks.symm arg member,
      fun same => proper.right (same ▸ member)⟩
  · rw [scope] at named
    exact Substitution.get?_ne_none binds (world.bound.named_param proper.declares named kind)

end Upright

/-- The default of a parameter is read outside templates if the arguments before it are fine. -/
private theorem Context.apart_default {file : FileId} {subst : Substitution}
    (back : env.looksBack (fun param => (env.text param).map Mention.symbol) before
      (param :: rest) = true) (fine : ∀ arg ∈ args, c.Fine arg)
    (written : CheckM.defaultOf (env.symbols.symbol param) = some (file, expr))
    (binds : Substitution.ofArguments before args = .ok subst) :
    Context.Apart env c ⟨file, (env.symbols.symbol param).parent, subst, args.any c.isDependent⟩
      (expr.mentions env.symbols (env.symbols.symbol param).parent none) := by
  refine ⟨?_, fun other id value => fine id (Substitution.mem_of_get? binds value), ?_⟩
  · exact List.any_eq_false.mpr fun arg member => by simp [(fine arg member).1]
  · intro path other use _ kind member
    rw [← Environment.text_default written] at member
    have only := List.all_eq_true.mp (Bool.and_eq_true_iff.mp back).1 other
      (List.mem_map_of_mem member)
    exact Substitution.get?_ne_none binds (by simpa [kind] using only)

mutual

-- The recursion is on what is read. What is passed over in a lax reading is an error or a parameter
-- and so never fine.
theorem Denotes.strict (world : Upright env c) {id : TypeId} (use : Option Use) :
    Denotes True env c context expr id →
      context.Apart env c (expr.mentions env.symbols context.scope use) →
        Denotes False env c context expr id ∧ c.Fine id
  | .bound named kind value, apart => ⟨.bound named kind value, apart.fine _ _ value⟩
  | .unbound _ named kind free _, apart =>
    absurd free (apart.bound _ _ use named kind (by simp [TypeExpr.mentions, named]))
  | .declared named declares plain placed, _ =>
    ⟨.declared named declares plain placed, world.fine_placed placed nofun⟩
  | .applied named declares template arguments made, apart => by
    rw [TypeExpr.mentions] at apart
    obtain ⟨arguments, fine⟩ := arguments.strict world apart.right
    obtain ⟨made, right⟩ := made.strict world fine
    exact ⟨.applied named declares template arguments made, right⟩
  | .intrinsic, _ => ⟨.intrinsic, world.fine_intrinsic _⟩
  | .union parts stored, apart => by
    rw [TypeExpr.mentions] at apart
    obtain ⟨parts, fine⟩ := parts.strict world apart
    obtain ⟨found, mark⟩ := world.consistent.tables.union _ _ stored
    refine ⟨.union parts stored, world.fine_stored found (by simp) ?_⟩
    rw [mark, List.any_eq_false]
    exact fun option member => by simp [(fine option (CheckM.mem_distinct member)).1]
  | .model written stored, apart => by
    rw [TypeExpr.mentions] at apart
    obtain ⟨mark, _, found, _⟩ := world.consistent.expressed stored
    exact ⟨.model (written.strict world apart) stored,
      world.fine_stored found (by simp) (mark.trans apart.outside)⟩
  | .array inner named made, apart => by
    rw [TypeExpr.mentions] at apart
    obtain ⟨inner, fine⟩ := inner.strict world none apart.right
    obtain ⟨made, right⟩ := made.strict world (by simpa using fine)
    exact ⟨.array inner named made, right⟩

theorem DenotesAll.strict (world : Upright env c) :
    DenotesAll True env c context exprs ids →
      context.Apart env c (TypeExpr.allMentions env.symbols context.scope exprs) →
        DenotesAll False env c context exprs ids ∧ ∀ id ∈ ids, c.Fine id
  | .nil, _ => ⟨.nil, nofun⟩
  | .cons first others, apart => by
    rw [TypeExpr.allMentions] at apart
    obtain ⟨first, fine⟩ := first.strict world none apart.left
    obtain ⟨others, rest⟩ := others.strict world apart.right
    exact ⟨.cons first others, List.forall_mem_cons.mpr ⟨fine, rest⟩⟩

theorem Instantiates.strict (world : Upright env c) {id : TypeId} :
    Instantiates True env c template args id → (∀ arg ∈ args, c.Fine arg) →
      Instantiates False env c template args id ∧ c.Fine id
  | .wrong _ member error, fine => by
    cases (world.not_error (fine _ member)).symm.trans error
  | .wrongDefault _ fills, fine => by
    obtain ⟨_, given, _⟩ := fills.strict world (world.bound.looksBack world.back _ _) fine
    cases given
  | .made fills placed, fine => by
    obtain ⟨_, given, fills, all⟩ := fills.strict world (world.bound.looksBack world.back _ _) fine
    cases given
    exact ⟨.made fills placed, world.fine_placed placed all⟩

theorem Fills.strict (world : Upright env c) : Fills True env c before rest args result →
    env.looksBack (fun param => (env.text param).map Mention.symbol) before rest = true →
      (∀ arg ∈ args, c.Fine arg) → ∃ all, result = some all ∧
        Fills False env c before rest args (some all) ∧ ∀ arg ∈ all, c.Fine arg
  | .done, _, fine => ⟨_, rfl, .done, fine⟩
  | .next held written binds denotes others, back, fine => by
    obtain ⟨denotes, value⟩ :=
      denotes.strict world none (Context.apart_default back fine written binds)
    obtain ⟨all, rfl, others, fine⟩ := others.strict world (Bool.and_eq_true_iff.mp back).2
      (List.forall_mem_append.mpr ⟨fine, by simpa using value⟩)
    exact ⟨all, rfl, .next held written binds denotes others, fine⟩
  | .broken _ _ written binds denotes error, back, fine => by
    have value := (denotes.strict world none (Context.apart_default back fine written binds)).2
    cases (world.not_error value).symm.trans error

theorem Contributes.strict (world : Upright env c) :
    Contributes True env c context member properties →
      context.Apart env c (member.mentions env.symbols context.scope) →
        Contributes False env c context member properties
  | .property denotes decorated, apart => by
    rw [Member.mentions] at apart
    exact .property (denotes.strict world none apart.left).1 (decorated.strict world apart.right)
  | .spread denotes names, apart => .spread (denotes.strict world _ apart).1 names
  | .spreadBarren _ denotes barren, apart =>
    absurd barren (world.not_barren (denotes.strict world _ apart).2)

theorem ContributesAll.strict (world : Upright env c) :
    ContributesAll True env c context members properties →
      context.Apart env c (Member.allMentions env.symbols context.scope members) →
        ContributesAll False env c context members properties
  | .nil, _ => .nil
  | .cons first remaining, apart => by
    rw [Member.allMentions] at apart
    exact .cons (first.strict world apart.left) (remaining.strict world apart.right)

theorem Decorates.strict (world : Upright env c) :
    Decorates True env c context decorators applications →
      context.Apart env c (DecoratorExpr.allMentions env.symbols context.scope decorators) →
        Decorates False env c context decorators applications
  | .nil, _ => .nil
  | .cons named defined arguments remaining, apart => by
    rw [DecoratorExpr.allMentions, DecoratorExpr.mentions] at apart
    exact .cons named defined
      (arguments.strict world apart.left).1
      (remaining.strict world apart.right)
  | .wrong _ _ _ arguments _, apart => by
    rw [DecoratorExpr.allMentions, DecoratorExpr.mentions] at apart
    exact absurd rfl (arguments.strict world apart.left).2

theorem Argues.strict (world : Upright env c) :
    Argues True env c context args values →
      context.Apart env c (DecoratorArg.allMentions env.symbols context.scope args) →
        Argues False env c context args values ∧ values ≠ none
  | .nil, _ => ⟨.nil, by simp⟩
  | .literal others, apart => (others.strict world apart).imp .literal (by simp)
  | .type denotes others, apart => by
    rw [DecoratorArg.allMentions, DecoratorArg.mentions] at apart
    have denotes := (denotes.strict world none apart.left).1
    exact (others.strict world apart.right).imp (.type denotes) (by simp)
  | .wrong _ denotes error, apart => by
    rw [DecoratorArg.allMentions, DecoratorArg.mentions] at apart
    have fine := (denotes.strict world none apart.left).2
    cases (world.not_error fine).symm.trans error

end

/-- Outside templates nothing is passed over in a body. -/
theorem ReadsBody.strict (world : Upright env c) (apart : ∀ mentions, context.Apart env c mentions)
    (reads : ReadsBody True env c context definition type) :
    ReadsBody False env c context definition type := by
  cases definition with
  | model decl =>
    obtain ⟨model, shape, properties, decorators, contributed, own, inherits, written, decorated,
      same⟩ := reads
    refine ⟨model, shape, properties, decorators, contributed, own, ?_,
      written.strict world (apart _), decorated.strict world (apart _), same⟩
    generalize decl.heritage = heritage at inherits
    cases inherits with
    | plain => exact .plain
    | extending => exact .extending
    | is denotes names => exact .is (denotes.strict world none (apart _)).1 names
    | isBarren _ denotes barren =>
      exact absurd barren (world.not_barren (denotes.strict world none (apart _)).2)
  | operation decl =>
    simp only [ReadsBody] at reads ⊢
    split at reads
    · obtain ⟨operation, shape, properties, stored, written, result, decorated⟩ := reads
      exact ⟨operation, shape, properties, stored, written.strict world (apart _),
        (result.strict world none (apart _)).1, decorated.strict world (apart _)⟩
    · trivial
  | _ => trivial

/-! Errors in a run. -/

/-- As long as no error is reported, only places within templates become errors. -/
def ErrsWithin (c : Checker) : Prop :=
  c.Faultless → ∀ id, c.types.get? id = some .error → id = TypeStore.error ∨ c.isDependent id = true

private theorem step_errsWithin (bound : env.Bound) (back : env.DefaultsReadBack)
    (consistent : Consistent env c) (step : Step env c after) (errs : ErrsWithin c) :
    ErrsWithin after := by
  intro faultless id found
  have before := step.grows.faultless faultless
  have world : Upright env c := ⟨bound, consistent, back, errs before⟩
  cases consistent.stores step found with
  | kept found =>
    rw [step.grows.isDependent (TypeStore.lt_size_of_get? found)]
    exact world.errors id found
  | @declared frame rest _ stacked place completes =>
    -- only an operation that takes over the signature of what is none is an error
    have placed := consistent.top_placed stacked
    subst place
    rw [step.grows.isDependent (consistent.holds_placed placed), or_iff_not_imp_right]
    intro unmarked
    have outside : c.isDependent frame.id = false := by simpa using unmarked
    have proper := consistent.holdings.proper _ _ placed
    obtain ⟨⟨location, definition⟩, declared, _⟩ := bound.definition proper.declares.not_space
    have binds := Substitution.ofArguments_of_length proper.counted
    cases completes.links before _ _ declared binds with
    | reuseWrong _ denotes barren =>
      have fine := (denotes.strict world none
        (world.apart_body placed outside outside rfl binds _)).2
      exact absurd barren (world.not_barren fine)

/-- At the end of a check without errors, only places within templates are errors. -/
theorem Ended.upright (ended : Ended env c) (bound : env.Bound) (back : env.DefaultsReadBack)
    (faultless : c.Faultless) : Upright env c := by
  have errs : ErrsWithin c :=
    ended.keeps ErrsWithin
      (fun _ id found => by
        obtain ⟨_ | _ | _ | index⟩ := id
        · cases found
        · cases found
        · exact .inl rfl
        · cases found)
      (fun _ _ => step_errsWithin bound back)
  exact ⟨bound, ended.consistent, back, errs faultless⟩

/-- What stands for a template parameter is written as the name of one. -/
theorem Denotes.namesParam (consistent : Consistent env c) {id : TypeId}
    (denotes : Denotes True env c context expr id)
    (found : c.types.get? id = some (.templateParameter param)) :
    env.NamesParam c context expr id := by
  have unplaced {key : ResolutionKey} (placed : c.Placed key id) : False :=
    consistent.holdings.fits key id _ placed found
  have unmade {symbol : SymbolId} {args : List TypeId}
      (made : Instantiates True env c symbol args id) : False := by
    cases made with
    | wrong | wrongDefault => cases consistent.tables.error.symm.trans found
    | made _ placed => exact unplaced placed
  cases denotes with
  | bound named kind value => exact .reference named kind (.inl value)
  | unbound _ named kind free own => exact .reference named kind (.inr ⟨free, own⟩)
  | declared _ _ _ placed => exact (unplaced placed).elim
  | applied _ _ _ _ made | array _ _ made => exact (unmade made).elim
  | intrinsic => cases (consistent.tables.intrinsic _).symm.trans found
  | union _ stored => cases (consistent.tables.union _ _ stored).1.symm.trans found
  | model _ stored =>
    obtain ⟨_, _, other, _⟩ := consistent.expressed stored
    cases other.symm.trans found

end

/-- The type at a place is what the declaration of a key says, read where the arguments of the key
stand for the parameters. Nothing is passed over: what is spread or copied is a model, and every
decorator is applied to all of its arguments. -/
def Checker.Satisfies (env : Environment) (c : Checker) (key : ResolutionKey) (id : TypeId) :
    Prop :=
  let symbol := env.symbols.symbol key.symbol
  ∃ declaration subst type, symbol.declarations.head? = some declaration ∧
    Substitution.ofArguments symbol.templateParams key.args = .ok subst ∧
    c.types.get? id = some type ∧ ReadsBody False env c
      ⟨declaration.location.file, symbol.bodyScope, subst, false⟩ declaration.definition type

/-- If nothing is reported, every key that is resolved outside templates has the type that its
declaration says, provided that defaults name only parameters before their own: a model has the
properties of the model it copies and then those of its members, and its decorators likewise, and so
have the parameters of an operation. -/
theorem check_satisfies_source (library : Library) (options : Options) (scripts : List Script)
    (rounds : Nat) (final : Checker)
    (checked : check (Environment.ofScripts library options scripts) rounds = some final)
    (back : (Environment.ofScripts library options scripts).DefaultsReadBack)
    (clean : final.diagnostics = []) (key : ResolutionKey) (id : TypeId)
    (resolved : final.resolutions.get? key = some (.resolved id))
    (independent : id ∉ final.dependentTypes) :
    final.Satisfies (Environment.ofScripts library options scripts) key id := by
  have bound := Environment.ofScripts_bound library options scripts
  have ended := check_ended bound checked
  have faultless : final.Faultless := by simp [Checker.Faultless, clean]
  have world := ended.upright bound back faultless
  have consistent := ended.consistent
  have placed := consistent.keys.resolved key id resolved
  have proper := consistent.holdings.proper key id placed
  obtain ⟨declaration, declared, _⟩ := bound.definition proper.declares.not_space
  obtain ⟨type, found⟩ := Option.ne_none_iff_exists'.mp (consistent.slots.resolved key id resolved)
  have substitution := Substitution.ofArguments_of_length proper.counted
  have outside : final.isDependent id = false := decide_eq_false independent
  have reads :=
    (ended.readings key id type placed found faultless).1 declaration _ declared substitution
  rw [Checker.bodyContext, outside] at reads
  exact ⟨declaration, _, type, declared, substitution, found,
    reads.strict world (world.apart_body placed outside rfl rfl substitution)⟩

/-- A decorated copy of a model that was put off, with members from an instance of a template whose
second argument is left out. -/
private def copiedText : String :=
  "model A \x7b b: B \x7d model B \x7b ...A; a: Box<A> \x7d " ++
    "model Box<P, Q = P | void> \x7b @key value: P; rest: Q \x7d " ++
    "@doc(\"copy\") model C is B \x7b ...Box<B>; c?: A \x7d"

/-- Nothing is reported, and the copy has the properties and decorators that one expects. -/
private def isCopied (final : Checker) (id : TypeId) : Bool :=
  final.diagnostics = [] && id ∉ final.dependentTypes &&
    final.resolutions.get? ⟨⟨13⟩, []⟩ = some (.resolved id) &&
    (final.types.model? id).any fun model => model.decorators.length = 1 &&
      model.properties.map (fun property => (property.name, property.decorators.length)) =
        [("b", 0), ("a", 0), ("value", 1), ("rest", 0), ("c", 0)]

theorem check_satisfies_source_copied :
    ∃ final id, check (Environment.ofText copiedText Builtin.library) 8 = some final ∧
      isCopied final id ∧
      final.Satisfies (Environment.ofText copiedText Builtin.library) ⟨⟨13⟩, []⟩ id := by
  obtain ⟨returns, back⟩ :
      (check (Environment.ofText copiedText Builtin.library) 8).any (isCopied · ⟨11⟩) = true ∧
        (Environment.ofText copiedText Builtin.library).DefaultsReadBack := by
    decide +kernel
  obtain ⟨final, checked, copied⟩ := (Option.any_eq_true _ _).mp returns
  refine ⟨final, ⟨11⟩, checked, copied, ?_⟩
  simp only [isCopied, Bool.and_eq_true, decide_eq_true_eq] at copied
  obtain ⟨⟨⟨clean, independent⟩, resolved⟩, _⟩ := copied
  exact check_satisfies_source _ _ _ _ _ checked back clean _ _ resolved independent

/-- The default of `U` names a parameter that comes later, so `bar` is an error without a report. -/
private def silentText : String :=
  "op foo<T, U = V, V = void>: U; op bar: foo<void>; @doc(bar) model X \x7b \x7d"

/-- Nothing is reported, and the model has no decorators. -/
private def isSilent (final : Checker) (id : TypeId) : Bool :=
  final.diagnostics = [] && id ∉ final.dependentTypes &&
    final.resolutions.get? ⟨⟨13⟩, []⟩ = some (.resolved id) &&
    (final.types.model? id).any (·.decorators.isEmpty)

/-- Whether the definition of a symbol is a model with decorators. -/
private def isDecorated (symbol : Symbol) : Bool :=
  match symbol.declarations.head?.map Declaration.definition with
  | some (.model decl) => !decl.decorators.isEmpty
  | _ => false

/-- A decorator of a model can be left out although nothing is reported. -/
theorem check_drops_decorator :
    ∃ final id, check (Environment.ofText silentText Builtin.library) 8 = some final ∧
      final.diagnostics = [] ∧ id ∉ final.dependentTypes ∧
      final.resolutions.get? ⟨⟨13⟩, []⟩ = some (.resolved id) ∧
      ¬ final.Satisfies (Environment.ofText silentText Builtin.library) ⟨⟨13⟩, []⟩ id := by
  obtain ⟨returns, written⟩ :
      (check (Environment.ofText silentText Builtin.library) 8).any (isSilent · ⟨9⟩) = true ∧
        isDecorated ((Environment.ofText silentText Builtin.library).symbols.symbol ⟨13⟩) = true := by
    decide +kernel
  obtain ⟨final, checked, silent⟩ := (Option.any_eq_true _ _).mp returns
  simp only [isSilent, Bool.and_eq_true, decide_eq_true_eq, Option.any_eq_true,
    List.isEmpty_iff] at silent
  obtain ⟨⟨⟨clean, independent⟩, resolved⟩, model, found, undecorated⟩ := silent
  refine ⟨final, ⟨9⟩, checked, clean, independent, resolved, ?_⟩
  rintro ⟨⟨location, definition⟩, _, type, declared, _, stored, reads⟩
  simp only [isDecorated, declared, Option.map_some] at written
  cases definition with
  | model decl =>
    obtain ⟨_, rfl, _, _, _, own, _, _, decorated, _, all⟩ := reads
    cases (TypeStore.get?_of_model? found).symm.trans stored
    rw [undecorated] at all
    rw [(List.append_eq_nil_iff.mp all.symm).2] at decorated
    cases first : decl.decorators with
    | nil => simp [first] at written
    | cons =>
      rw [first] at decorated
      cases decorated with
      | wrong impossible => exact impossible
  | _ => cases written

end Idl
