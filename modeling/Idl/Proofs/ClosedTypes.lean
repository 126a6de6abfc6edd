import Idl.Proofs.SourceSatisfaction

/-! The places that a program leads to from its declarations without parameters.
Such a place is made from intrinsic types, from declarations with arguments that
are such places, and from unions and models written in place of them. As long as
no error is reported, what is stored there is no error and leads to such places
again, and no template parameter is among them if the defaults of parameters name
only parameters before their own. -/
namespace Idl

mutual

/-- The names that are written in a type expression. Decorators are left aside. -/
def TypeExpr.paths : TypeExpr → List DottedName
  | .reference path args _ _ => path :: TypeExpr.allPaths args
  | .intrinsic _ _ => []
  | .union first rest _ => first.paths ++ TypeExpr.allPaths rest
  | .model members _ => Member.allPaths members
  | .array element _ => element.paths

def TypeExpr.allPaths : List TypeExpr → List DottedName
  | [] => []
  | expr :: rest => expr.paths ++ TypeExpr.allPaths rest

def Member.paths : Member → List DottedName
  | .property _ _ _ type _ => type.paths
  | .spread target _ => target.paths

def Member.allPaths : List Member → List DottedName
  | [] => []
  | member :: rest => member.paths ++ Member.allPaths rest

end

namespace Environment

/-- What the default of a parameter names. Decorators are left aside. -/
def defaultNames (env : Environment) (param : SymbolId) : List SymbolId :=
  match CheckM.defaultOf (env.symbols.symbol param) with
  | none => []
  | some (_, expr) => expr.paths.filterMap (env.symbols.named? (env.symbols.symbol param).parent)

/-- The defaults of template parameters name only parameters that come before. -/
def DefaultsLookBack (env : Environment) : Prop :=
  ∀ symbol ∈ env.symbols.toList, env.looksBack env.defaultNames [] symbol.templateParams = true

/-- Whether the signature of an operation is not taken over from a template parameter. -/
def takesNoParam (env : Environment) (symbol : Symbol) : Bool :=
  match symbol.declarations.head?.map Declaration.definition with
  | some (.operation ⟨_, _, _, .reuse (.reference path _ _ _), _⟩) =>
    match env.symbols.named? symbol.bodyScope path with
    | none => true
    | some named => (env.symbols.symbol named).kind ≠ .templateParameter
  | _ => true

/-- No operation takes over the signature of what stands for a template parameter. -/
def TakesNoParams (env : Environment) : Prop :=
  ∀ symbol ∈ env.symbols.toList, env.takesNoParam symbol = true

instance (env : Environment) : Decidable env.DefaultsLookBack :=
  inferInstanceAs (Decidable (∀ symbol ∈ env.symbols.toList, _))

end Environment

/-- A place of intrinsic types, of declarations with closed arguments, and of unions and models
written in place of closed types. What stands for a template parameter of its own counts only if it
may be loose. -/
inductive Checker.Closed (loose : Prop) (c : Checker) : TypeId → Prop where
  | intrinsic (kind : Intrinsic) : Closed loose c (TypeStore.intrinsic kind)
  | declared {key id} (placed : c.Placed key id) (args : ∀ arg ∈ key.args, Closed loose c arg) :
      Closed loose c id
  | union {options id} (stored : c.types.unions.get? options = some id)
      (parts : ∀ option ∈ options, Closed loose c option) : Closed loose c id
  | model {properties id} (stored : c.types.get? id = some (.model { properties }))
      (parts : ∀ property ∈ properties, Closed loose c property.type) : Closed loose c id
  | param {param id} (free : loose) (own : c.paramTypes.get? param = some id) : Closed loose c id

/-- A type that is no error, and leads to closed places only. -/
structure CheckedType.Tight (env : Environment) (loose : Prop) (c : Checker) (type : CheckedType) :
    Prop where
  right : type ≠ .error
  leads : ∀ id, type.Leads env id → c.Closed loose id

theorem Checker.Closed.grows (grown : Grows before after) {id : TypeId}
    (closed : before.Closed loose id) : after.Closed loose id := by
  induction closed with
  | intrinsic kind => exact .intrinsic kind
  | declared placed _ ih => exact .declared (grown.placed placed) ih
  | union stored _ ih => exact .union (grown.unions _ _ stored) ih
  | model stored _ ih => exact .model (grown.filled _ _ stored) ih
  | param free own => exact .param free (grown.params _ _ own)

theorem CheckedType.Tight.grows (grown : Grows before after) {type : CheckedType}
    (tight : type.Tight env loose before) : type.Tight env loose after :=
  ⟨tight.right, fun id leads => (tight.leads id leads).grows grown⟩

/-- In a state without errors, the types of declarations with closed arguments are tight. -/
structure Sealed (env : Environment) (loose : Prop) (c : Checker) : Prop where
  bound : env.Bound
  consistent : Consistent env c
  back : env.DefaultsLookBack ∨ loose
  tight : ∀ key id type, c.Placed key id → c.types.get? id = some type →
    (∀ arg ∈ key.args, c.Closed loose arg) → type.Tight env loose c

/-- What is named as a template parameter stands for a closed place. -/
def Context.Closes (env : Environment) (loose : Prop) (c : Checker) (context : Context)
    (paths : List DottedName) : Prop :=
  ∀ path ∈ paths, ∀ args span id,
    env.NamesParam c context (.reference path args false span) id → c.Closed loose id

variable {env : Environment}

theorem Context.Closes.mono {context : Context} (closes : context.Closes env loose c paths)
    (included : ∀ path ∈ fewer, path ∈ paths) : context.Closes env loose c fewer :=
  fun path member => closes path (included path member)

namespace Sealed

variable (world : Sealed env loose c)
include world

/-- What is stored at any closed place is tight. -/
theorem stored {id : TypeId} (closed : c.Closed loose id)
    (found : c.types.get? id = some type) : type.Tight env loose c := by
  cases closed with
  | intrinsic kind =>
    cases (world.consistent.tables.intrinsic kind).symm.trans found
    exact ⟨nofun, nofun⟩
  | declared placed args => exact world.tight _ id type placed found args
  | union stored parts =>
    cases (world.consistent.tables.union _ id stored).1.symm.trans found
    refine ⟨by simp, fun other leads => ?_⟩
    cases leads with
    | option member => exact parts other member
  | model stored parts =>
    cases stored.symm.trans found
    refine ⟨by simp, fun other leads => ?_⟩
    cases leads with
    | property member => exact parts _ member
    | base given | source given | argument given => cases given
  | param free own =>
    obtain ⟨_, _, rfl⟩ := world.consistent.params.stored _ id type own found
    exact ⟨nofun, nofun⟩

/-- No closed place is an error. -/
theorem not_error {id : TypeId} (closed : c.Closed loose id) : c.types.isError id = false :=
  world.consistent.not_error fun found => (world.stored closed found).right rfl

/-- The defaults of the parameters after some look back, if nothing is loose. -/
theorem looksBack (template : SymbolId) (count : Nat) :
    let params := (env.symbols.symbol template).templateParams
    env.looksBack env.defaultNames (params.take count) (params.drop count) = true ∨ loose :=
  world.back.imp_left fun back => world.bound.looksBack back template count

/-- The properties of a model at a closed place have closed types. -/
theorem properties {id : TypeId} (closed : c.Closed loose id)
    (found : c.types.get? id = some (.model model)) :
    ∀ property ∈ model.properties, c.Closed loose property.type :=
  fun _ member => (world.stored closed found).leads _ (.property member)

end Sealed

/-- The default of a parameter names parameters that the arguments before it stand for. -/
private theorem Context.closes_default {file : FileId} {subst : Substitution} {dependent : Bool}
    (back : env.looksBack env.defaultNames before (param :: rest) = true ∨ loose)
    (closed : ∀ arg ∈ args, c.Closed loose arg)
    (written : CheckM.defaultOf (env.symbols.symbol param) = some (file, expr))
    (binds : Substitution.ofArguments before args = .ok subst) :
    Context.Closes env loose c ⟨file, (env.symbols.symbol param).parent, subst, dependent⟩
      expr.paths := by
  rintro path member _ _ id ⟨named, kind, value | ⟨none, own⟩⟩
  · exact closed id (Substitution.mem_of_get? binds value)
  · rcases back with back | free
    · have only := List.all_eq_true.mp (Bool.and_eq_true_iff.mp back).1 _
        (by simpa [Environment.defaultNames, written] using ⟨path, member, named⟩)
      exact absurd none (Substitution.get?_ne_none binds (by simpa [kind] using only))
    · exact .param free own

/-- A model written in place has properties of the types that are written. -/
private theorem Checker.Expresses.closed (consistent : Consistent env c) {id : TypeId}
    (expresses : c.Expresses dependent properties id)
    (parts : ∀ property ∈ properties, c.Closed loose property.type) : c.Closed loose id := by
  obtain ⟨_, others, stored, same⟩ := consistent.expressed expresses
  refine .model stored fun other member => ?_
  obtain ⟨property, inside, type⟩ := same other member
  exact type ▸ parts property inside

mutual

-- The recursion is on what is read. The types of other declarations are there already where they
-- are needed in full, and are tight.
theorem Denotes.closed (world : Sealed env loose c) {context : Context} {id : TypeId} :
    Denotes True env c context expr id → context.Closes env loose c expr.paths → c.Closed loose id
  | .bound named kind value, closes =>
    closes _ (by simp [TypeExpr.paths]) [] ⟨0, 0, 0⟩ _ (.reference named kind (.inl value))
  | .unbound _ named kind free own, closes =>
    closes _ (by simp [TypeExpr.paths]) [] ⟨0, 0, 0⟩ _ (.reference named kind (.inr ⟨free, own⟩))
  | .declared _ _ _ placed, _ => .declared placed nofun
  | .applied _ _ _ arguments made, closes => by
    rw [TypeExpr.paths] at closes
    refine made.closed world (arguments.closed world ?_)
    exact closes.mono fun _ => List.mem_cons_of_mem _
  | .intrinsic, _ => .intrinsic _
  | .union parts stored, closes => by
    rw [TypeExpr.paths] at closes
    exact .union stored fun option member =>
      parts.closed world closes option (CheckM.mem_distinct member)
  | .model written stored, closes => by
    rw [TypeExpr.paths] at closes
    exact stored.closed world.consistent (written.closed world closes)
  | .array inner _ made, closes => by
    rw [TypeExpr.paths] at closes
    exact made.closed world (by simpa using inner.closed world closes)

theorem DenotesAll.closed (world : Sealed env loose c) {context : Context} :
    DenotesAll True env c context exprs ids →
      context.Closes env loose c (TypeExpr.allPaths exprs) → ∀ id ∈ ids, c.Closed loose id
  | .nil, _ => nofun
  | .cons first others, closes => by
    rw [TypeExpr.allPaths] at closes
    have one := first.closed world (closes.mono fun _ => List.mem_append_left _)
    have all := others.closed world (closes.mono fun _ => List.mem_append_right _)
    exact List.forall_mem_cons.mpr ⟨one, all⟩

theorem Instantiates.closed (world : Sealed env loose c) {id : TypeId} :
    Instantiates True env c template args id → (∀ arg ∈ args, c.Closed loose arg) →
      c.Closed loose id
  | .wrong _ member error, closed => by
    cases (world.not_error (closed _ member)).symm.trans error
  | .wrongDefault _ fills, closed => by
    obtain ⟨_, given, _⟩ := fills.closed world (world.looksBack _ _) closed
    cases given
  | .made fills placed, closed => by
    obtain ⟨_, given, inside⟩ := fills.closed world (world.looksBack _ _) closed
    cases given
    exact .declared placed inside

theorem Fills.closed (world : Sealed env loose c) :
    Fills True env c before rest args result →
      env.looksBack env.defaultNames before rest = true ∨ loose →
      (∀ arg ∈ args, c.Closed loose arg) →
        ∃ all, result = some all ∧ ∀ arg ∈ all, c.Closed loose arg
  | .done, _, closed => ⟨_, rfl, closed⟩
  | .next _ written binds denotes others, back, closed => by
    have value := denotes.closed world (Context.closes_default back closed written binds)
    have later := back.imp_left fun both => (Bool.and_eq_true_iff.mp both).2
    exact others.closed world later (List.forall_mem_append.mpr ⟨closed, by simpa using value⟩)
  | .broken _ _ written binds denotes error, back, closed => by
    have value := denotes.closed world (Context.closes_default back closed written binds)
    cases (world.not_error value).symm.trans error

theorem Contributes.closed (world : Sealed env loose c) :
    Contributes True env c context member properties → context.Closes env loose c member.paths →
      ∀ property ∈ properties, c.Closed loose property.type
  | .property denotes _, closes => by
    rw [Member.paths] at closes
    simpa using denotes.closed world closes
  | .spread denotes names, closes => by
    rw [Member.paths] at closes
    exact world.properties (denotes.closed world closes) names
  | .spreadBarren _ _ _, _ => nofun

theorem ContributesAll.closed (world : Sealed env loose c) {context : Context} :
    ContributesAll True env c context members properties →
      context.Closes env loose c (Member.allPaths members) →
        ∀ property ∈ properties, c.Closed loose property.type
  | .nil, _ => nofun
  | .cons first remaining, closes => by
    rw [Member.allPaths] at closes
    have early := first.closed world (closes.mono fun _ => List.mem_append_left _)
    have late := remaining.closed world (closes.mono fun _ => List.mem_append_right _)
    exact List.forall_mem_append.mpr ⟨early, late⟩

end

/-- In the body of a declaration every parameter has an argument. -/
private theorem Context.closes_body (bound : env.Bound)
    {key : ResolutionKey} (declares : env.Declares key.symbol)
    (closed : ∀ arg ∈ key.args, c.Closed loose arg) {context : Context}
    (scope : context.scope = (env.symbols.symbol key.symbol).bodyScope)
    (binds : Substitution.ofArguments (env.symbols.symbol key.symbol).templateParams key.args =
      .ok context.subst) (paths : List DottedName) : context.Closes env loose c paths := by
  rintro path _ _ _ id ⟨named, kind, value | ⟨none, _⟩⟩
  · exact closed id (Substitution.mem_of_get? binds value)
  · rw [scope] at named
    exact absurd none (Substitution.get?_ne_none binds (bound.named_param declares named kind))

/-- The place of a declaration without parameters is closed. -/
theorem Consistent.closed_plain (consistent : Consistent env c)
    (bound : env.Bound) {id : TypeId} (placed : c.Placed ⟨symbol, args⟩ id)
    (plain : (env.symbols.symbol symbol).templated = false) : c.Closed loose id := by
  have counted := (consistent.holdings.proper _ _ placed).counted
  rw [bound.plain plain] at counted
  have nothing : args = [] := List.length_eq_zero_iff.mp counted.symm
  subst nothing
  exact .declared placed nofun

/-- Only what stands for itself is a template parameter. -/
theorem Sealed.loose_of_param (world : Sealed env loose c) {id : TypeId}
    (closed : c.Closed loose id) (found : c.types.get? id = some (.templateParameter param)) :
    loose := by
  cases closed with
  | intrinsic kind => cases (world.consistent.tables.intrinsic kind).symm.trans found
  | declared placed =>
    cases world.consistent.holdings.fits _ id _ placed found
  | union stored => cases (world.consistent.tables.union _ id stored).1.symm.trans found
  | model stored => cases stored.symm.trans found
  | param free => exact free

/-- The signature of an operation is not taken over from a template parameter. -/
private theorem Environment.TakesNoParams.reuse (takes : env.TakesNoParams)
    (bound : env.Bound) (declares : env.Declares symbol)
    (declared : (env.symbols.symbol symbol).declarations.head? = some ⟨location, .operation decl⟩)
    (signature : decl.signature = .reuse source)
    (scope : context.scope = (env.symbols.symbol symbol).bodyScope) {id : TypeId} :
    ¬ env.NamesParam c context source id := by
  rintro ⟨named, kind, _⟩
  obtain ⟨member, _⟩ := bound.listed declares.not_space
  obtain ⟨decorators, name, params, written, span⟩ := decl
  cases signature
  have none := takes _ member
  rw [scope] at named
  simp [Environment.takesNoParam, declared, named, kind] at none

namespace Sealed

variable (world : Sealed env loose c)
include world

/-- The types that a model leads to. -/
private theorem tight_model {key : ResolutionKey}
    (closes : ∀ paths, context.Closes env loose c paths)
    (args : ∀ arg ∈ key.args, c.Closed loose arg) (reads : ReadsModel True env c context decl model)
    (base : ∀ id ∈ model.base, ∃ expr, decl.heritage = .extends expr ∧
      Denotes True env c context expr id)
    (source : ∀ id ∈ model.source, ∃ expr, decl.heritage = .is expr ∧
      Denotes True env c context expr id)
    (template : ∀ made ∈ model.template, made.arguments = key.args) :
    (CheckedType.model model).Tight env loose c := by
  obtain ⟨inherited, _, contributed, _, inherits, contributes, _, same, _⟩ := reads
  refine ⟨by simp, fun id leads => ?_⟩
  cases leads with
  | property member =>
    rw [same] at member
    rcases List.mem_append.mp member with early | late
    · generalize decl.heritage = heritage at inherits
      cases inherits with
      | is denotes names => exact world.properties (denotes.closed world (closes _)) names _ early
      | plain | extending | isBarren => cases early
    · exact contributes.closed world (closes _) _ late
  | base given =>
    obtain ⟨expr, _, denotes⟩ := base id given
    exact denotes.closed world (closes _)
  | source given =>
    obtain ⟨expr, _, denotes⟩ := source id given
    exact denotes.closed world (closes _)
  | argument given member => exact args id (template _ given ▸ member)

/-- The types that an operation with a signature of its own leads to. -/
private theorem tight_written {key : ResolutionKey}
    (closes : ∀ paths, context.Closes env loose c paths)
    (args : ∀ arg ∈ key.args, c.Closed loose arg)
    (reads : ReadsOperation True env c context decorators parameters returns operation)
    (source : operation.source = none)
    (template : ∀ made ∈ operation.template, made.arguments = key.args) :
    (CheckedType.operation operation).Tight env loose c := by
  obtain ⟨properties, stored, contributes, result, _⟩ := reads
  refine ⟨by simp, fun id leads => ?_⟩
  cases leads with
  | parameters => exact .model stored (contributes.closed world (closes _))
  | returns => exact result.closed world (closes _)
  | signature given => cases source.symm.trans given
  | operationArgument given member => exact args id (template _ given ▸ member)

/-- The types that an operation leads to which takes over a signature. -/
private theorem tight_reuse {key : ResolutionKey}
    (args : ∀ arg ∈ key.args, c.Closed loose arg) {id : TypeId} (closed : c.Closed loose id)
    {properties : List Property} (names : c.types.get? id = some (.operation found))
    (source : operation.source = some id) (returns : operation.returns = found.returns)
    (stored : c.types.get? operation.parameters = some (.model { properties }))
    (copied : ∀ property ∈ properties, ∃ model,
      c.types.get? found.parameters = some (.model model) ∧ property ∈ model.properties)
    (template : ∀ made ∈ operation.template, made.arguments = key.args) :
    (CheckedType.operation operation).Tight env loose c := by
  have taken := world.stored closed names
  refine ⟨by simp, fun other leads => ?_⟩
  cases leads with
  | parameters =>
    refine .model stored fun property member => ?_
    obtain ⟨model, kept, inside⟩ := copied property member
    exact world.properties (taken.leads _ .parameters) kept property inside
  | returns =>
    rw [returns]
    exact taken.leads _ .returns
  | signature given =>
    cases source.symm.trans given
    exact closed
  | operationArgument given member => exact args other (template _ given ▸ member)

/-- What is stored for a declaration with closed arguments is tight. -/
theorem completes (takes : loose → env.TakesNoParams) (faultless : c.Faultless) {frame : Frame}
    (placed : c.Placed frame.key frame.id) (completes : Completes env c frame type)
    (args : ∀ arg ∈ frame.key.args, c.Closed loose arg) : type.Tight env loose c := by
  have consistent := world.consistent
  have proper := consistent.holdings.proper _ _ placed
  obtain ⟨⟨location, definition⟩, declared, _⟩ := world.bound.definition proper.declares.not_space
  obtain ⟨subst, binds⟩ : ∃ subst, Substitution.ofArguments
      (env.symbols.symbol frame.key.symbol).templateParams frame.key.args = .ok subst :=
    ⟨_, Substitution.ofArguments_of_length proper.counted⟩
  have reads := completes.reads faultless _ subst declared binds
  have closes (paths : List DottedName) : Context.Closes env loose c (c.bodyContext
      (env.symbols.symbol frame.key.symbol) ⟨location, definition⟩ subst frame.id) paths :=
    Context.closes_body world.bound proper.declares args rfl binds paths
  cases completes.links faultless _ subst declared binds with
  | model _ base source template =>
    obtain ⟨_, same, reads⟩ := reads
    cases same
    exact world.tight_model closes args reads base source template
  | written signature source template =>
    simp only [ReadsBody, signature] at reads
    obtain ⟨_, same, reads⟩ := reads
    cases same
    exact world.tight_written closes args reads source template
  | reuse _ denotes names source returns stored copied template =>
    exact world.tight_reuse args (denotes.closed world (closes _)) names source returns stored copied
      template
  | reuseWrong signature denotes names =>
    have closed := denotes.closed world (closes _)
    rcases names with error | ⟨param, found⟩
    · exact absurd rfl (world.stored closed error).right
    · have loose := world.loose_of_param closed found
      refine absurd (denotes.namesParam consistent found) ?_
      exact (takes loose).reuse world.bound proper.declares declared signature rfl
  | interface symbol operations =>
    refine ⟨by simp, fun id leads => ?_⟩
    cases leads with
    | operation given member plain =>
      cases symbol.symm.trans given
      obtain ⟨args, placed⟩ := operations _ _ member
      exact consistent.closed_plain world.bound placed plain

end Sealed

/-! Closed places in a run. -/

/-- A union had its place before, or is given it now. -/
private theorem Step.joins (step : Step env c after) {id : TypeId}
    (stored : after.types.unions.get? options = some id) :
    c.types.unions.get? options = some id ∨ id = ⟨c.types.size⟩ := by
  cases step with
  | union _ new =>
    simp only [Checker.unionOf, TypeStore.internUnion, new, Dictionary.get?_insert] at stored
    split at stored
    · exact .inr (Option.some.inj stored).symm
    · exact .inl stored
  | _ => exact .inl stored

/-- A model that is stored for a declaration has the symbol of the declaration, so it is not taken
for one that is written in place. -/
private theorem Completes.not_nameless (bound : env.Bound)
    (consistent : Consistent env c) (faultless : c.Faultless) (placed : c.Placed frame.key frame.id)
    (completes : Completes env c frame (.model { properties })) : False := by
  have proper := consistent.holdings.proper _ _ placed
  obtain ⟨⟨location, definition⟩, declared, _⟩ := bound.definition proper.declares.not_space
  have binds := Substitution.ofArguments_of_length proper.counted
  cases completes.links faultless _ _ declared binds with
  | model symbol => cases symbol

/-- A place that is closed after a step was closed before, if it was there. -/
theorem Checker.Closed.before (bound : env.Bound)
    (consistent : Consistent env c) (step : Step env c after) (faultless : c.Faultless)
    {id : TypeId} (closed : after.Closed loose id) (held : c.Holds id) : c.Closed loose id := by
  have old {fresh : TypeId} (held : c.Holds fresh) (new : fresh = ⟨c.types.size⟩) : False := by
    rw [new] at held
    exact Nat.lt_irrefl _ held
  induction closed with
  | intrinsic kind => exact .intrinsic kind
  | declared placed _ ih =>
    cases Consistent.places step placed with
    | kept placed =>
      exact .declared placed fun arg member =>
        ih arg member ((consistent.holdings.proper _ _ placed).held arg member)
    | handed fresh => exact (old held fresh).elim
  | union stored _ ih =>
    rcases step.joins stored with stored | fresh
    · have parts := consistent.holdings.sound _ _ (consistent.tables.union _ _ stored).1
      exact .union stored fun option member => ih option member (parts option member)
    · exact (old held fresh).elim
  | model stored _ ih =>
    cases consistent.stores step stored with
    | kept found =>
      have parts := (consistent.holdings.sound _ _ found).1
      exact .model found fun property member => ih property member (parts property member).1
    | model fresh => exact (old held fresh).elim
    | declared stacked place completes =>
      have frame := consistent.top_placed stacked
      exact (completes.not_nameless bound consistent faultless frame).elim
  | param free own =>
    rcases Consistent.parametrizes step own with own | ⟨fresh, _⟩
    · exact .param free own
    · exact (old held fresh).elim

/-- As long as no error is reported, the types of declarations with closed arguments are tight. -/
def SealedTypes (env : Environment) (loose : Prop) (c : Checker) : Prop :=
  c.Faultless → ∀ key id type, c.Placed key id → c.types.get? id = some type →
    (∀ arg ∈ key.args, c.Closed loose arg) → type.Tight env loose c

private theorem step_sealedTypes (bound : env.Bound)
    (back : env.DefaultsLookBack ∨ loose) (takes : loose → env.TakesNoParams) {after : Checker}
    (consistent : Consistent env c) (step : Step env c after) (types : SealedTypes env loose c) :
    SealedTypes env loose after := by
  intro faultless key id type placed found args
  have grown := step.grows
  have before := grown.faultless faultless
  have world : Sealed env loose c := ⟨bound, consistent, back, types before⟩
  rcases consistent.stores_key step placed found with
    ⟨placed, found⟩ | ⟨frame, rest, stacked, rfl, rfl, completes, _⟩
  · refine (world.tight key id type placed found fun arg member => ?_).grows grown
    exact (args arg member).before bound consistent step before
      ((consistent.holdings.proper _ _ placed).held arg member)
  · have placed := consistent.top_placed stacked
    refine (world.completes takes before placed completes fun arg member => ?_).grows grown
    exact (args arg member).before bound consistent step before
      ((consistent.holdings.proper _ _ placed).held arg member)

/-- At the end of a check without errors, closed places lead to closed places. -/
theorem Ended.isSealed (ended : Ended env c) (bound : env.Bound)
    (back : env.DefaultsLookBack ∨ loose) (takes : loose → env.TakesNoParams)
    (faultless : c.Faultless) : Sealed env loose c := by
  have types : SealedTypes env loose c :=
    ended.keeps (SealedTypes env loose) (by simp [SealedTypes, Checker.Placed])
      fun _ _ => step_sealedTypes bound back takes
  exact ⟨bound, ended.consistent, back, types faultless⟩

end Idl
