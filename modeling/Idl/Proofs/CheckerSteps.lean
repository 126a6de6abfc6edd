import Idl.Proofs.CheckerRuns
import Idl.Proofs.DecoratorLog
import Idl.Proofs.DeprecationMarks
import Idl.Proofs.GatheredProperties
import Idl.Proofs.KeptWork
import Idl.Proofs.Mentions
import Mathlib.Logic.Relation

/-! The changes that checking makes to its state, one by one. Everything a run
does is a sequence of such steps, and each step says under which conditions it
is taken, so that what holds of all states of a run is proved step by step and
never by going through the text of the checker again. -/
namespace Idl

/-! Types whose parts are in the store. -/

/-- A decorator that the library has, with arguments that are in the store. -/
def Application.Sound (env : Environment) (c : Checker) (application : Application) : Prop :=
  (env.library.get? application.decorator).isSome ∧
    ∀ value ∈ application.args, ∀ id, value = .type id → c.Holds id

def Property.Sound (env : Environment) (c : Checker) (property : Property) : Prop :=
  c.Holds property.type ∧ ∀ application ∈ property.decorators, application.Sound env c

/-- Everything a type refers to is in the store. -/
def CheckedType.Sound (env : Environment) (c : Checker) : CheckedType → Prop
  | .intrinsic _ => True
  | .model m =>
    (∀ property ∈ m.properties, property.Sound env c) ∧
    (∀ id ∈ m.base, c.Holds id) ∧ (∀ id ∈ m.source, c.Holds id) ∧
    (∀ template ∈ m.template, ∀ id ∈ template.arguments, c.Holds id) ∧
    ∀ application ∈ m.decorators, application.Sound env c
  | .operation o =>
    c.Holds o.parameters ∧ c.Holds o.returns ∧ (∀ id ∈ o.source, c.Holds id) ∧
    (∀ template ∈ o.template, ∀ id ∈ template.arguments, c.Holds id) ∧
    ∀ application ∈ o.decorators, application.Sound env c
  | .interface i =>
    (∀ operation ∈ i.operations, c.Holds operation.2) ∧
    ∀ application ∈ i.decorators, application.Sound env c
  | .union options => ∀ id ∈ options, c.Holds id
  | .templateParameter param => ∀ id ∈ param.default, c.Holds id
  | .error => True

theorem Application.Sound.grows (grown : Grows before after) {application : Application}
    (sound : application.Sound env before) : application.Sound env after :=
  ⟨sound.1, fun value mem id same => grown.holds (sound.2 value mem id same)⟩

theorem Property.Sound.grows (grown : Grows before after) {property : Property}
    (sound : property.Sound env before) : property.Sound env after :=
  ⟨grown.holds sound.1, fun application mem => (sound.2 application mem).grows grown⟩

theorem CheckedType.Sound.grows (grown : Grows before after) {type : CheckedType}
    (sound : type.Sound env before) : type.Sound env after := by
  have holds {id : TypeId} (held : before.Holds id) : after.Holds id := grown.holds held
  cases type with
  | intrinsic | error => trivial
  | model m =>
    obtain ⟨properties, base, source, arguments, decorators⟩ := sound
    exact ⟨fun property mem => (properties property mem).grows grown,
      fun id mem => holds (base id mem), fun id mem => holds (source id mem),
      fun template given id mem => holds (arguments template given id mem),
      fun application mem => (decorators application mem).grows grown⟩
  | operation o =>
    obtain ⟨parameters, returns, source, arguments, decorators⟩ := sound
    exact ⟨holds parameters, holds returns, fun id mem => holds (source id mem),
      fun template given id mem => holds (arguments template given id mem),
      fun application mem => (decorators application mem).grows grown⟩
  | interface i =>
    obtain ⟨operations, decorators⟩ := sound
    exact ⟨fun operation mem => holds (operations operation mem),
      fun application mem => (decorators application mem).grows grown⟩
  | union options | templateParameter param => exact fun id mem => holds (sound id mem)

/-! What is known of a type when it is stored for a declaration. -/

/-- The kind of a type is that of the declaration. Only an operation can turn out
to be an error. -/
def CheckedType.Fits (type : CheckedType) (kind : SymbolKind) : Prop :=
  match type with
  | .model _ => kind = .model
  | .operation _ => kind = .operation
  | .interface _ => kind = .interface
  | .error => kind = .operation
  | _ => False

/-- The types whose texts are in the text of a type: the arguments of an instance, the options of a
union, and the types of the properties of a model without a name. -/
def CheckedType.textParts : CheckedType → List TypeId
  | .model m =>
    m.template.toList.flatMap (·.arguments) ++
      if m.symbol.isNone then m.properties.map (·.type) else []
  | .operation o => o.template.toList.flatMap (·.arguments)
  | .union options => options
  | .intrinsic _ | .interface _ | .templateParameter _ | .error => []

/-- The text of a finding about a declaration that comes back to itself. -/
def cyclicMessage (env : Environment) (symbol : SymbolId) : String :=
  s!"Type '{env.symbols.qualifiedName symbol}' recursively references itself."

/-- A cycle through a declaration was reported. -/
def Checker.Cyclic (env : Environment) (c : Checker) (symbol : SymbolId) : Prop :=
  ∃ finding ∈ c.diagnostics, finding.code = .cyclicReference ∧
    finding.message = cyclicMessage env symbol

/-- A cycle was reported for a declaration, or where it is referred to. -/
def Checker.Blames (env : Environment) (c : Checker) (symbol : SymbolId)
    (location : Option Location) : Prop :=
  c.Cyclic env symbol ∨ ∃ finding ∈ c.diagnostics, finding.code = .cyclicReference ∧
    finding.location = location

/-- The finished type of a declaration without parameters is there, unless a cycle was reported. -/
def Checker.Met (c : Checker) (target : SymbolId) : Prop :=
  (∃ id, c.Placed ⟨target, []⟩ id ∧ ¬ c.Empty id) ∨
    ∃ finding ∈ c.diagnostics, finding.code = .cyclicReference

/-- The last thing settled about what a model extends. -/
def Checker.Settles (c : Checker) (id base : TypeId) : Prop :=
  ∃ later earlier, c.history = later ++ .extended id base :: earlier ∧
    ∀ other, Event.extended id other ∉ later

/-- What was settled last stays so until something else is settled. -/
theorem Checker.Settles.later {before after : Checker} {id : TypeId}
    (settles : before.Settles id base) (added : List Event)
    (history : after.history = added ++ before.history) (calm : ∀ other, .extended id other ∉ added)
    : after.Settles id base := by
  obtain ⟨later, earlier, split, last⟩ := settles
  refine ⟨added ++ later, earlier, by rw [history, split, List.append_assoc], ?_⟩
  intro other mem
  rcases List.mem_append.mp mem with inside | inside
  · exact calm other inside
  · exact last other inside

/-- An expression that is the name of a model without parameters. -/
inductive Environment.NamesModel (env : Environment) (scope : Scope) :
    TypeExpr → SymbolId → Prop where
  | reference {path args span target} (named : env.symbols.named? scope path = some target)
      (kind : (env.symbols.symbol target).kind = .model)
      (plain : (env.symbols.symbol target).templated = false) :
      NamesModel env scope (.reference path args false span) target

/-- A model that is written to extend a model without parameters has the place of
that model as its base, unless a cycle was reported there. -/
def ReadsBase (env : Environment) (c : Checker) (key : ResolutionKey) (type : CheckedType) : Prop :=
  let symbol := env.symbols.symbol key.symbol
  ∀ location decl base target, symbol.declarations.head? = some ⟨location, .model decl⟩ →
    decl.heritage = .extends base → env.NamesModel symbol.bodyScope base target →
    (∃ model place, type = .model model ∧ model.base = some place ∧ c.Placed ⟨target, []⟩ place) ∨
      c.Blames env target (some ⟨location.file, base.span⟩)

/-! What is known of findings about types that were needed in full. -/

/-- A decorator of the library may report a finding. -/
def Library.Reports (library : Library) (finding : Diagnostic) : Prop :=
  ∃ id definition invocation annotations, library.get? id = some definition ∧
    finding ∈ ((definition.handler invocation).run { annotations }).2.reports

theorem Use.finding_code_ne (use : Use) (location : Location) :
    (use.finding location).code ≠ .cyclicReference := by
  cases use <;> simp [finding, code, Diagnostic.report]

/-- A finding about a type that was needed in full says for what and where. -/
theorem Use.finding_inj {two : Use} (same : one.finding here = two.finding there) :
    one = two ∧ here = there := by
  cases one <;> cases two <;> simp_all [finding, code, Diagnostic.report]

/-- A finding about a type that was needed in full comes from a decorator, or was made about a
type that was not there or cannot be used. -/
def Checker.Warrants (env : Environment) (c : Checker) (finding : Diagnostic) : Prop :=
  ∀ use location, finding = Use.finding location use → env.library.Reports finding ∨
    ∃ need, .needed need ∈ c.history ∧ need.use = use ∧ need.location = location ∧
      need.steady = true ∧
      (need.found = none ∨ ∃ type, c.types.get? need.id = some type ∧ use.accepts type = false)

/-! What is known of findings about cycles. -/

/-- A key was asked for in full in the work on another one. -/
def Checker.Demands (c : Checker) (worker key : ResolutionKey) : Prop :=
  .asked (some worker) key .complete ∈ c.history

/-- A finding about a cycle comes from a decorator, or from too many levels, or is about a model
that extends itself, or about a key that was asked for in full in the work on it, by way of others
that were asked for in full. -/
inductive Checker.Explains (env : Environment) (c : Checker) (finding : Diagnostic) : Prop where
  | other (code : finding.code ≠ .cyclicReference)
  | decorator (reports : env.library.Reports finding)
  | deep (message : finding.message = CheckM.tooDeep)
  | extension {symbol location decl base}
      (declared : (env.symbols.symbol symbol).declarations.head? = some ⟨location, .model decl⟩)
      (heritage : decl.heritage = .extends base)
      (same : finding = .report .cyclicReference (cyclicMessage env symbol)
        (some ⟨location.file, base.span⟩))
  | cycle {key} (message : finding.message = cyclicMessage env key.symbol)
      (looped : Relation.TransGen c.Demands key key)

/-- No template parameter has a default. -/
def Environment.Undefaulted (env : Environment) : Prop :=
  ∀ param, CheckM.defaultOf (env.symbols.symbol param) = none

/-- A key was asked for in the work on another one. -/
def Checker.Pulls (c : Checker) (worker key : ResolutionKey) : Prop :=
  ∃ demand, .asked (some worker) key demand ∈ c.history

/-- More than some number of keys, each asked for in the work on the next and no two the same. -/
def Checker.Nested (env : Environment) (c : Checker) (levels : Nat) : Prop :=
  ∃ keys : List ResolutionKey, levels < keys.length ∧ keys.Nodup ∧
    (keys.IsChain fun younger older => c.Pulls older younger) ∧
    ∀ key ∈ keys, (env.symbols.symbol key.symbol).templateParams.length = key.args.length

/-- A finding about a cycle is explained. One about too many levels comes from a decorator or from
as many keys, each asked for in the work on the next, where no default of a template parameter takes
a level of its own. -/
structure Checker.Justifies (env : Environment) (c : Checker) (finding : Diagnostic) : Prop where
  explains : c.Explains env finding
  nested : finding.code = .cyclicReference → finding.message = CheckM.tooDeep →
    env.library.Reports finding ∨ (env.Undefaulted → c.Nested env CheckM.maxDepth)

theorem cyclicMessage_ne_tooDeep :
    cyclicMessage env symbol ≠ CheckM.tooDeep := by
  intro same
  have second := congrArg (fun text : String => text.toList[5]?) same
  simp [cyclicMessage, CheckM.tooDeep, toString] at second

namespace Checker.Justifies
variable {c : Checker}

theorem other (code : finding.code ≠ .cyclicReference) : c.Justifies env finding :=
  ⟨.other code, fun same => absurd same code⟩

theorem decorator (reports : env.library.Reports finding) : c.Justifies env finding :=
  ⟨.decorator reports, fun _ _ => .inl reports⟩

theorem deep (message : finding.message = CheckM.tooDeep)
    (nested : env.Undefaulted → c.Nested env CheckM.maxDepth) : c.Justifies env finding :=
  ⟨.deep message, fun _ _ => .inr nested⟩

theorem cycle (message : finding.message = cyclicMessage env key.symbol)
    (looped : Relation.TransGen c.Demands key key) : c.Justifies env finding :=
  ⟨.cycle message looped, fun _ deep => absurd (message.symm.trans deep) cyclicMessage_ne_tooDeep⟩

end Checker.Justifies

/-- An expression that is the name of a template parameter, with the place that stands for it. -/
inductive Environment.NamesParam (env : Environment) (c : Checker) (context : Context) :
    TypeExpr → TypeId → Prop where
  | reference {path args span param id} (named : env.symbols.named? context.scope path = some param)
      (kind : (env.symbols.symbol param).kind = .templateParameter)
      (stands : context.subst.get? param = some id ∨
        context.subst.get? param = none ∧ c.paramTypes.get? param = some id) :
      NamesParam env c context (.reference path args false span) id

section Growth
variable {env : Environment}

variable (grown : Grows before after)
include grown

theorem Checker.Warrants.grows (warrants : before.Warrants env finding) :
    after.Warrants env finding := by
  intro use location same
  rcases warrants use location same with reports | ⟨need, mem, used, here, steady, seen⟩
  · exact .inl reports
  · refine .inr ⟨need, grown.history.subset mem, used, here, steady, seen.imp_right ?_⟩
    exact fun ⟨type, found, unusable⟩ => ⟨type, grown.filled _ _ found, unusable⟩

theorem Checker.Demands.grows {worker : ResolutionKey} (demands : before.Demands worker key) :
    after.Demands worker key :=
  grown.history.subset demands

theorem Checker.Explains.grows (explains : before.Explains env finding) :
    after.Explains env finding := by
  cases explains with
  | other code => exact .other code
  | decorator reports => exact .decorator reports
  | deep message => exact .deep message
  | extension declared heritage same => exact .extension declared heritage same
  | cycle message looped =>
    exact .cycle message (looped.lift id fun _ _ => Checker.Demands.grows grown)

theorem Checker.Pulls.grows {worker : ResolutionKey} (pulls : before.Pulls worker key) :
    after.Pulls worker key := by
  obtain ⟨demand, asked⟩ := pulls
  exact ⟨demand, grown.history.subset asked⟩

theorem Checker.Justifies.grows (justifies : before.Justifies env finding) :
    after.Justifies env finding where
  explains := justifies.explains.grows grown
  nested := by
    intro code message
    rcases justifies.nested code message with reports | nested
    · exact .inl reports
    · refine .inr fun plain => ?_
      obtain ⟨keys, many, distinct, chain, counted⟩ := nested plain
      exact ⟨keys, many, distinct, chain.imp fun _ _ => Checker.Pulls.grows grown, counted⟩

theorem Environment.NamesParam.grows {id : TypeId} (names : env.NamesParam before context expr id) :
    env.NamesParam after context expr id := by
  obtain ⟨named, kind, stands⟩ := names
  exact .reference named kind (stands.imp_right fun own => ⟨own.1, grown.params _ _ own.2⟩)

end Growth

/-- The codes of findings that are not about types needed in full. -/
def Code.Unrelated (code : Code) : Prop :=
  code ≠ .invalidSpread ∧ code ≠ .invalidBaseType ∧ code ≠ .invalidOperationReference

instance (code : Code) : Decidable code.Unrelated :=
  inferInstanceAs (Decidable (_ ∧ _ ∧ _))

theorem Checker.Warrants.of_code {c : Checker} (other : finding.code.Unrelated) :
    c.Warrants env finding := by
  rintro use location rfl
  obtain ⟨spread, copy, signature⟩ := other
  cases use with
  | spread => exact absurd rfl spread
  | copy => exact absurd rfl copy
  | signature => exact absurd rfl signature

/-- The same for a finding of another text. -/
theorem Checker.Warrants.of_message {c : Checker}
    (other : ∀ use : Use, finding.message ≠ use.message) : c.Warrants env finding := by
  rintro use location rfl
  exact absurd rfl (other use)

/-! What is known of references to what is deprecated. -/

/-- A key that was asked for at some place in the work on another one may not have been at hand
there: it leads to that work, or was an error or put off at some time, or it was too deep there. -/
inductive Checker.Excuses (c : Checker) (worker : Option ResolutionKey) (key : ResolutionKey)
    (location : Option Location) : Prop where
  | underWork {asker} (own : worker = some asker) (leads : Relation.ReflTransGen c.Pulls key asker)
  | errored (changed : .changed key .errored ∈ c.history)
  | putOff {id} (changed : .changed key (.deferred id) ∈ c.history)
  | deep {finding} (told : finding ∈ c.diagnostics) (code : finding.code = .cyclicReference)
      (message : finding.message = CheckM.tooDeep) (place : finding.location = location)

/-- A type is there, and it is marked if it is concrete and deprecated. -/
def Checker.Marked (env : Environment) (c : Checker) (id : TypeId) : Prop :=
  ∃ type, c.types.get? id = some type ∧ (env.library = Builtin.library →
    id ∉ c.dependentTypes → type.Deprecated → c.annotations.Marks (.type id))

/-- A reference in the work on a key was warned of, unless there is an excuse or its target is not
deprecated. -/
inductive Checker.Heeds (env : Environment) (c : Checker) (worker : Option ResolutionKey)
    (reference : Reference) : Prop where
  | warned (message : String)
      (told : .report .deprecated message (some reference.location) ∈ c.diagnostics)
  | excused (excuses : c.Excuses worker ⟨reference.target, []⟩ (some reference.location))
  | current {id type} (placed : c.Placed ⟨reference.target, []⟩ id)
      (stored : c.types.get? id = some type)
      (current : env.library = Builtin.library → ¬ type.Deprecated)

theorem Checker.Excuses.grows (grown : Grows before after) {worker : Option ResolutionKey}
    (excuses : before.Excuses worker key location) : after.Excuses worker key location := by
  cases excuses with
  | underWork own leads => exact .underWork own (leads.lift id fun _ _ => Checker.Pulls.grows grown)
  | errored changed => exact .errored (grown.history.subset changed)
  | putOff changed => exact .putOff (grown.history.subset changed)
  | deep told code message place => exact .deep (grown.findings.subset told) code message place

theorem Checker.Heeds.grows (grown : Grows before after) {worker : Option ResolutionKey}
    (heeds : before.Heeds env worker reference) : after.Heeds env worker reference := by
  cases heeds with
  | warned message told => exact .warned message (grown.findings.subset told)
  | excused excuses => exact .excused (excuses.grows grown)
  | current placed stored current =>
    exact .current (grown.placed placed) (grown.filled _ _ stored) current

/-- As far as no frame is being given up, what the text refers to is warned of, and what it needs in
full is there. -/
def Checker.Meets (env : Environment) (c : Checker) (references : List Reference) : Prop :=
  c.abandoning = none → ∀ reference ∈ references,
    c.Heeds env c.worker reference ∧ (reference.use ≠ none → c.Met reference.target)

/-- A type may be stored for a declaration. -/
structure Completes (env : Environment) (c : Checker) (frame : Frame) (type : CheckedType) :
    Prop where
  sound : type.Sound env c
  fits : type.Fits (env.symbols.symbol frame.key.symbol).kind
  settled : ∀ model base, type = .model model → model.base = some base →
    c.Settles frame.id base
  reads : c.Faultless → Reads env c frame.key frame.id type
  links : c.Faultless → ReadsLinks env c frame.key frame.id type
  base : ReadsBase env c frame.key type
  meets : ∀ reference ∈ env.refers frame.key.symbol,
    c.Heeds env c.worker reference ∧ (reference.use ≠ none → c.Met reference.target)
  carries : env.Deprecates frame.key.symbol → type ≠ .error → type.Deprecated
  parameters : ∀ operation, type = .operation operation →
    .nameless (some frame.id) operation.parameters ∈ c.history
  made : ∀ id, type.Leads env id → c.Made env id
  named : ∀ properties, type ≠ .model { properties }
  distinct : ∀ model, type = .model model → (model.properties.map Property.name).Nodup
  composes : c.Composes env frame.key type
  parts : ∀ id ∈ type.textParts, id ∈ frame.key.args

/-- A key that can be resolved: a declaration with as many arguments as it has
parameters, none of them an error. -/
structure Proper (env : Environment) (c : Checker) (key : ResolutionKey) : Prop where
  declares : env.Declares key.symbol
  counted : (env.symbols.symbol key.symbol).templateParams.length = key.args.length
  held : ∀ arg ∈ key.args, c.Holds arg
  right : TypeStore.error ∉ key.args

theorem Checker.Cyclic.grows (grown : Grows before after) (cyclic : before.Cyclic env symbol) :
    after.Cyclic env symbol := by
  obtain ⟨finding, mem, told⟩ := cyclic
  exact ⟨finding, grown.findings.subset mem, told⟩

theorem Checker.Blames.grows (grown : Grows before after)
    (blames : before.Blames env symbol location) : after.Blames env symbol location := by
  rcases blames with cyclic | ⟨finding, mem, told⟩
  · exact .inl (cyclic.grows grown)
  · exact .inr ⟨finding, grown.findings.subset mem, told⟩

theorem Proper.grows (grown : Grows before after) (proper : Proper env before key) :
    Proper env after key :=
  { proper with held := fun arg mem => grown.holds (proper.held arg mem) }

namespace Checker

/-- Every declaration under work is still without its type. -/
def Open (c : Checker) : Prop := ∀ frame ∈ c.stack, c.Empty frame.id

/-- Puts a type into an empty place. -/
def fill (c : Checker) (id : TypeId) (type : CheckedType) : Checker :=
  { c with types := c.types.fill id type, history := .filled id type :: c.history }

end Checker

/-- If an expression is a model, it was written down which properties the model at a place has. -/
def Checker.Expressed (c : Checker) (expr : TypeExpr) (id : TypeId) : Prop :=
  ∀ members span, expr = .model members span →
    ∃ context properties, .expressed context members properties id ∈ c.history

theorem Checker.Expressed.of_ne {c : Checker} {id : TypeId}
    (other : ∀ members span, expr ≠ .model members span) : c.Expressed expr id :=
  fun members span same => absurd same (other members span)

/-- What may be written down in a state, beside a change of it. Only what is written in a
declaration is asked for in the work on it, and a decorator is applied when it is due. -/
inductive Checker.Notes (env : Environment) (c : Checker) : Event → Prop where
  | asked {key : ResolutionKey} {demand : Demand} (lets : env.Lets c.stack key.symbol demand) :
      Notes env c (.asked c.worker key demand)
  | evaluated {expr : TypeExpr} {id : TypeId} (expressed : c.Expressed expr id) :
      Notes env c (.evaluated c.worker expr id)
  | invoked {frame rest type application target left}
      (owes : c.Owes frame rest type ((application, target) :: left)) :
      Notes env c (.invoked application target)
  | invokedNameless {id application target left}
      (owes : c.OwesNameless id ((application, target) :: left)) :
      Notes env c (.invoked application target)
  | dropped (property : Property) (location : Location) :
      Notes env c (.dropped property location c.abandoning.isNone)
  | gathered {context members before result}
      (gathers : c.Gathers env ⟨c.worker, context, members, before, result, c.abandoning.isNone⟩) :
      Notes env c (.gathered ⟨c.worker, context, members, before, result, c.abandoning.isNone⟩)
  | expressed {context members properties id worker steady}
      (gathered : .gathered ⟨worker, context, members, [], properties, steady⟩ ∈ c.history)
      (expresses : c.Expresses context.dependent properties id) :
      Notes env c (.expressed context members properties id)

/-- One change of the state of the checker. -/
inductive Step (env : Environment) : Checker → Checker → Prop where
  | report {c} (finding : Diagnostic)
      (warranted : c.abandoning = none → c.Warrants env finding)
      (explained : c.abandoning = none → c.Justifies env finding) : Step env c (c.report finding)
  | note {c} {event : Event} (notes : c.Notes env event) : Step env c (c.log event)
  /-- Decorators record something. Those of the library leave every mark. -/
  | annotate {c} (annotations : Annotations) (idle : c.abandoning = none)
      (kept : env.library = Builtin.library → c.KeepsMarks { c with annotations }) :
      Step env c { c with annotations }
  | descend {c} : Step env c { c with depth := c.depth + 1 }
  | ascend {c} : Step env c { c with depth := c.depth - 1 }
  | assign {c} (symbol : SymbolId) {id : TypeId} (held : c.Holds id)
      (right : id = TypeStore.error ∨ ∃ args, c.Placed ⟨symbol, args⟩ id ∧
        c.isDeclarationView env.symbols ⟨symbol, args⟩ = true)
      (placed : c.Faultless → ∃ args, c.Placed ⟨symbol, args⟩ id) :
      Step env c { c with symbolTypes := c.symbolTypes.insert symbol id }
  /-- A model without a name is stored. Only the work on an operation stores its parameters. -/
  | alloc {c} {properties : List Property} (dependent : Bool) (operation : Option TypeId)
      (sound : ∀ property ∈ properties, property.Sound env c)
      (working : ∀ id ∈ operation, ∃ frame rest, c.stack = frame :: rest ∧ frame.id = id)
      (distinct : (properties.map Property.name).Nodup) :
      Step env c (c.alloc properties dependent operation).2
  | intern {c} {properties : List Property}
      (sound : ∀ property ∈ properties, property.Sound env c)
      (plain : ∀ property ∈ properties, property.decorators = [])
      (new : c.modelExpressions.get? (shapeOf properties) = none)
      (distinct : (properties.map Property.name).Nodup) :
      Step env c (c.internModel properties).2
  | union {c} {options : List TypeId} (held : ∀ id ∈ options, c.Holds id)
      (new : c.types.unions.get? options = none) (once : options.Nodup) (some : options ≠ []) :
      Step env c (c.unionOf options).2
  | placeParam {c} {param : SymbolId} (new : c.paramTypes.get? param = none) :
      Step env c (c.placeParam param).2
  | fillParam {c} {param : SymbolId} {id : TypeId} {name : String} {default : Option TypeId}
      (own : c.paramTypes.get? param = some id) (empty : c.Empty id)
      (held : ∀ other ∈ default, c.Holds other) :
      Step env c (c.fill id (.templateParameter ⟨name, param, default⟩))
  /-- Work on a key starts, for a place of its own. -/
  | begin {c} {key : ResolutionKey} (demand : Demand) (idle : c.abandoning = none)
      (unfilled : c.Open) (new : c.resolutions.get? key = none) (proper : Proper env c key)
      (asked : .asked c.worker key demand ∈ c.history) :
      Step env c ((c.place env.symbols key).2.push key (c.place env.symbols key).1 demand)
  /-- Work on a key that was put off starts again. -/
  | again {c} {key : ResolutionKey} {id : TypeId} (demand : Demand) (idle : c.abandoning = none)
      (unfilled : c.Open) (waiting : c.resolutions.get? key = some (.deferred id))
      (asked : .asked c.worker key demand ∈ c.history) : Step env c (c.push key id demand)
  /-- The same, when the key is taken from the keys put off. -/
  | resume {c} {key : ResolutionKey} {id : TypeId} {rest : List ResolutionKey}
      (idle : c.abandoning = none) (settled : c.stack = []) (queued : c.deferred = key :: rest)
      (waiting : c.resolutions.get? key = some (.deferred id)) :
      Step env c ({ c with deferred := rest, depth := c.depth + 1 }.push key id .reference)
  /-- A key that is no longer put off is passed over. -/
  | pass {c} {key : ResolutionKey} {rest : List ResolutionKey} (queued : c.deferred = key :: rest)
      (other : ∀ id, c.resolutions.get? key ≠ some (.deferred id)) :
      Step env c { c with deferred := rest }
  /-- A key is put off while a frame is given up. -/
  | postpone {c} {key : ResolutionKey} (unwinding : c.abandoning ≠ none)
      (new : c.resolutions.get? key = none) (proper : Proper env c key)
      (asked : ∃ demand, .asked c.worker key demand ∈ c.history) :
      Step env c ((c.place env.symbols key).2.defer key (c.place env.symbols key).1)
  | postponeAgain {c} {key : ResolutionKey} {id : TypeId} (unwinding : c.abandoning ≠ none)
      (waiting : c.resolutions.get? key = some (.deferred id))
      (asked : ∃ demand, .asked c.worker key demand ∈ c.history) : Step env c (c.defer key id)
  | requeue {c} {key : ResolutionKey} {id : TypeId}
      (waiting : c.resolutions.get? key = some (.deferred id)) :
      Step env c { c with deferred := key :: c.deferred }
  /-- The youngest frame that a reference started is given up. -/
  | abandon {c} {above rest : List Frame} {frame : Frame} {key : ResolutionKey}
      (idle : c.abandoning = none) (stacked : c.stack = above ++ frame :: rest)
      (complete : ∀ other ∈ above, other.demand = .complete) (reference : frame.demand = .reference)
      (demanded : key ∈ rest.map Frame.key) (asked : .asked c.worker key .complete ∈ c.history) :
      Step env c { c with
        abandoning := some rest.length
        history := .abandoned ((above ++ [frame]).map Frame.key) :: c.history }
  /-- A key that is demanded in full while it is worked on is an error. -/
  | condemn {c} {above rest : List Frame} {frame : Frame}
      (idle : c.abandoning = none) (stacked : c.stack = above ++ frame :: rest)
      (complete : ∀ other ∈ above, other.demand = .complete)
      (reported : c.Cyclic env frame.key.symbol) (faulty : ¬ c.Faultless)
      (looped : Relation.TransGen c.Demands frame.key frame.key)
      (resolving : c.resolutions.get? frame.key = some (.resolving frame.id)) :
      Step env c (c.setState frame.key .errored)
  /-- The type of the declaration under work is stored. -/
  | fill {c} {frame : Frame} {rest : List Frame} {type : CheckedType}
      (idle : c.abandoning = none) (stacked : c.stack = frame :: rest) (empty : c.Empty frame.id)
      (completes : Completes env c frame type) : Step env c (c.fill frame.id type)
  /-- A frame that is given up ends. -/
  | giveUp {c} {frame : Frame} {rest : List Frame} {below : Nat}
      (unwinding : c.abandoning = some below) (stacked : c.stack = frame :: rest)
      (inside : below ≤ rest.length) (empty : c.Empty frame.id) :
      Step env c ({ c with
        stack := rest
        abandoning := if c.abandoning = some rest.length then none else c.abandoning }.defer
        frame.key frame.id)
  /-- A frame ends with its type stored. -/
  | complete {c} {frame : Frame} {rest : List Frame} {type : CheckedType}
      (idle : c.abandoning = none) (stacked : c.stack = frame :: rest)
      (resolving : c.resolutions.get? frame.key = some (.resolving frame.id))
      (stored : c.types.get? frame.id = some type) (decorated : c.Decorated frame.id)
      (marked : c.Marked env frame.id) :
      Step env c ({ c with stack := rest }.setState frame.key (.resolved frame.id))
  | completeErrored {c} {frame : Frame} {rest : List Frame} {type : CheckedType}
      (idle : c.abandoning = none) (stacked : c.stack = frame :: rest)
      (errored : c.resolutions.get? frame.key = some .errored)
      (stored : c.types.get? frame.id = some type) (decorated : c.Decorated frame.id) :
      Step env c { c with stack := rest }
  /-- It is settled which model a model under work extends. -/
  | settle {c} {frame : Frame} {rest : List Frame} {base : TypeId}
      (stacked : c.stack = frame :: rest) (empty : c.Empty frame.id) (held : c.Holds base)
      (apart : CheckM.baseChainReaches c.types frame.id (c.types.size + 1) base = false) :
      Step env c (c.log (.extended frame.id base))
  | answer {c} {key : ResolutionKey} (demand : Demand) {id : TypeId}
      (right : id = TypeStore.error ∨ c.Placed key id)
      (errored : c.resolutions.get? key = some .errored → id = TypeStore.error) :
      Step env c (c.log (.answered key demand id))
  /-- A type is needed in full. Only what stands for a template parameter may not be there yet. -/
  | need {c} (use : Use) (context : Context) (target : TypeExpr) (location : Location) {id : TypeId}
      (there : c.Empty id → env.NamesParam c context target id) :
      Step env c (c.need use context target location id)

/-- Any number of steps. -/
abbrev Steps (env : Environment) : Checker → Checker → Prop := Relation.ReflTransGen (Step env)

namespace Grows
variable {c : Checker}

/-- A place handed out or filled anew is none of those that were there. -/
private theorem fresh {id : TypeId} (held : c.Holds id) : id ≠ ⟨c.types.size⟩ := by
  rintro rfl
  exact Nat.lt_irrefl _ held

/-- A state that differs in nothing that grows, but for what was found and written down. -/
private theorem of_tables (types : after.types = c.types)
    (models : after.modelExpressions = c.modelExpressions)
    (params : after.paramTypes = c.paramTypes) (dependent : after.dependentTypes = c.dependentTypes)
    (known : ∀ key, c.resolutions.get? key ≠ none → after.resolutions.get? key ≠ none)
    (findings : c.diagnostics <+: after.diagnostics) (history : c.history <:+ after.history) :
    Grows c after where
  size := by rw [types]
  filled := by rw [types]; exact fun _ _ held => held
  unions := by rw [types]; exact fun _ _ held => held
  models := by rw [models]; exact fun _ _ held => held
  params := by rw [params]; exact fun _ _ held => held
  dependent := by rw [dependent]; exact fun _ _ => Iff.rfl
  known := known
  findings := findings
  history := history

theorem report (finding : Diagnostic) : Grows c (c.report finding) := by
  refine of_tables rfl rfl rfl rfl (fun _ held => held) ?_ List.suffix_rfl
  simp only [Checker.report]
  split
  · exact List.prefix_rfl
  · exact List.prefix_append _ _

theorem setState (key : ResolutionKey) (state : ResolutionState) : Grows c (c.setState key state) := by
  refine of_tables rfl rfl rfl rfl ?_ List.prefix_rfl (List.suffix_cons _ _)
  intro other held
  simp only [Checker.setState, Checker.log, Dictionary.get?_insert]
  split
  · simp
  · exact held

private theorem filled_alloc (type : CheckedType) (id : TypeId) (found : CheckedType)
    (held : c.types.get? id = some found) : (c.types.alloc type).2.get? id = some found := by
  have inside := TypeStore.lt_size_of_get? held
  rw [TypeStore.get?_alloc, if_neg (Nat.ne_of_lt inside), held]

private theorem filled_reserve (id : TypeId) (found : CheckedType)
    (held : c.types.get? id = some found) : c.types.reserve.2.get? id = some found := by
  rw [TypeStore.get?_reserve, held]

private theorem dependent_mark (mark : Prop) [Decidable mark] (id : TypeId) (held : c.Holds id) :
    id ∈ (if mark then ⟨c.types.size⟩ :: c.dependentTypes else c.dependentTypes) ↔
      id ∈ c.dependentTypes := by
  split
  · simp [fresh held]
  · exact Iff.rfl

theorem alloc (properties : List Property) (dependent : Bool) (operation : Option TypeId) :
    Grows c (c.alloc properties dependent operation).2 where
  size := by simp [Checker.alloc]
  filled := filled_alloc _
  unions := fun _ _ held => held
  models := fun _ _ held => held
  params := fun _ _ held => held
  dependent := dependent_mark (dependent = true)
  known := fun _ held => held
  findings := List.prefix_rfl
  history := List.suffix_cons _ _

theorem internModel (new : c.modelExpressions.get? (shapeOf properties) = none) :
    Grows c (c.internModel properties).2 where
  size := by simp [Checker.internModel]
  filled := filled_alloc _
  unions := fun _ _ held => held
  models := by
    intro shape id held
    have different : shapeOf properties ≠ shape := by
      rintro rfl
      cases new.symm.trans held
    simp only [Checker.internModel, Dictionary.get?_insert_of_ne _ different, held]
  params := fun _ _ held => held
  dependent := fun _ _ => Iff.rfl
  known := fun _ held => held
  findings := List.prefix_rfl
  history := List.suffix_rfl

theorem unionOf (new : c.types.unions.get? options = none) : Grows c (c.unionOf options).2 where
  size := by
    simp only [Checker.unionOf, TypeStore.internUnion, new]
    exact Nat.le_of_lt (by simp [TypeStore.size, TypeStore.slots_alloc])
  filled := by
    intro id found held
    simp only [Checker.unionOf, TypeStore.internUnion, new]
    exact filled_alloc (.union options) id found held
  unions := by
    intro others id held
    have different : options ≠ others := by
      rintro rfl
      cases new.symm.trans held
    simp only [Checker.unionOf, TypeStore.internUnion, new,
      Dictionary.get?_insert_of_ne _ different]
    exact held
  models := fun _ _ held => held
  params := fun _ _ held => held
  dependent := by
    intro id held
    simp only [Checker.unionOf, TypeStore.internUnion, new]
    exact dependent_mark _ id held
  known := fun _ held => held
  findings := List.prefix_rfl
  history := List.suffix_rfl

theorem place (symbols : SymbolTable) (key : ResolutionKey) : Grows c (c.place symbols key).2 where
  size := by simp [Checker.place]
  filled := filled_reserve
  unions := fun _ _ held => held
  models := fun _ _ held => held
  params := fun _ _ held => held
  dependent := dependent_mark _
  known := fun _ held => held
  findings := List.prefix_rfl
  history := List.suffix_cons _ _

theorem placeParam (new : c.paramTypes.get? param = none) : Grows c (c.placeParam param).2 where
  size := by simp [Checker.placeParam]
  filled := filled_reserve
  unions := fun _ _ held => held
  models := fun _ _ held => held
  params := by
    intro other id held
    have different : param ≠ other := by
      rintro rfl
      cases new.symm.trans held
    simp only [Checker.placeParam, Dictionary.get?_insert_of_ne _ different, held]
  dependent := by
    intro id held
    simp [Checker.placeParam, TypeStore.reserve, fresh held]
  known := fun _ held => held
  findings := List.prefix_rfl
  history := List.suffix_cons _ _

theorem fill {id : TypeId} (empty : c.Empty id) (type : CheckedType) : Grows c (c.fill id type) where
  size := by simp [Checker.fill]
  filled := fun _ _ held => TypeStore.get?_fill_of_some empty held type
  unions := fun _ _ held => held
  models := fun _ _ held => held
  params := fun _ _ held => held
  dependent := fun _ _ => Iff.rfl
  known := fun _ held => held
  findings := List.prefix_rfl
  history := List.suffix_cons _ _

/-- What is written down, where work stands and what waits can change freely. -/
private theorem of_control (types : after.types = c.types)
    (models : after.modelExpressions = c.modelExpressions)
    (params : after.paramTypes = c.paramTypes) (dependent : after.dependentTypes = c.dependentTypes)
    (resolutions : after.resolutions = c.resolutions) (findings : after.diagnostics = c.diagnostics)
    (history : c.history <:+ after.history) : Grows c after :=
  of_tables types models params dependent (by rw [resolutions]; exact fun _ held => held)
    (by rw [findings]) history

end Grows

/-- No step takes anything back. -/
theorem Step.grows (step : Step env before after) : Grows before after := by
  cases step with
  | report finding => exact .report finding
  | annotate | descend | ascend | assign | pass | requeue | completeErrored =>
    exact .of_control rfl rfl rfl rfl rfl rfl List.suffix_rfl
  | alloc dependent operation => exact .alloc _ dependent operation
  | intern _ _ new => exact .internModel new
  | union _ new => exact .unionOf new
  | placeParam new => exact .placeParam new
  | fillParam _ empty => exact .fill empty _
  | begin demand | postpone =>
    exact (Grows.place env.symbols _).trans ((Grows.setState _ _).trans
      (.of_control rfl rfl rfl rfl rfl rfl List.suffix_rfl))
  | again | postponeAgain =>
    exact (Grows.setState _ _).trans (.of_control rfl rfl rfl rfl rfl rfl List.suffix_rfl)
  | resume | giveUp =>
    exact Grows.trans (.of_control rfl rfl rfl rfl rfl rfl List.suffix_rfl)
      ((Grows.setState _ _).trans (.of_control rfl rfl rfl rfl rfl rfl List.suffix_rfl))
  | abandon | note | settle | answer | need =>
    exact .of_control rfl rfl rfl rfl rfl rfl (List.suffix_cons _ _)
  | condemn => exact .setState _ _
  | fill _ _ empty => exact .fill empty _
  | complete =>
    refine Grows.trans ?_ (.setState _ _)
    exact .of_control rfl rfl rfl rfl rfl rfl List.suffix_rfl

theorem Steps.grows (steps : Steps env before after) : Grows before after := by
  induction steps with
  | refl => exact .refl _
  | tail _ step ih => exact ih.trans step.grows

end Idl
