import Idl.Proofs.Denotation
import Idl.Proofs.KeptWork

/-! What decorators, members and declarations come to in a run, whatever is wrong
with them. A type that is written counts with the place that it was evaluated to in
the work at hand, and a spread with what its target held then. What happened before
the work was last put off does not count. Each member brings properties, and of
those that have one name the first is kept. -/
namespace Idl

/-! ### The first of each name -/

/-- The properties of a list whose name occurs neither before the list nor earlier in it. -/
def firsts (before : List Property) : List Property → List Property
  | [] => []
  | property :: rest =>
    (if property.name ∈ before.map Property.name then [] else [property]) ++
      firsts (before ++ [property]) rest

theorem firsts_append (before first second : List Property) :
    firsts before (first ++ second) = firsts before first ++ firsts (before ++ first) second := by
  induction first generalizing before with
  | nil => simp [firsts]
  | cons property rest ih => simp [firsts, ih]

/-- Of what stands before a list only the names count. -/
theorem firsts_congr (same : ∀ name, name ∈ one.map Property.name ↔ name ∈ two.map Property.name)
    (list : List Property) : firsts one list = firsts two list := by
  induction list generalizing one two with
  | nil => rfl
  | cons property rest ih =>
    have longer (name : String) : name ∈ (one ++ [property]).map Property.name ↔
        name ∈ (two ++ [property]).map Property.name := by
      rw [List.map_append, List.map_append, List.mem_append, List.mem_append, same]
    rw [firsts, firsts, ih longer]
    simp only [same]

/-- Leaving properties out takes no name away. -/
theorem mem_names_firsts (before list : List Property) (name : String) :
    name ∈ (before ++ firsts before list).map Property.name ↔
      name ∈ (before ++ list).map Property.name := by
  induction list generalizing before with
  | nil => simp [firsts]
  | cons property rest ih =>
    have onward := ih (before ++ [property])
    simp only [List.map_append, List.mem_append, List.map_cons, List.map_nil,
      List.mem_singleton] at onward
    rw [firsts]
    split
    · rename_i taken
      have known : name = property.name → name ∈ before.map Property.name := (· ▸ taken)
      simp only [List.nil_append, List.map_append, List.mem_append, List.map_cons, List.mem_cons]
      tauto
    · simp only [List.map_append, List.mem_append, List.map_cons, List.map_nil, List.mem_cons,
        List.not_mem_nil, or_false]
      tauto

theorem nodup_firsts (distinct : (before.map Property.name).Nodup) (list : List Property) :
    ((before ++ firsts before list).map Property.name).Nodup := by
  induction list generalizing before with
  | nil => simpa [firsts] using distinct
  | cons property rest ih =>
    rw [firsts]
    split
    · rename_i taken
      have same (name : String) : name ∈ (before ++ [property]).map Property.name ↔
          name ∈ before.map Property.name := by
        have known : name = property.name → name ∈ before.map Property.name := (· ▸ taken)
        simpa using known
      rw [List.nil_append, firsts_congr same]
      exact ih distinct
    · rename_i free
      have longer : ((before ++ [property]).map Property.name).Nodup := by
        rw [List.map_append, List.map_singleton, List.nodup_append]
        refine ⟨distinct, by simp, fun name member other last same => free ?_⟩
        rw [← List.mem_singleton.mp last, ← same]
        exact member
      simpa using ih longer

/-! ### Decorators -/

namespace Checker

/-- An expression was evaluated to a place in the work on a key. -/
def Evaluated (c : Checker) (worker : Option ResolutionKey) (expr : TypeExpr) (id : TypeId) : Prop :=
  c.Keeps worker (.evaluated worker expr id)

/-- What the arguments of a decorator were taken for. There is nothing if a type among them is an
error, and what stands behind that is not looked at. -/
inductive Takes (c : Checker) (worker : Option ResolutionKey) :
    List DecoratorArg → Option (List Value) → Prop where
  | nil : Takes c worker [] (some [])
  | literal {value : Literal} {span rest values} (others : Takes c worker rest values) :
      Takes c worker (.literal value span :: rest) (values.map (value.value :: ·))
  | type {expr rest id values} (evaluated : c.Evaluated worker expr id)
      (right : id ≠ TypeStore.error) (others : Takes c worker rest values) :
      Takes c worker (.type expr :: rest) (values.map (.type id :: ·))
  | wrong {expr rest id} (evaluated : c.Evaluated worker expr id)
      (error : c.types.isError id = true) : Takes c worker (.type expr :: rest) none

/-- The applications that decorators came to, in the order in which they are written. Those whose
name is unknown or whose arguments are wrong are left out. -/
inductive Uses (env : Environment) (c : Checker) (worker : Option ResolutionKey)
    (context : Context) : List DecoratorExpr → List Application → Prop where
  | nil : Uses env c worker context [] []
  | unknown {path args span rest others}
      (unnamed : env.symbols.decorator? context.scope path = none)
      (remaining : Uses env c worker context rest others) :
      Uses env c worker context (.use path args span :: rest) others
  | wrong {path args span rest others} (arguments : c.Takes worker args none)
      (remaining : Uses env c worker context rest others) :
      Uses env c worker context (.use path args span :: rest) others
  | applied {path args span rest others symbol decorator values}
      (named : env.symbols.decorator? context.scope path = some symbol)
      (defined : (env.symbols.symbol symbol).declarations.head?.map Declaration.definition =
        some (.decorator decorator))
      (arguments : c.Takes worker args (some values))
      (remaining : Uses env c worker context rest others) :
      Uses env c worker context (.use path args span :: rest)
        (⟨decorator, (env.symbols.symbol symbol).name, values,
          some (context.location span)⟩ :: others)

/-! ### Members -/

end Checker

/-- The properties of what a place held, if that was a model. -/
def propertiesIn (found : Option CheckedType) : List Property :=
  ((found.bind CheckedType.model?).map ModelType.properties).getD []

/-- The finding about a property whose name is taken. -/
def duplicateProperty (name : String) (location : Location) : Diagnostic :=
  .report .duplicateProperty s!"Model already has a property named '{name}'." (some location)

namespace Checker

/-- The properties that a member stands for, each with the place where it would be reported: its
own name, or the spread that brings it. -/
inductive Brings (env : Environment) (c : Checker) (worker : Option ResolutionKey)
    (context : Context) : Member → List (Property × Location) → Prop where
  | property {decorators name optional type span id applications}
      (evaluated : c.Evaluated worker type id)
      (uses : c.Uses env worker context decorators applications) :
      Brings env c worker context (.property decorators name optional type span)
        [(⟨name.name, id, optional, applications, some (context.location name.span)⟩,
          context.location name.span)]
  | spread {target span id found steady} (evaluated : c.Evaluated worker target id)
      (needed : c.Keeps worker
        (.needed ⟨.spread, context, target, context.location span, id, found, steady⟩)) :
      Brings env c worker context (.spread target span)
        ((propertiesIn found).map (·, context.location span))

inductive Expands (env : Environment) (c : Checker) (worker : Option ResolutionKey)
    (context : Context) : List Member → List (Property × Location) → Prop where
  | nil : Expands env c worker context [] []
  | cons {member rest early late} (first : c.Brings env worker context member early)
      (others : Expands env c worker context rest late) :
      Expands env c worker context (member :: rest) (early ++ late)

/-- It was reported that a property was left out, unless that was while a frame was given up. -/
def Tells (c : Checker) (worker : Option ResolutionKey) (steady : Bool)
    (entry : Property × Location) : Prop :=
  duplicateProperty entry.1.name entry.2 ∈ c.diagnostics ∨
    steady = false ∧ c.Keeps worker (.dropped entry.1 entry.2 false)

/-- Of the properties that are brought after others, the first of each name are added, and the rest
is told. -/
structure Admits (c : Checker) (worker : Option ResolutionKey) (steady : Bool)
    (before : List Property) (brought : List (Property × Location)) (result : List Property) :
    Prop where
  kept : result = before ++ firsts before (brought.map Prod.fst)
  told : ∀ early entry late, brought = early ++ entry :: late →
    entry.1.name ∈ (before ++ early.map Prod.fst).map Property.name → c.Tells worker steady entry

/-- What was written down of a list of members is what the members stand for. -/
def Gathers (env : Environment) (c : Checker) (gathering : Gathering) : Prop :=
  ∃ brought, c.Expands env gathering.worker gathering.context gathering.members brought ∧
    c.Admits gathering.worker gathering.steady gathering.before brought gathering.result

/-! ### Declarations -/

/-- The properties that a model starts with: those of the model that it copies, if it does. -/
def Starts (c : Checker) : Option TypeId → List Property → Prop
  | none, before => before = []
  | some source, before =>
    ∃ found, c.types.get? source = some (.model found) ∧ before = found.properties

/-- An operation takes over the signature of another one that has its own: the parameters are
copied, and its own decorators stand behind those of the other. -/
inductive Reuses (env : Environment) (c : Checker) (key : ResolutionKey)
    (operation : OperationType) (source : TypeId) : Prop where
  | intro {location decl target context found properties own}
      (declared : (env.symbols.symbol key.symbol).declarations.head? =
        some ⟨location, .operation decl⟩)
      (signature : decl.signature = .reuse target)
      (evaluated : c.Evaluated (some key) target source)
      (stored : c.types.get? source = some (.operation found)) (original : found.source = none)
      (returns : operation.returns = found.returns)
      (parameters : c.types.get? found.parameters = some (.model { properties }))
      (copied : c.types.get? operation.parameters = some (.model { properties }))
      (scope : context.scope = (env.symbols.symbol key.symbol).bodyScope)
      (file : context.file = location.file)
      (uses : c.Uses env (some key) context decl.decorators own)
      (decorators : operation.decorators = found.decorators ++ own)

/-- How the properties of a declared type came about. -/
inductive Composes (env : Environment) (c : Checker) (key : ResolutionKey) : CheckedType → Prop where
  | error : Composes env c key .error
  | interface (interface : InterfaceType) : Composes env c key (.interface interface)
  | model {location decl model gathering}
      (declared : (env.symbols.symbol key.symbol).declarations.head? = some ⟨location, .model decl⟩)
      (gathered : c.Keeps (some key) (.gathered gathering)) (worker : gathering.worker = some key)
      (members : gathering.members = decl.members) (starts : c.Starts model.source gathering.before)
      (result : model.properties = gathering.result) : Composes env c key (.model model)
  | written {location decl parameters span returns operation gathering}
      (declared : (env.symbols.symbol key.symbol).declarations.head? =
        some ⟨location, .operation decl⟩)
      (signature : decl.signature = .written parameters span returns)
      (sourceless : operation.source = none)
      (gathered : c.Keeps (some key) (.gathered gathering)) (worker : gathering.worker = some key)
      (members : gathering.members = parameters) (first : gathering.before = [])
      (stored : c.types.get? operation.parameters =
        some (.model { properties := gathering.result })) :
      Composes env c key (.operation operation)
  | reused {operation source} (given : operation.source = some source)
      (reuses : c.Reuses env key operation source) : Composes env c key (.operation operation)

section Growth
variable {worker : Option ResolutionKey}

section
variable (retains : Retains worker before after)
include retains

theorem Evaluated.later {id : TypeId} (evaluated : before.Evaluated worker expr id) :
    after.Evaluated worker expr id :=
  retains.keeps _ evaluated

theorem Takes.later (takes : before.Takes worker args values) : after.Takes worker args values := by
  induction takes with
  | nil => exact .nil
  | literal _ ih => exact .literal ih
  | type evaluated right _ ih => exact .type (evaluated.later retains) right ih
  | wrong evaluated error => exact .wrong (evaluated.later retains) (retains.grows.isError error)

theorem Uses.later (uses : before.Uses env worker context decorators applications) :
    after.Uses env worker context decorators applications := by
  induction uses with
  | nil => exact .nil
  | unknown unnamed _ ih => exact .unknown unnamed ih
  | wrong arguments _ ih => exact .wrong (arguments.later retains) ih
  | applied named defined arguments _ ih => exact .applied named defined (arguments.later retains) ih

theorem Brings.later (brings : before.Brings env worker context member brought) :
    after.Brings env worker context member brought := by
  cases brings with
  | property evaluated uses => exact .property (evaluated.later retains) (uses.later retains)
  | spread evaluated needed => exact .spread (evaluated.later retains) (retains.keeps _ needed)

theorem Expands.later (expands : before.Expands env worker context members brought) :
    after.Expands env worker context members brought := by
  induction expands with
  | nil => exact .nil
  | cons first _ ih => exact .cons (first.later retains) ih

theorem Admits.later {later : Bool} (stays : steady = false → later = false)
    (admits : before.Admits worker steady properties brought result) :
    after.Admits worker later properties brought result where
  kept := admits.kept
  told := fun early entry rest split taken => (admits.told early entry rest split taken).imp
    (retains.grows.findings.subset ·) fun given => ⟨stays given.1, retains.keeps _ given.2⟩

end

theorem Gathers.later (retains : Retains gathering.worker before after)
    (gathers : before.Gathers env gathering) : after.Gathers env gathering := by
  obtain ⟨brought, expands, admits⟩ := gathers
  exact ⟨brought, expands.later retains, admits.later retains id⟩

theorem Starts.grows (grown : Grows before after) (starts : before.Starts source properties) :
    after.Starts source properties := by
  cases source with
  | none => exact starts
  | some source =>
    obtain ⟨found, stored, same⟩ := starts
    exact ⟨found, grown.filled _ _ stored, same⟩

theorem Reuses.later (retains : Retains (some key) before after)
    (reuses : before.Reuses env key operation source) : after.Reuses env key operation source := by
  have kept := retains.grows.filled
  obtain ⟨declared, signature, evaluated, stored, original, returns, parameters, copied, scope,
    file, uses, decorators⟩ := reuses
  exact ⟨declared, signature, evaluated.later retains, kept _ _ stored, original, returns,
    kept _ _ parameters, kept _ _ copied, scope, file, uses.later retains, decorators⟩

theorem Composes.later (retains : Retains (some key) before after)
    (composes : before.Composes env key type) : after.Composes env key type := by
  cases composes with
  | error => exact .error
  | interface interface => exact .interface interface
  | model declared gathered worker members starts result =>
    exact .model declared (retains.keeps _ gathered) worker members (starts.grows retains.grows)
      result
  | written declared signature sourceless gathered worker members first stored =>
    exact .written declared signature sourceless (retains.keeps _ gathered) worker members first
      (retains.grows.filled _ _ stored)
  | reused given reuses => exact .reused given (reuses.later retains)

end Growth

variable {c : Checker} {worker : Option ResolutionKey}

theorem Uses.append (one : c.Uses env worker context first early)
    (two : c.Uses env worker context second late) :
    c.Uses env worker context (first ++ second) (early ++ late) := by
  induction one with
  | nil => exact two
  | unknown unnamed _ ih => exact .unknown unnamed ih
  | wrong arguments _ ih => exact .wrong arguments ih
  | applied named defined arguments _ ih => exact .applied named defined arguments ih

namespace Admits

theorem nil (properties : List Property) : c.Admits worker steady properties [] properties where
  kept := (List.append_nil _).symm
  told := by simp

theorem taken (taken : property.name ∈ properties.map Property.name)
    (tells : c.Tells worker steady (property, location)) :
    c.Admits worker steady properties [(property, location)] properties where
  kept := by simp [firsts, taken]
  told := by
    intro early entry late split _
    obtain ⟨rfl, same⟩ | ⟨_, _, same⟩ := List.append_eq_cons_iff.mp split.symm
    · rw [(List.cons.inj same).1]
      exact tells
    · simp at same

theorem added (free : property.name ∉ properties.map Property.name) :
    c.Admits worker steady properties [(property, location)] (properties ++ [property]) where
  kept := by simp [firsts, free]
  told := by
    intro early entry late split again
    obtain ⟨rfl, same⟩ | ⟨_, _, same⟩ := List.append_eq_cons_iff.mp split.symm
    · rw [(List.cons.inj same).1] at again
      exact absurd (by simpa using again) free
    · simp at same

/-- Properties that are brought one after the other are brought together. -/
theorem append (one : c.Admits worker steady properties early longer)
    (two : c.Admits worker steady longer late result) :
    c.Admits worker steady properties (early ++ late) result := by
  have names (name : String) : name ∈ longer.map Property.name ↔
      name ∈ (properties ++ early.map Prod.fst).map Property.name := by
    rw [one.kept]
    exact mem_names_firsts ..
  constructor
  · rw [two.kept, firsts_congr names, one.kept, List.map_append, firsts_append, List.append_assoc]
  · intro first entry last split taken
    rcases List.append_eq_append_iff.mp split with ⟨more, rfl, behind⟩ | ⟨more, whole, ahead⟩
    · refine two.told more entry last behind ?_
      rw [List.map_append, List.mem_append, names, ← List.mem_append, ← List.map_append]
      simpa using taken
    · cases more with
      | nil =>
        obtain rfl : early = first := by simpa using whole
        refine two.told [] entry last (by simpa using ahead.symm) ?_
        simpa [names] using taken
      | cons other more =>
        obtain ⟨rfl, -⟩ := List.cons.inj ahead
        exact one.told first entry more whole taken

end Admits

/-- The parameters of a declared operation are stored. -/
theorem Composes.parameters (composes : c.Composes env key (.operation operation)) :
    ∃ properties, c.types.get? operation.parameters = some (.model { properties }) := by
  cases composes with
  | written _ _ _ _ _ _ _ stored => exact ⟨_, stored⟩
  | reused _ reuses =>
    obtain ⟨_, _, _, _, _, _, _, copied⟩ := reuses
    exact ⟨_, copied⟩

end Checker

end Idl
