import Idl.Decorator.Library
import Idl.SymbolTable.Lookup
import Idl.Template

/-!
The state of checking.

Each declaration is resolved when something first needs it, once for each list of template
arguments. Work on a declaration is a frame on a stack; a frame that was started by a mere
reference can be given up and done again later. While a frame is given up nothing is reported.

`CheckM` is the work of the checker. It has no result when it runs out of the levels or rounds that
it was given, which is different from every answer that checking can give.

What happens on the way is written down in a history, for statements about whole runs. Nothing in
checking reads it.
-/

namespace Idl

/-- How much of a type is needed. -/
inductive Demand where
  /-- A place in the store is enough; the type may still be under work. -/
  | reference
  | complete
deriving DecidableEq, Repr

/-- What a finished type is needed for. -/
inductive Use where
  /-- Its properties, among other members. -/
  | spread
  /-- A model that is declared as a copy of it. -/
  | copy
  /-- An operation that takes over its signature. -/
  | signature
deriving DecidableEq, Repr

namespace Use

/-- Whether a type can be used so. Errors and template parameters are passed over in silence. -/
def accepts : Use → CheckedType → Bool
  | _, .error | _, .templateParameter _ => true
  | .spread, .model _ | .copy, .model _ => true
  | .signature, .operation _ => true
  | _, _ => false

def code : Use → Code
  | spread => .invalidSpread
  | copy => .invalidBaseType
  | signature => .invalidOperationReference

def message : Use → String
  | spread => "Cannot spread properties of a type that is not a model."
  | copy => "A model can only be declared 'is' another model."
  | signature => "An operation can only reuse the signature of another operation."

def finding (location : Location) (use : Use) : Diagnostic :=
  .report use.code use.message (some location)

end Use

/-- What is resolved: a declaration with template arguments. -/
structure ResolutionKey where
  symbol : SymbolId
  args : List TypeId
deriving DecidableEq, Repr

inductive ResolutionState where
  | resolving (id : TypeId)
  /-- Given up on the way, to be done again for the same place. -/
  | deferred (id : TypeId)
  | resolved (id : TypeId)
  | errored
deriving DecidableEq, Repr

structure Frame where
  key : ResolutionKey
  id : TypeId
  /-- The demand that started it. -/
  demand : Demand
deriving DecidableEq, Repr

structure Context where
  file : FileId
  scope : Scope
  /-- What stands for the template parameters. -/
  subst : Substitution := {}
  /-- Whether template parameters stand for themselves. Decorators do not run then. -/
  dependent : Bool := false

def Context.location (context : Context) (span : Span) : Location := ⟨context.file, span⟩

structure Need where
  use : Use
  context : Context
  target : TypeExpr
  location : Location
  id : TypeId
  /-- What the place held then. -/
  found : Option CheckedType
  /-- Whether no frame was being given up then. -/
  steady : Bool

structure Gathering where
  worker : Option ResolutionKey
  context : Context
  members : List Member
  before : List Property
  result : List Property
  steady : Bool

inductive Event where
  | placed (key : ResolutionKey) (id : TypeId)
  | placedParam (param : SymbolId) (id : TypeId)
  | filled (id : TypeId) (type : CheckedType)
  | changed (key : ResolutionKey) (state : ResolutionState)
  | answered (key : ResolutionKey) (demand : Demand) (id : TypeId)
  /-- It was settled which model a model under work extends. -/
  | extended (id base : TypeId)
  | needed (need : Need)
  /-- A key was asked for, in the work on a key if any was under work. -/
  | asked (worker : Option ResolutionKey) (key : ResolutionKey) (demand : Demand)
  /-- A type expression was evaluated, in the work on a key if any was under work. -/
  | evaluated (worker : Option ResolutionKey) (expr : TypeExpr) (id : TypeId)
  /-- Work on some keys began to be given up, the youngest first. -/
  | abandoned (keys : List ResolutionKey)
  /-- A model without a name was stored: the parameters of the operation at a place, or a model that
  is written in place. -/
  | nameless (operation : Option TypeId) (id : TypeId)
  | invoked (application : Application) (target : Target)
  /-- A property was left out for one of the same name before it. -/
  | dropped (property : Property) (location : Location) (steady : Bool)
  | gathered (gathering : Gathering)
  /-- A model that is written in place was given a place. -/
  | expressed (context : Context) (members : List Member) (properties : List Property) (id : TypeId)

/-- A broken rule of the checker itself, never the fault of a program. -/
inductive InternalError where
  | finishing (cause : SlotError)
  | notOnStack (name : String)
  | instantiating (name : String) (cause : CountMismatch)
  | bindingDefaults (cause : CountMismatch)
  | noDeclaration (name : String)
  | notAType (name kind : String)
  | noDecoratorDeclaration (name : String)
  | notInLibrary (name : String) (id : DecoratorId)
deriving DecidableEq, Repr

def InternalError.message : InternalError → String
  | finishing cause => s!"finishing a resolved type: {cause.message}"
  | notOnStack name => s!"'{name}' is resolving but not on the resolution stack"
  | instantiating name cause => s!"instantiating '{name}': {cause.message}"
  | bindingDefaults cause => s!"binding template defaults: {cause.message}"
  | noDeclaration name => s!"symbol '{name}' has no declaration"
  | notAType name kind => s!"checking '{name}': {kind} declaration cannot produce a type"
  | noDecoratorDeclaration name => s!"decorator symbol '{name}' has no decorator declaration"
  | notInLibrary name id => s!"decorator @{name} (DecoratorId({id.index})) is not in the library"

structure Environment where
  symbols : SymbolTable
  library : Library
  options : Options

abbrev Shape := List (String × TypeId × Bool)

structure Checker where
  types : TypeStore := .empty
  annotations : Annotations := {}
  resolutions : Dictionary ResolutionKey ResolutionState := {}
  /-- The resolutions under way, the youngest first. -/
  stack : List Frame := []
  /-- The number of frames below the one that is being given up. -/
  abandoning : Option Nat := none
  /-- The keys to be resolved again, the one given up last first. -/
  deferred : List ResolutionKey := []
  /-- The models written in place that have one place in the store for each shape. -/
  modelExpressions : Dictionary Shape TypeId := {}
  /-- The declaration for which a place was reserved. -/
  reserved : Dictionary TypeId SymbolId := {}
  instances : Instances := {}
  /-- The types of template parameters that stand for themselves. -/
  paramTypes : Dictionary SymbolId TypeId := {}
  /-- The types of declarations. A template has the type in which its parameters stand for
  themselves. -/
  symbolTypes : Dictionary SymbolId TypeId := {}
  /-- The types that mention a template parameter. -/
  dependentTypes : List TypeId := []
  diagnostics : List Diagnostic := []
  internalErrors : List InternalError := []
  /-- The number of resolutions inside each other. -/
  depth : Nat := 0
  /-- What has happened so far, the latest first. -/
  history : List Event := []

namespace Checker

def log (c : Checker) (event : Event) : Checker := { c with history := event :: c.history }

def isDependent (c : Checker) (id : TypeId) : Bool := decide (id ∈ c.dependentTypes)

def worker (c : Checker) : Option ResolutionKey := c.stack.head?.map Frame.key

/-- Whether a place belongs to a frame that is being given up. -/
def isUnwinding (c : Checker) (id : TypeId) : Bool :=
  match c.abandoning with
  | none => false
  | some below => (c.stack.take (c.stack.length - below)).any (·.id = id)

/-- Writes down that a type was needed in full, and which place was given for it. -/
def need (c : Checker) (use : Use) (context : Context) (target : TypeExpr) (location : Location)
    (id : TypeId) : Checker :=
  c.log (.needed ⟨use, context, target, location, id, c.types.get? id, c.abandoning.isNone⟩)

/-- Adds a finding, once, unless a frame is being given up. -/
def report (c : Checker) (finding : Diagnostic) : Checker :=
  { c with
    diagnostics := if c.abandoning.isSome ∨ finding ∈ c.diagnostics then c.diagnostics
      else c.diagnostics ++ [finding] }

def internalError (c : Checker) (error : InternalError) : Checker :=
  { c with internalErrors := c.internalErrors ++ [error] }

/-- Fills a place, unless it belongs to a frame that is being given up. -/
def finish (c : Checker) (id : TypeId) (type : CheckedType) : Checker :=
  if c.isUnwinding id then c
  else match c.types.finish id type with
    | .ok types => { c with types }.log (.filled id type)
    | .error cause => c.internalError (.finishing cause)

def setState (c : Checker) (key : ResolutionKey) (state : ResolutionState) : Checker :=
  { c with resolutions := c.resolutions.insert key state }.log (.changed key state)

/-- Stores a model without a name: the parameters of an operation, or a model that is written in
place. -/
def alloc (c : Checker) (properties : List Property) (dependent : Bool)
    (operation : Option TypeId) : TypeId × Checker :=
  let (id, types) := c.types.alloc (.model { properties })
  (id, { c with
    types
    dependentTypes := if dependent then id :: c.dependentTypes else c.dependentTypes
    history := .nameless operation id :: c.history })

/-- Puts a key off until the declaration at hand is done. -/
def defer (c : Checker) (key : ResolutionKey) (id : TypeId) : Checker :=
  let c := c.setState key (.deferred id)
  { c with deferred := key :: c.deferred }

end Checker

abbrev CheckM := StateT Checker Option

namespace CheckM

def exhausted {α : Type} : CheckM α := fun _ => none

def report (finding : Diagnostic) : CheckM Unit := modify (·.report finding)

def errorAt (code : Code) (message : String) (location : Location) : CheckM Unit :=
  report (.report code message (some location))

def internalError (error : InternalError) : CheckM Unit := modify (·.internalError error)

def finish (id : TypeId) (type : CheckedType) : CheckM Unit := modify (·.finish id type)

def type? (id : TypeId) : CheckM (Option CheckedType) := do return (← get).types.get? id

def isError (id : TypeId) : CheckM Bool := do return (← get).types.isError id

def isDependent (id : TypeId) : CheckM Bool := do return (← get).isDependent id

def anyDependent (ids : List TypeId) : CheckM Bool := do
  let c ← get
  return ids.any c.isDependent

def alloc (properties : List Property) (dependent : Bool) (operation : Option TypeId) :
    CheckM TypeId :=
  modifyGet (·.alloc properties dependent operation)

/-- Evaluates a type expression, and writes down what it gave. -/
def evaluating (expr : TypeExpr) (work : CheckM TypeId) : CheckM TypeId := do
  let id ← work
  modify fun c => c.log (.evaluated c.worker expr id)
  return id

/-- Checks a list of members after some properties, and writes down what came of it. -/
def gathering (members : List Member) (context : Context) (before : List Property)
    (work : CheckM (List Property)) : CheckM (List Property) := do
  let result ← work
  modify fun c => c.log
    (.gathered ⟨c.worker, context, members, before, result, c.abandoning.isNone⟩)
  return result

/-- The number of resolutions that may be inside each other. It stops templates that grow without
bound. -/
def maxDepth : Nat := 64

def tooDeep : String :=
  "Type resolution is nested too deeply; a template probably expands without bound."

/-- Goes one level down, or reports that it is too deep. -/
def enter (location : Option Location) : CheckM Bool := do
  if maxDepth ≤ (← get).depth then
    report (.report .cyclicReference tooDeep location)
    return false
  modify fun c => { c with depth := c.depth + 1 }
  return true

def leave : CheckM Unit := modify fun c => { c with depth := c.depth - 1 }

end CheckM

/-- What checking does one level down: the body of a declaration, and the default of a template
parameter. -/
structure Descent where
  body : ResolutionKey → TypeId → Bool → CheckM Unit
  default : TypeExpr → Context → CheckM TypeId

end Idl
