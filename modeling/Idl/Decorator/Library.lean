import Idl.Decorator.Annotations
import Idl.Diagnostic
import Idl.Options
import Idl.SymbolTable
import Idl.TypeStore

/-!
Libraries of decorators.

A decorator is a name, the kinds of targets it may be applied to, and a handler. A handler sees the
types and symbols of the program and cannot change them. It may record values and report findings.
-/

namespace Idl

inductive TargetKind where
  | model
  | operation
  | interface
  | property
deriving DecidableEq, Repr

namespace TargetKind

def name : TargetKind → String
  | model => "model"
  | operation => "operation"
  | interface => "interface"
  | property => "property"

def all : List TargetKind := [model, operation, interface, property]

end TargetKind

structure Targets where
  model : Bool := false
  operation : Bool := false
  interface : Bool := false
  property : Bool := false
deriving DecidableEq, Repr

namespace Targets

def any : Targets := ⟨true, true, true, true⟩

def accepts (targets : Targets) : TargetKind → Bool
  | .model => targets.model
  | .operation => targets.operation
  | .interface => targets.interface
  | .property => targets.property

def add (targets : Targets) : TargetKind → Targets
  | .model => { targets with model := true }
  | .operation => { targets with operation := true }
  | .interface => { targets with interface := true }
  | .property => { targets with property := true }

def ofList (kinds : List TargetKind) : Targets := kinds.foldl add {}

def describe (targets : Targets) : String :=
  " or ".intercalate ((TargetKind.all.filter targets.accepts).map TargetKind.name)

end Targets

/-- What a handler sees when its decorator is applied. -/
structure Invocation where
  types : TypeStore
  symbols : SymbolTable
  options : Options
  decorator : String
  location : Option Location
  target : Target
  args : List Value

structure Effects where
  annotations : Annotations
  reports : List Diagnostic := []

abbrev HandlerM := StateM Effects

abbrev Handler := Invocation → HandlerM Unit

namespace Invocation

/-- The decorated type, or the model of a decorated property. -/
def targetType? (invocation : Invocation) : Option CheckedType :=
  invocation.types.get? invocation.target.typeId

def report (invocation : Invocation) (code : Code) (message : String) : HandlerM Unit :=
  modify fun effects =>
    let finding := Diagnostic.report code message invocation.location
    { effects with reports := effects.reports ++ [finding] }

/-- Records a value for the target in place of all earlier ones. -/
def set (invocation : Invocation) (key : String) (value : Value) : HandlerM Unit :=
  modify fun effects =>
    { effects with annotations := effects.annotations.set key invocation.target value }

def push (invocation : Invocation) (key : String) (value : Value) : HandlerM Unit :=
  modify fun effects =>
    { effects with annotations := effects.annotations.push key invocation.target value }

/-- Whether the number of arguments is between two numbers; reports it if not. -/
def expectArgCount (invocation : Invocation) (least most : Nat) : HandlerM Bool := do
  let count := invocation.args.length
  if least ≤ count ∧ count ≤ most then return true
  let expected := if least = most then s!"{least}" else s!"{least} to {most}"
  invocation.report .invalidArgument
    s!"@{invocation.decorator} expects {expected} argument(s) but got {count}."
  return false

/-- The text of an argument, if it is there; reports an argument of another kind. -/
def stringArg (invocation : Invocation) (index : Nat) : HandlerM (Option String) := do
  match invocation.args[index]? with
  | none => return none
  | some (.string text) => return some text
  | some value =>
    let place := index + 1
    invocation.report .invalidArgument
      s!"@{invocation.decorator} argument {place} must be a string, found {value.kindName}."
    return none

end Invocation

structure DecoratorDefinition where
  name : String
  targets : Targets
  handler : Handler

structure Library where
  definitions : List DecoratorDefinition := []

namespace Library

def register (library : Library) (definition : DecoratorDefinition) : DecoratorId × Library :=
  (⟨library.definitions.length⟩, ⟨library.definitions ++ [definition]⟩)

def get? (library : Library) (id : DecoratorId) : Option DecoratorDefinition :=
  library.definitions[id.index]?

def find? (library : Library) (name : String) : Option DecoratorId :=
  (library.definitions.findIdx? (·.name = name)).map (⟨·⟩)

def names (library : Library) : List String := library.definitions.map (·.name)

def size (library : Library) : Nat := library.definitions.length

def isEmpty (library : Library) : Bool := library.definitions.isEmpty

end Library

end Idl
