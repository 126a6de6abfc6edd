import Idl.Decorator.Value

/-!
The types that checking produces.

Types refer to each other by their place in the store, so models can contain themselves and each
other. Places are numbers without a bound: a store of more than 2^32 types is not ruled out here.
-/

namespace Idl

/-- The template that a type was made from, and what stands for its parameters. -/
structure TemplateInstance where
  declaration : SymbolId
  arguments : List TypeId
deriving DecidableEq, Repr

/-- A property of a model, or a parameter of an operation. -/
structure Property where
  name : String
  type : TypeId
  optional : Bool
  /-- The decorators of the property, those that came with a copy included. -/
  decorators : List Application := []
  location : Option Location := none
deriving DecidableEq, Repr

/-- A model, with the properties that it has itself: those of its base are not among them. -/
structure ModelType where
  /-- Empty for a model written in place and for the parameters of an operation. -/
  name : String := ""
  symbol : Option SymbolId := none
  properties : List Property := []
  base : Option TypeId := none
  /-- The model that this one is a copy of. -/
  source : Option TypeId := none
  template : Option TemplateInstance := none
  decorators : List Application := []
deriving DecidableEq, Repr

/-- The property of a name. There is one at most. -/
def ModelType.property? (model : ModelType) (name : String) : Option Property :=
  model.properties.find? (·.name = name)

/-- An operation of a namespace or of an interface. -/
structure OperationType where
  name : String
  symbol : Option SymbolId := none
  /-- A nameless model that holds the parameters. -/
  parameters : TypeId
  returns : TypeId
  /-- The operation whose signature this one takes over. -/
  source : Option TypeId := none
  interface : Option SymbolId := none
  template : Option TemplateInstance := none
  decorators : List Application := []
deriving DecidableEq, Repr

/-- An interface, with the types of its operations in the order in which they are written. -/
structure InterfaceType where
  name : String
  symbol : Option SymbolId := none
  operations : List (String × TypeId) := []
  decorators : List Application := []
deriving DecidableEq, Repr

/-- The operation of a name. -/
def InterfaceType.operation? (interface : InterfaceType) (name : String) : Option TypeId :=
  (interface.operations.find? (·.1 = name)).map (·.2)

/-- A template parameter that stands for itself, in the body of its own template. -/
structure ParameterType where
  name : String
  symbol : SymbolId
  default : Option TypeId := none
deriving DecidableEq, Repr

/-- What a place of the store holds. An error stands for whatever could not be made sense of. -/
inductive CheckedType where
  | intrinsic (kind : Intrinsic)
  | model (model : ModelType)
  | operation (operation : OperationType)
  | interface (interface : InterfaceType)
  | union (options : List TypeId)
  | templateParameter (param : ParameterType)
  | error
deriving DecidableEq, Repr

namespace CheckedType

/-- What messages call the type. -/
def kindName : CheckedType → String
  | intrinsic _ => "intrinsic"
  | model _ => "model"
  | operation _ => "operation"
  | interface _ => "interface"
  | union _ => "union"
  | templateParameter _ => "template parameter"
  | error => "error"

/-- The name to print for the type. Unions and models written in place have none. -/
def name? : CheckedType → Option String
  | intrinsic kind => some kind.name
  | model m => if m.name = "" then none else some m.name
  | operation o => some o.name
  | interface i => some i.name
  | templateParameter p => some p.name
  | union _ | error => none

/-- The model, if the type is one. -/
def model? : CheckedType → Option ModelType
  | model m => some m
  | _ => none

/-- The operation, if the type is one. -/
def operation? : CheckedType → Option OperationType
  | operation o => some o
  | _ => none

/-- The interface, if the type is one. -/
def interface? : CheckedType → Option InterfaceType
  | interface i => some i
  | _ => none

def isError : CheckedType → Bool
  | error => true
  | _ => false

end CheckedType

end Idl
