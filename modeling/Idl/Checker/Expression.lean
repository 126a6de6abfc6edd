import Idl.Checker.Resolution
import Idl.Decorator.Builtin

/-!
Checking type expressions, members and decorators.

The syntax is walked from the outside in and from left to right. What it refers to is resolved on
the way, so types are numbered in the order in which they are met.
-/

namespace Idl

/-- What models written in place are compared by: names, types and flags, in order. -/
def shapeOf (properties : List Property) : Shape :=
  properties.map fun p => (p.name, p.type, p.optional)

/-- The types of a list, each where it first stands. -/
def distinct (ids : List TypeId) : List TypeId :=
  ids.foldl (fun seen id => if id ∈ seen then seen else seen ++ [id]) []

namespace Checker

/-- The union of options, which is dependent if one of them is. -/
def unionOf (c : Checker) (options : List TypeId) : TypeId × Checker :=
  let (id, types) := c.types.internUnion options
  (id, { c with
    types
    dependentTypes := if options.any c.isDependent ∧ id ∉ c.dependentTypes
      then id :: c.dependentTypes else c.dependentTypes })

/-- Stores a model written in place, as the one for its shape. -/
def internModel (c : Checker) (properties : List Property) : TypeId × Checker :=
  let (id, types) := c.types.alloc (.model { properties })
  (id, { c with types, modelExpressions := c.modelExpressions.insert (shapeOf properties) id })

end Checker

namespace CheckM

variable (env : Environment) (descent : Descent)

/-- What a lookup found; reports a name that is unknown or ambiguous. -/
def expectFound (resolution : Resolution) (name : Ident) (context : Context) :
    CheckM (Option SymbolId) := do
  match resolution with
  | .found id => return some id
  | .ambiguous candidates =>
    let names := ", ".intercalate (candidates.map fun (_, id) => env.symbols.qualifiedName id)
    errorAt .ambiguousReference s!"'{name.name}' is an ambiguous name between {names}."
      (context.location name.span)
    return none
  | .notFound =>
    errorAt .unknownIdentifier s!"Unknown identifier {name.name}" (context.location name.span)
    return none

/-- Goes from a symbol to a member of a member, and so on; reports a member that is not there. -/
def resolveMembers (context : Context) (container : SymbolId) : List Ident → CheckM (Option SymbolId)
  | [] => return some container
  | segment :: rest => do
    match env.symbols.member? container segment.name with
    | some member => resolveMembers context member rest
    | none =>
      let name := env.symbols.qualifiedName container
      errorAt .unknownIdentifier s!"'{name}' doesn't have member '{segment.name}'"
        (context.location segment.span)
      return none

/-- The symbol of a dotted name: its first part is looked up, the others are members. -/
def resolvePath (path : DottedName) (context : Context) : CheckM (Option SymbolId) := do
  let found := env.symbols.lookup context.scope path.first.name
  match ← expectFound env found path.first context with
  | none => return none
  | some id => resolveMembers env context id path.rest

/-- The decorator that a path names. A single name stands for the nearest decorator of that name,
whatever else has the name; a path starts from a namespace. -/
def decoratorSymbol (path : DottedName) (span : Span) (context : Context) :
    CheckM (Option SymbolId) := do
  let unknown : CheckM (Option SymbolId) := do
    errorAt .unknownDecorator s!"Unknown decorator @{path.text}" (context.location span)
    return none
  let wanted : SymbolKind := if path.rest.isEmpty then .decorator else .space
  match env.symbols.lookupWhere context.scope path.first.name (·.kind = wanted) with
  | .notFound => unknown
  | resolution =>
    match ← expectFound env resolution path.first context with
    | none => return none
    | some start =>
      match env.symbols.memberPath? start (path.rest.map (·.name)) with
      | none => unknown
      | some id => if (env.symbols.symbol id).kind = .decorator then return some id else unknown

/-- Reports the use of a type that is marked as deprecated, with the reason if there is one. -/
def checkDeprecated (id : TypeId) (path : String) (location : Location) : CheckM Unit := do
  match (← get).annotations.get? Builtin.deprecatedKey (.type id) with
  | none => return
  | some (.string reason) =>
    errorAt .deprecated s!"'{path}' is deprecated: {reason}" location
  | some _ => errorAt .deprecated s!"'{path}' is deprecated." location

/-- The model that `T[]` stands for an instance of. -/
def arrayModel : String := "Array"

/-- Adds a property unless there is one of the same name, which is reported. -/
def addProperty (properties : List Property) (property : Property) (location : Location) :
    CheckM (List Property) := do
  if properties.any (·.name = property.name) then
    errorAt .duplicateProperty s!"Model already has a property named '{property.name}'." location
    modify fun c => c.log (.dropped property location c.abandoning.isNone)
    return properties
  return properties ++ [property]

/-- Adds properties one after the other, all of them reported at one place. -/
def addProperties (location : Location) : List Property → List Property → CheckM (List Property)
  | properties, [] => return properties
  | properties, property :: rest => do
    addProperties location (← addProperty properties property location) rest

/-- Runs one decorator on a target, if it may be applied to targets of that kind. -/
def invoke (application : Application) (target : Target) (kind : TargetKind) : CheckM Unit := do
  modify (·.log (.invoked application target))
  match env.library.get? application.decorator with
  | none => internalError (.notInLibrary application.name application.decorator)
  | some definition =>
    if definition.targets.accepts kind then
      let c ← get
      let invocation : Invocation :=
        { types := c.types, symbols := env.symbols, options := env.options,
          decorator := definition.name, location := application.location, target,
          args := application.args }
      let effects := ((definition.handler invocation).run { annotations := c.annotations }).2
      set (effects.reports.foldl Checker.report { c with annotations := effects.annotations })
    else
      report (.report .invalidDecoratorTarget
        s!"@{definition.name} cannot be applied to a {kind.name}; it applies to {definition.targets.describe}."
        application.location)

/-- Runs decorators on a target, in the order in which they stand. -/
def invokeAll (target : Target) (kind : TargetKind) : List Application → CheckM Unit
  | [] => return
  | application :: rest => do
    invoke env application target kind
    invokeAll target kind rest

/-- Runs the decorators of properties, one property after the other. -/
def invokeProperties (model : TypeId) : List Property → CheckM Unit
  | [] => return
  | property :: rest => do
    invokeAll env (.property model property.name) .property property.decorators
    invokeProperties model rest

/-- Applies every decorator of a finished type: those of its properties or parameters first. -/
def applyDecorators (id : TypeId) : CheckM Unit := do
  let c ← get
  if c.abandoning.isSome then return
  match c.types.get? id with
  | some (.model model) =>
    invokeProperties env id model.properties
    invokeAll env (.type id) .model model.decorators
  | some (.operation operation) =>
    let properties := ((c.types.model? operation.parameters).map (·.properties)).getD []
    invokeProperties env operation.parameters properties
    invokeAll env (.type id) .operation operation.decorators
  | some (.interface interface) => invokeAll env (.type id) .interface interface.decorators
  | _ => return

/-- The union of options, each once. -/
def unionOf (options : List TypeId) : CheckM TypeId := modifyGet (·.unionOf (distinct options))

/-- The type of a model written in place. Outside templates, models without decorators are the same
type if they have the same shape. -/
def modelExpression (properties : List Property) (context : Context) : CheckM TypeId := do
  if context.dependent then alloc properties true none
  else if properties.all (·.decorators.isEmpty) then
    match (← get).modelExpressions.get? (shapeOf properties) with
    | some id => return id
    | none => modifyGet (·.internModel properties)
  else
    let id ← alloc properties false none
    applyDecorators env id
    return id

/-- The instance of the array model for an element. -/
def arrayOf (element : TypeId) (location : Location) (demand : Demand) : CheckM TypeId := do
  match env.symbols.qualified? arrayModel with
  | some array => instantiate env descent array [element] location demand
  | none =>
    errorAt .unknownIdentifier s!"Unknown identifier {arrayModel}" location
    return TypeStore.error

mutual

/-- The place of the type that an expression stands for, or the one of errors. What is demanded of
the whole is not demanded of its parts. -/
def typeExpr (expr : TypeExpr) (context : Context) (demand : Demand) : CheckM TypeId :=
  evaluating expr <| match expr with
  | .reference path args hasArgs span => do
    let location := context.location span
    match ← resolvePath env path context with
    | none => return TypeStore.error
    | some id =>
      let symbol := env.symbols.symbol id
      let name := path.text
      match symbol.kind with
      | .space | .decorator =>
        errorAt .invalidTypeReference s!"'{name}' is a {symbol.kind.name}, not a type." location
        return TypeStore.error
      | .templateParameter =>
        if hasArgs then
          errorAt .invalidTemplateArgs
            s!"Template parameter '{name}' cannot take template arguments." location
          return TypeStore.error
        match context.subst.get? id with
        | some bound => return bound
        | none => paramType env descent id
      | .model | .operation | .interface =>
        let args ← typeExprs args context
        if symbol.templated then
          let type ← instantiate env descent id args location demand
          checkDeprecated type name location
          return type
        if hasArgs then
          errorAt .invalidTemplateArgs
            s!"'{name}' is not a template and cannot take template arguments." location
          return TypeStore.error
        let type ← resolveSymbol env descent id [] demand (some location)
        checkDeprecated type name location
        return type
  | .intrinsic kind _ => return TypeStore.intrinsic kind
  | .union first rest _ => do
    let first ← typeExpr first context .reference
    let rest ← typeExprs rest context
    unionOf (first :: rest)
  | .model members _ => do
    let properties ← gathering members context [] (memberList members context [])
    let id ← modelExpression env properties context
    modify (·.log (.expressed context members properties id))
    return id
  | .array element span => do
    let element ← typeExpr element context .reference
    arrayOf env descent element (context.location span) demand

/-- Type expressions from left to right, each as a reference. -/
def typeExprs : List TypeExpr → Context → CheckM (List TypeId)
  | [], _ => return []
  | expr :: rest, context => do
    let id ← typeExpr expr context .reference
    return id :: (← typeExprs rest context)

/-- The properties after one more member. A spread needs the model that it names in full. -/
def member : Member → Context → List Property → CheckM (List Property)
  | .property decorators name optional type _, context, properties => do
    let type ← typeExpr type context .reference
    let decorators ← decoratorList decorators context
    let location := context.location name.span
    addProperty properties ⟨name.name, type, optional, decorators, some location⟩ location
  | .spread target span, context, properties => do
    let location := context.location span
    let source ← typeExpr target context .complete
    modify (·.need .spread context target location source)
    match ← type? source with
    | some (.model model) => addProperties location properties model.properties
    | some .error | some (.templateParameter _) => return properties
    | _ =>
      report (Use.spread.finding location)
      return properties

/-- The properties after all members, in the order in which they are written. -/
def memberList : List Member → Context → List Property → CheckM (List Property)
  | [], _, properties => return properties
  | first :: rest, context, properties => do
    memberList rest context (← member first context properties)

/-- A decorator with its arguments resolved, unless something in it is wrong. -/
def decorator : DecoratorExpr → Context → CheckM (Option Application)
  | .use path args span, context => do
    match ← decoratorSymbol env path span context with
    | none => return none
    | some id =>
      let symbol := env.symbols.symbol id
      match symbol.declarations.head?.map Declaration.definition with
      | some (.decorator decoratorId) =>
        match ← decoratorArgs args context with
        | none => return none
        | some args =>
          return some ⟨decoratorId, symbol.name, args, some (context.location span)⟩
      | _ =>
        internalError (.noDecoratorDeclaration (env.symbols.qualifiedName id))
        return none

/-- Decorators from left to right; those with something wrong in them are left out. -/
def decoratorList : List DecoratorExpr → Context → CheckM (List Application)
  | [], _ => return []
  | first :: rest, context => do
    let application ← decorator first context
    return application.toList ++ (← decoratorList rest context)

/-- The value of one argument, unless it is a type that is an error. -/
def decoratorArg : DecoratorArg → Context → CheckM (Option Value)
  | .literal (.string text) _, _ => return some (.string text)
  | .literal (.number value) _, _ => return some (.number value)
  | .literal (.boolean flag) _, _ => return some (.boolean flag)
  | .type expr, context => do
    let id ← typeExpr expr context .reference
    if ← isError id then return none
    return some (.type id)

/-- Arguments from left to right, up to the first type that is an error. -/
def decoratorArgs : List DecoratorArg → Context → CheckM (Option (List Value))
  | [], _ => return some []
  | first :: rest, context => do
    match ← decoratorArg first context with
    | none => return none
    | some value => return (← decoratorArgs rest context).map (value :: ·)

end

end CheckM

end Idl
