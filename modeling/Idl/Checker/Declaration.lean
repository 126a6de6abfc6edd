import Idl.Checker.Expression

/-!
Checking the bodies of declarations.

The body of a declaration is checked one level down from where the declaration was asked for, so
`descent` ties checking to itself level by level.
-/

namespace Idl.CheckM

variable (env : Environment) (descent : Descent)

/-- Whether going from a model to the model it extends, and so on for at most so many steps, comes
to another model. What is not yet finished ends the way. -/
def baseChainReaches (types : TypeStore) (goal : TypeId) : Nat → TypeId → Bool
  | 0, _ => false
  | steps + 1, id =>
    id == goal || match (types.model? id).bind (·.base) with
      | some base => baseChainReaches types goal steps base
      | none => false

/-- What a model takes over from the one it is declared as a copy of. -/
def sourceOf (source : TypeExpr) (context : Context) (model : ModelType) : CheckM ModelType := do
  let id ← typeExpr env descent source context .complete
  let location := context.location source.span
  modify (·.need .copy context source location id)
  match ← type? id with
  | some (.model found) =>
    return { model with
      properties := found.properties, decorators := found.decorators, source := some id }
  | some .error | some (.templateParameter _) => return model
  | _ =>
    report (Use.copy.finding location)
    return model

/-- Whether a type is a model, or will be one when it is finished. -/
def isModel (id : TypeId) : CheckM Bool := do
  let c ← get
  match c.types.get? id with
  | some type => return type.model?.isSome
  | none => return (c.reserved.get? id).any fun symbol => (env.symbols.symbol symbol).kind = .model

/-- The model that a model extends, unless it comes back to the model itself. -/
def baseOf (symbol : SymbolId) (id : TypeId) (base : TypeExpr) (context : Context)
    (model : ModelType) : CheckM ModelType := do
  let found ← typeExpr env descent base context .reference
  let location := context.location base.span
  let c ← get
  if baseChainReaches c.types id (c.types.size + 1) found then
    let name := env.symbols.qualifiedName symbol
    errorAt .cyclicReference s!"Type '{name}' recursively references itself." location
    return model
  if ← isModel env found then
    modify (·.log (.extended id found))
    return { model with base := some found }
  match c.types.get? found with
  | some .error | some (.templateParameter _) => return model
  | _ =>
    errorAt .invalidBaseType "A model can only extend another model." location
    return model

/-- Runs the decorators of a finished type, outside templates. -/
def decorate (id : TypeId) (context : Context) : CheckM Unit := do
  if !context.dependent then applyDecorators env id

/-- A model: what it is built on, then its members, then its decorators. -/
def modelBody (symbol : SymbolId) (decl : ModelDecl) (template : Option TemplateInstance)
    (context : Context) (id : TypeId) : CheckM Unit := do
  let model : ModelType := { name := decl.name.name, symbol := some symbol, template }
  let model ← match decl.heritage with
    | .plain => pure model
    | .is source => sourceOf env descent source context model
    | .extends base => baseOf env descent symbol id base context model
  let properties ← gathering decl.members context model.properties
    (memberList env descent decl.members context model.properties)
  let own ← decoratorList env descent decl.decorators context
  finish id (.model { model with properties, decorators := model.decorators ++ own })
  decorate env id context

/-- The interface that an operation is written in. -/
def owningInterface (operation : Symbol) : Option SymbolId :=
  if operation.interfaceMember then
    match operation.parent with
    | .localScope scope => match (env.symbols.local? scope).map LocalScope.kind with
      | some (.interface owner) => some owner
      | _ => none
    | .space _ => none
  else none

/-- An operation with a signature of its own. -/
def writtenOperation (operation : OperationType) (decl : OperationDecl) (parameters : List Member)
    (returns : TypeExpr) (context : Context) (id : TypeId) : CheckM Unit := do
  let properties ← gathering parameters context [] (memberList env descent parameters context [])
  let parameters ← alloc properties context.dependent (some id)
  let returns ← typeExpr env descent returns context .reference
  let decorators ← decoratorList env descent decl.decorators context
  finish id (.operation { operation with parameters, returns, decorators })
  decorate env id context

/-- An operation with the signature of another one. The parameters are copied, so that decorators
run for the new operation. -/
def reusingOperation (operation : OperationType) (decl : OperationDecl) (source : TypeExpr)
    (context : Context) (id : TypeId) : CheckM Unit := do
  let sourceId ← typeExpr env descent source context .complete
  let location := context.location source.span
  modify (·.need .signature context source location sourceId)
  let own ← decoratorList env descent decl.decorators context
  match ← type? sourceId with
  | some (.operation found) =>
    if found.source.isSome then
      errorAt .invalidOperationReference
        s!"Cannot reuse the signature of '{found.name}', which itself reuses another operation's signature."
        location
      finish id .error
    else
      let c ← get
      let properties := ((c.types.model? found.parameters).map (·.properties)).getD []
      let parameters ← alloc properties (context.dependent || c.isDependent sourceId) (some id)
      finish id (.operation { operation with
        parameters, returns := found.returns, source := some sourceId,
        decorators := found.decorators ++ own })
      decorate env id context
  | some .error | some (.templateParameter _) => finish id .error
  | _ =>
    report (Use.signature.finding location)
    finish id .error

/-- An operation, whichever way it comes by its signature. -/
def operationBody (symbol : SymbolId) (decl : OperationDecl) (template : Option TemplateInstance)
    (context : Context) (id : TypeId) : CheckM Unit := do
  let interface := owningInterface env (env.symbols.symbol symbol)
  let operation : OperationType :=
    { name := decl.name.name, symbol := some symbol, interface, template,
      parameters := TypeStore.error, returns := TypeStore.error }
  match decl.signature with
  | .written parameters _ returns =>
    writtenOperation env descent operation decl parameters returns context id
  | .reuse source => reusingOperation env descent operation decl source context id

/-- Checks the operations of an interface, in order, and notes their types. -/
def checkOperations : List SymbolId → CheckM (List (String × TypeId))
  | [] => return []
  | operation :: rest => do
    let id ← checkDeclaration env descent operation
    modify fun c => { c with symbolTypes := c.symbolTypes.insert operation id }
    return ((env.symbols.symbol operation).name, id) :: (← checkOperations rest)

/-- An interface: its operations, then its decorators. -/
def interfaceBody (symbol : SymbolId) (decl : InterfaceDecl) (context : Context) (id : TypeId) :
    CheckM Unit := do
  let operations ← checkOperations env descent (env.symbols.members symbol)
  let decorators ← decoratorList env descent decl.decorators context
  finish id (.interface { name := decl.name.name, symbol := some symbol, operations, decorators })
  decorate env id context

/-- Works out the type of a key, with its arguments for the parameters, and fills its place. -/
def symbolBody (key : ResolutionKey) (id : TypeId) (dependent : Bool) : CheckM Unit := do
  let symbol := env.symbols.symbol key.symbol
  let fail (error : InternalError) : CheckM Unit := do
    internalError error
    finish id .error
  match Substitution.ofArguments symbol.templateParams key.args with
  | .error cause => fail (.instantiating (env.symbols.qualifiedName key.symbol) cause)
  | .ok subst =>
    let template := if key.args.isEmpty then none else some ⟨key.symbol, key.args⟩
    match symbol.declarations.head? with
    | none => fail (.noDeclaration (env.symbols.qualifiedName key.symbol))
    | some declaration =>
      let context : Context :=
        { file := declaration.location.file, scope := symbol.bodyScope, subst, dependent }
      match declaration.definition with
      | .model decl => modelBody env descent key.symbol decl template context id
      | .operation decl => operationBody env descent key.symbol decl template context id
      | .interface decl => interfaceBody env descent key.symbol decl context id
      | other => fail (.notAType (env.symbols.qualifiedName key.symbol) other.kindName)

/-- Checking with so many levels to go down. Below the last one there is no result. -/
def descentOf : Nat → Descent
  | 0 => ⟨fun _ _ _ => exhausted, fun _ _ => exhausted⟩
  | levels + 1 =>
    let below := descentOf levels
    ⟨symbolBody env below, fun expr context => typeExpr env below expr context .reference⟩

end Idl.CheckM
