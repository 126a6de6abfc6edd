import Idl.Checker.State

/-!
Resolving declarations.

A reference to a declaration that is under work gets its place in the store. A demand for the
finished type of a declaration under work is a cycle if every resolution started since then was
also a demand for a finished type. Otherwise one of them was started by a mere reference: the
youngest of those is given up, everything above it with it, and done again later.
-/

namespace Idl

namespace Checker

/-- Whether the arguments of a template are its own parameters. -/
def isDeclarationView (c : Checker) (symbols : SymbolTable) (key : ResolutionKey) : Bool :=
  (symbols.symbol key.symbol).templateParams.map c.paramTypes.get? = key.args.map some

/-- Hands out a place for a key. A key with arguments other than the template's own parameters is
an instance. -/
def place (c : Checker) (symbols : SymbolTable) (key : ResolutionKey) : TypeId × Checker :=
  let (id, types) := c.types.reserve
  (id, { c with
    types
    reserved := c.reserved.insert id key.symbol
    dependentTypes := if key.args.any c.isDependent then id :: c.dependentTypes
      else c.dependentTypes
    instances := if key.args.isEmpty || c.isDeclarationView symbols key then c.instances
      else c.instances.insert key.symbol key.args id
    history := .placed key id :: c.history })

/-- Hands out a place for a template parameter that stands for itself. -/
def placeParam (c : Checker) (param : SymbolId) : TypeId × Checker :=
  let (id, types) := c.types.reserve
  (id, { c with
    types
    paramTypes := c.paramTypes.insert param id
    dependentTypes := id :: c.dependentTypes
    history := .placedParam param id :: c.history })

def push (c : Checker) (key : ResolutionKey) (id : TypeId) (demand : Demand) : Checker :=
  { c.setState key (.resolving id) with stack := ⟨key, id, demand⟩ :: c.stack }

/-- Begins to give up a frame, which some younger ones lie upon. -/
def abandon (c : Checker) (younger : Nat) : Checker :=
  { c with
    abandoning := some (c.stack.length - 1 - younger)
    history := .abandoned ((c.stack.take (younger + 1)).map Frame.key) :: c.history }

/-- What a resolution gives that did not come to its end. -/
def handedOut (id : TypeId) : Demand → TypeId
  | .reference => id
  | .complete => TypeStore.error

/-- Ends work on a key. If the frame is given up the key is put off. -/
def pop (c : Checker) (key : ResolutionKey) (id : TypeId) (demand : Demand) : TypeId × Checker :=
  let below := c.stack.length - 1
  let rest := { c with stack := c.stack.tail }
  if c.abandoning.any (· ≤ below) then
    let abandoning := if c.abandoning = some below then none else c.abandoning
    (handedOut id demand, { rest with abandoning }.defer key id)
  else match c.resolutions.get? key with
    | some (.resolving _) => (id, rest.setState key (.resolved id))
    | some .errored => (TypeStore.error, rest)
    | _ => (id, rest)

end Checker

namespace CheckM

variable (env : Environment) (descent : Descent)

def reserveFor (key : ResolutionKey) : CheckM TypeId := modifyGet (·.place env.symbols key)

/-- Ends the frame on top of the stack, when the body of its declaration has been checked. -/
def leaveFrame (key : ResolutionKey) (id : TypeId) (demand : Demand) : CheckM TypeId := do
  leave
  modifyGet (·.pop key id demand)

def resolveInto (key : ResolutionKey) (id : TypeId) (demand : Demand) : CheckM TypeId := do
  modify (·.push key id demand)
  descent.body key id (← isDependent id)
  leaveFrame key id demand

/-- Starts the resolution of a key, or puts it off while a frame is being given up. -/
def start (key : ResolutionKey) (known : Option TypeId) (demand : Demand)
    (location : Option Location) : CheckM TypeId := do
  let place : CheckM TypeId := match known with
    | some id => pure id
    | none => reserveFor env key
  if (← get).abandoning.isSome then
    let id ← place
    modify (·.defer key id)
    return Checker.handedOut id demand
  if ← enter location then
    let id ← place
    resolveInto descent key id demand
  else
    if known.isSome then
      modify fun c => { c with deferred := key :: c.deferred }
    return TypeStore.error

/-- A finished type is demanded of a key under work. -/
def completeWhileResolving (key : ResolutionKey) (location : Option Location) : CheckM TypeId := do
  let c ← get
  if c.abandoning.isNone then
    match c.stack.findIdx? (·.key = key) with
    | none => internalError (.notOnStack (env.symbols.qualifiedName key.symbol))
    | some height =>
      match (c.stack.take height).findIdx? (·.demand = .reference) with
      | some youngest => modify (·.abandon youngest)
      | none =>
        let name := env.symbols.qualifiedName key.symbol
        report (.report .cyclicReference s!"Type '{name}' recursively references itself."
          (location <|> (env.symbols.symbol key.symbol).location))
        modify (·.setState key .errored)
  return TypeStore.error

/-- The type of a key, resolved now if it has to be. -/
def resolveKey (key : ResolutionKey) (demand : Demand) (location : Option Location) :
    CheckM TypeId := do
  match (← get).resolutions.get? key, demand with
  | some (.resolved id), _ => return id
  | some .errored, _ => return TypeStore.error
  | some (.resolving id), .reference => return id
  | some (.resolving _), .complete => completeWhileResolving env key location
  | some (.deferred id), .reference => return id
  | some (.deferred id), .complete => start env descent key (some id) demand location
  | none, _ => start env descent key none demand location

def resolveSymbol (symbol : SymbolId) (args : List TypeId) (demand : Demand)
    (location : Option Location) : CheckM TypeId := do
  modify fun c => c.log (.asked c.worker ⟨symbol, args⟩ demand)
  let id ← resolveKey env descent ⟨symbol, args⟩ demand location
  modify (·.log (.answered ⟨symbol, args⟩ demand id))
  return id

/-- The default of a template parameter, with the file in which it is written. -/
def defaultOf (param : Symbol) : Option (FileId × TypeExpr) :=
  match param.declarations.head? with
  | some ⟨location, .templateParameter decl⟩ => decl.default.map (location.file, ·)
  | _ => none

/-- The type of a template parameter that stands for itself. -/
def paramType (param : SymbolId) : CheckM TypeId := do
  match (← get).paramTypes.get? param with
  | some id => return id
  | none =>
    let symbol := env.symbols.symbol param
    let id ← modifyGet (·.placeParam param)
    let default ← match defaultOf symbol with
      | some (file, expr) =>
        let context : Context := { file, scope := symbol.parent, dependent := true }
        some <$> descent.default expr context
      | none => pure none
    finish id (.templateParameter ⟨symbol.name, param, default⟩)
    return id

def paramTypes : List SymbolId → CheckM (List TypeId)
  | [] => return []
  | param :: rest => do
    let id ← paramType env descent param
    return id :: (← paramTypes rest)

/-- The type of a declaration on its own, the parameters of a template standing for themselves. -/
def checkDeclaration (symbol : SymbolId) : CheckM TypeId := do
  let args ← paramTypes env descent (env.symbols.symbol symbol).templateParams
  resolveSymbol env descent symbol args .reference none

/-- Adds the defaults of the parameters that were given no argument. Nothing comes back if one of
them has none or its default is an error. -/
def fillDefaults (template : Symbol) (explicit : Nat) (location : Location) :
    (bound rest : List SymbolId) → List TypeId → CheckM (Option (List TypeId))
  | _, [], args => return some args
  | bound, param :: rest, args => do
    let symbol := env.symbols.symbol param
    match defaultOf symbol with
    | none =>
      let expected := template.templateParams.length
      errorAt .invalidTemplateArgs
        s!"Too few template arguments for '{template.name}': expected {expected}, got {explicit}."
        location
      return none
    | some (file, expr) =>
      match Substitution.ofArguments bound args with
      | .error cause =>
        internalError (.bindingDefaults cause)
        return none
      | .ok subst =>
        let context : Context :=
          { file, scope := symbol.parent, subst, dependent := ← anyDependent args }
        if ← enter (some location) then
          let value ← descent.default expr context
          leave
          if ← isError value then return none
          fillDefaults template explicit location (bound ++ [param]) rest (args ++ [value])
        else return none

def instantiate (template : SymbolId) (args : List TypeId) (location : Location) (demand : Demand) :
    CheckM TypeId := do
  let c ← get
  if args.any c.types.isError then return TypeStore.error
  let symbol := env.symbols.symbol template
  let params := symbol.templateParams
  let explicit := args.length
  if params.length < explicit then
    errorAt .invalidTemplateArgs
      s!"Too many template arguments for '{symbol.name}': expected {params.length}, got {explicit}."
      location
    return TypeStore.error
  match ← fillDefaults env descent symbol explicit location (params.take explicit)
      (params.drop explicit) args with
  | none => return TypeStore.error
  | some args => resolveSymbol env descent template args demand (some location)

end CheckM

end Idl
