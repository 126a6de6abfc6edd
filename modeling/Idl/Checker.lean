import Idl.Checker.Declaration

/-!
Checking a whole program.

Declarations are checked in the order of their symbols. After each of them, what was put off while
it was checked is resolved, the one put off last first.
-/

namespace Idl

namespace CheckM

variable (env : Environment) (descent : Descent)

/-- Takes up a key that was put off, if it still waits. -/
def resume (key : ResolutionKey) : CheckM Unit := do
  match (← get).resolutions.get? key with
  | some (.deferred id) =>
    if ← enter none then
      discard (resolveInto descent key id .reference)
  | _ => return

/-- Resolves what was put off, in at most so many rounds. -/
def resolveDeferred : Nat → CheckM Unit
  | 0 => exhausted
  | rounds + 1 => do
    let c ← get
    match c.deferred with
    | [] => return
    | key :: rest =>
      set { c with deferred := rest }
      resume descent key
      resolveDeferred rounds

/-- Reports decorators on a namespace, which has no type for them. -/
def rejectDecorators : List Application → CheckM Unit
  | [] => return
  | application :: rest => do
    report (.report .invalidDecoratorTarget
      s!"@{application.name} cannot be applied to a namespace." application.location)
    rejectDecorators rest

/-- Checks the decorators at every place that declares a namespace. -/
def checkNamespace (node : NamespaceId) : List Declaration → CheckM Unit
  | [] => return
  | ⟨location, .space head⟩ :: rest => do
    let context : Context := { file := location.file, scope := .space node }
    rejectDecorators (← decoratorList env descent head.decorators context)
    checkNamespace node rest
  | _ :: rest => checkNamespace node rest

def visit (symbol : Symbol) : CheckM Unit := do
  match symbol.kind with
  | .model | .operation | .interface =>
    let id ← checkDeclaration env descent symbol.id
    modify fun c => { c with symbolTypes := c.symbolTypes.insert symbol.id id }
  | .space => match symbol.node with
    | some node => checkNamespace env descent node symbol.declarations
    | none => return
  | .templateParameter | .decorator => return

/-- Checks one symbol, and what was put off if it is a declaration. -/
def checkSymbol (rounds : Nat) (symbol : Symbol) : CheckM Unit := do
  visit env descent symbol
  if symbol.kind.declares then resolveDeferred descent rounds

def checkSymbols (rounds : Nat) : List Symbol → CheckM Unit
  | [] => resolveDeferred descent rounds
  | symbol :: rest => do
    checkSymbol env descent rounds symbol
    checkSymbols rounds rest

end CheckM

/-- As many levels as checking can go down: one for each resolution inside another, and one for
each template parameter whose default is at work. -/
def Environment.levels (env : Environment) : Nat := CheckM.maxDepth + env.symbols.size + 1

/-- Checks every declaration. There is no result if putting off and resolving again takes more
rounds than were given. -/
def check (env : Environment) (rounds : Nat) : Option Checker :=
  let descent := CheckM.descentOf env env.levels
  ((CheckM.checkSymbols env descent rounds env.symbols.toList).run {}).map (·.2)

end Idl
