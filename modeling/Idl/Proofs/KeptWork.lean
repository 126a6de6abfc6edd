import Idl.Proofs.CheckerGrowth

/-! Work on a declaration may be given up and done again later. What a type
expression gave is kept if the declaration in whose work it was evaluated was not
put off since. The places that the text of a declaration under work gives are made
of its arguments, of other declarations, of what was kept in its own work, and of
the parts of such types. -/
namespace Idl

/-- The places that a type leads to: by the properties of a model, the models it is built on, the
parameters, the result and the source of an operation, the operations of an interface that have no
parameters, the options of a union and the arguments of an instance. -/
inductive CheckedType.Leads (env : Environment) : CheckedType → TypeId → Prop where
  | property {model : ModelType} {property : Property} (mem : property ∈ model.properties) :
      Leads env (.model model) property.type
  | base {model : ModelType} {id} (given : model.base = some id) : Leads env (.model model) id
  | source {model : ModelType} {id} (given : model.source = some id) : Leads env (.model model) id
  | argument {model : ModelType} {made id} (given : model.template = some made)
      (mem : id ∈ made.arguments) : Leads env (.model model) id
  | parameters {operation : OperationType} : Leads env (.operation operation) operation.parameters
  | returns {operation : OperationType} : Leads env (.operation operation) operation.returns
  | signature {operation : OperationType} {id} (given : operation.source = some id) :
      Leads env (.operation operation) id
  | operationArgument {operation : OperationType} {made id} (given : operation.template = some made)
      (mem : id ∈ made.arguments) : Leads env (.operation operation) id
  | operation {interface : InterfaceType} {symbol operation entry}
      (given : interface.symbol = some symbol)
      (mem : (operation, entry) ∈ (env.symbols.members symbol).zip interface.operations)
      (plain : (env.symbols.symbol operation).templated = false) :
      Leads env (.interface interface) entry.2
  | option {options id} (mem : id ∈ options) : Leads env (.union options) id

namespace Checker

/-- The type at one place leads to another place. -/
def Links (env : Environment) (c : Checker) (id other : TypeId) : Prop :=
  ∃ type, c.types.get? id = some type ∧ type.Leads env other

/-- Something happened in the work on a key, if on any, and the key was not put off since. -/
def Keeps (c : Checker) (worker : Option ResolutionKey) (event : Event) : Prop :=
  ∃ later earlier, c.history = later ++ event :: earlier ∧
    ∀ key ∈ worker, ∀ id, .changed key (.deferred id) ∉ later

/-- The second state has everything of the first, and what was kept in the work on a key is kept. -/
structure Retains (worker : Option ResolutionKey) (before after : Checker) : Prop where
  grows : Grows before after
  keeps : ∀ event, before.Keeps worker event → after.Keeps worker event

/-- A place is what a type expression gave in the work on a key, and that work was not given up. -/
def Yields (c : Checker) (worker : Option ResolutionKey) (id : TypeId) : Prop :=
  ∃ expr, c.Keeps worker (.evaluated worker expr id)

/-- A place that the text of the youngest declaration under work may give: one of its arguments, the
place of an intrinsic type, of a template parameter or of a declaration without parameters, what was
kept in the work on it, or a part of such a type. -/
inductive Made (env : Environment) (c : Checker) : TypeId → Prop where
  | given {frame rest id} (stacked : c.stack = frame :: rest) (mem : id ∈ frame.key.args) :
      Made env c id
  | intrinsic (kind : Intrinsic) : Made env c (TypeStore.intrinsic kind)
  | error : Made env c TypeStore.error
  | param {param id} (own : c.paramTypes.get? param = some id) : Made env c id
  | plain {symbol id} (placed : c.Placed ⟨symbol, []⟩ id) : Made env c id
  | applied {key id} (placed : c.Placed key id) (kept : c.Yields c.worker id)
      (args : ∀ arg ∈ key.args, Made env c arg) : Made env c id
  | union {options id} (stored : c.types.unions.get? options = some id)
      (parts : ∀ option ∈ options, Made env c option) : Made env c id
  | model {properties id} (stored : c.types.get? id = some (.model { properties }))
      (kept : c.Yields c.worker id) (parts : ∀ property ∈ properties, Made env c property.type) :
      Made env c id
  | parameters {operation properties id} (stored : c.types.get? id = some (.model { properties }))
      (nameless : .nameless (some operation) id ∈ c.history)
      (parts : ∀ property ∈ properties, Made env c property.type) : Made env c id
  | part {id other} (whole : Made env c id) (link : c.Links env id other) : Made env c other

/-- A place that counts as made once it is written down that an expression gave it. -/
inductive Ripe (env : Environment) (c : Checker) (id : TypeId) : Prop where
  | made (already : c.Made env id)
  | applied {key} (placed : c.Placed key id) (args : ∀ arg ∈ key.args, c.Made env arg)
  | model {properties} (stored : c.types.get? id = some (.model { properties }))
      (parts : ∀ property ∈ properties, c.Made env property.type)

variable {before after : Checker} {worker : Option ResolutionKey} {id : TypeId}

/-- What was kept stays kept until the key is put off. -/
theorem Keeps.later (history : after.history = added ++ before.history)
    (spared : ∀ key ∈ worker, ∀ place, .changed key (.deferred place) ∉ added)
    (keeps : before.Keeps worker event) : after.Keeps worker event := by
  obtain ⟨later, earlier, split, still⟩ := keeps
  refine ⟨added ++ later, earlier, by rw [history, split, List.append_assoc], ?_⟩
  intro key own place mem
  rcases List.mem_append.mp mem with new | old
  · exact spared key own place new
  · exact still key own place old

theorem Keeps.mem (keeps : before.Keeps worker event) : event ∈ before.history := by
  obtain ⟨later, earlier, split, _⟩ := keeps
  simp [split]

theorem Keeps.log (c : Checker) (worker : Option ResolutionKey) (event : Event) :
    (c.log event).Keeps worker event :=
  ⟨[], c.history, rfl, by simp⟩

theorem Yields.later (history : after.history = added ++ before.history)
    (spared : ∀ key ∈ worker, ∀ place, .changed key (.deferred place) ∉ added)
    (yields : before.Yields worker id) : after.Yields worker id := by
  obtain ⟨expr, keeps⟩ := yields
  exact ⟨expr, keeps.later history spared⟩

/-- What is made stays made as long as the youngest declaration is not put off. -/
theorem Made.later (grown : Grows before after) (stack : after.stack = before.stack)
    (history : after.history = added ++ before.history)
    (spared : ∀ key ∈ before.worker, ∀ place, .changed key (.deferred place) ∉ added)
    (made : before.Made env id) : after.Made env id := by
  have kept {id : TypeId} (yields : before.Yields before.worker id) :
      after.Yields after.worker id := by
    have same : after.worker = before.worker := by rw [worker, worker, stack]
    rw [same]
    exact yields.later history spared
  induction made with
  | given stacked mem => exact .given (stack.trans stacked) mem
  | intrinsic kind => exact .intrinsic kind
  | error => exact .error
  | param own => exact .param (grown.params _ _ own)
  | plain placed => exact .plain (grown.placed placed)
  | applied placed yields _ ih => exact .applied (grown.placed placed) (kept yields) ih
  | union stored _ ih => exact .union (grown.unions _ _ stored) ih
  | model stored yields _ ih => exact .model (grown.filled _ _ stored) (kept yields) ih
  | parameters stored nameless _ ih =>
    exact .parameters (grown.filled _ _ stored) (grown.history.subset nameless) ih
  | part _ link ih =>
    obtain ⟨type, found, leads⟩ := link
    exact .part ih ⟨type, grown.filled _ type found, leads⟩

end Checker

end Idl
