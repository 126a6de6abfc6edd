import Idl.Proofs.CheckerGrowth

/-! Which decorators a finished type is stored with, and which of them have been
applied. The applications of a type are listed in the order in which they are due:
those of its properties or parameters first, then its own. The history of a run is
read as a log of the decorators that were applied. -/
namespace Idl
variable {id : TypeId}

/-- What the decorators of a type are applied to: the type itself, and the properties of a model or
of the parameters of an operation. -/
def CheckedType.owns (id : TypeId) (type : CheckedType) : Target → Bool
  | .type other => other = id
  | .property other _ => match type with
    | .model _ => other = id
    | .operation o => other = o.parameters
    | _ => false

/-- The decorators of properties, each with the property of a model that it is applied to. -/
def propertyApplications (model : TypeId) (properties : List Property) :
    List (Application × Target) :=
  properties.flatMap fun property => property.decorators.map (·, .property model property.name)

/-- The decorators that are stored with the type at a place, in the order in which they are due. -/
def TypeStore.applications (types : TypeStore) (id : TypeId) : List (Application × Target) :=
  match types.get? id with
  | some (.model model) =>
    propertyApplications id model.properties ++ model.decorators.map (·, .type id)
  | some (.operation operation) =>
    propertyApplications operation.parameters
        (((types.model? operation.parameters).map ModelType.properties).getD []) ++
      operation.decorators.map (·, .type id)
  | some (.interface interface) => interface.decorators.map (·, .type id)
  | _ => []

/-- A type owns what its decorators are applied to. -/
theorem TypeStore.owns_of_mem_applications {types : TypeStore} (stored : types.get? id = some type)
    (mem : (application, target) ∈ types.applications id) : type.owns id target = true := by
  have own {decorators : List Application}
      (inside : (application, target) ∈ decorators.map (·, Target.type id)) :
      type.owns id target = true := by
    obtain ⟨_, _, same⟩ := List.mem_map.mp inside
    cases same
    simp [CheckedType.owns]
  unfold applications at mem
  rw [stored] at mem
  cases type with
  | model model | operation operation =>
    rcases List.mem_append.mp mem with inside | inside
    · obtain ⟨property, _, applied⟩ := List.mem_flatMap.mp inside
      obtain ⟨_, _, same⟩ := List.mem_map.mp applied
      cases same
      simp [CheckedType.owns]
    · exact own inside
  | interface interface => exact own mem
  | _ => cases mem

namespace Event

def invocation? : Event → Option (Application × Target)
  | .invoked application target => some (application, target)
  | _ => none

/-- Whether an event fills a place. -/
def fills (id : TypeId) : Event → Bool
  | .filled other _ => other = id
  | _ => false

end Event

/-- The decorators that were applied to some targets, in the order in which they were applied. -/
def invocations (history : List Event) (targets : Target → Bool) : List (Application × Target) :=
  (history.reverse.filterMap Event.invocation?).filter fun pair => targets pair.2

theorem invocations_invoked (owned : targets target = true) :
    invocations (.invoked application target :: history) targets =
      invocations history targets ++ [(application, target)] := by
  simp [invocations, List.filterMap_append, Event.invocation?, owned]

theorem invocations_append (later earlier : List Event) :
    invocations (later ++ earlier) targets =
      invocations earlier targets ++ invocations later targets := by
  simp [invocations, List.filterMap_append]

theorem mem_invocations :
    (application, target) ∈ invocations history targets ↔
      .invoked application target ∈ history ∧ targets target = true := by
  have logged : (application, target) ∈ history.reverse.filterMap Event.invocation? ↔
      .invoked application target ∈ history := by
    rw [List.mem_filterMap]
    constructor
    · rintro ⟨event, mem, given⟩
      cases event <;> cases given
      exact List.mem_reverse.mp mem
    · exact fun mem => ⟨_, List.mem_reverse.mpr mem, rfl⟩
  rw [invocations, List.mem_filter, logged]

namespace Checker

/-- What has happened since a place was filled. -/
def sinceFilled (c : Checker) (id : TypeId) : List Event :=
  c.history.takeWhile fun event => !event.fills id

/-- The decorators of a concrete type at a place have been applied since the type was stored, each
once and in order. -/
def Decorated (c : Checker) (id : TypeId) : Prop :=
  ∀ type, c.types.get? id = some type → id ∉ c.dependentTypes →
    invocations (c.sinceFilled id) (type.owns id) = c.types.applications id

/-- The youngest declaration has its type, and some of its decorators are still to be applied. -/
structure Owes (c : Checker) (frame : Frame) (rest : List Frame) (type : CheckedType)
    (left : List (Application × Target)) : Prop where
  idle : c.abandoning = none
  stacked : c.stack = frame :: rest
  stored : c.types.get? frame.id = some type
  concrete : frame.id ∉ c.dependentTypes
  next : c.types.applications frame.id =
    invocations (c.sinceFilled frame.id) (type.owns frame.id) ++ left

/-- Some decorators of a model that is written in place are still to be applied. -/
structure OwesNameless (c : Checker) (id : TypeId) (left : List (Application × Target)) : Prop where
  idle : c.abandoning = none
  nameless : .nameless none id ∈ c.history
  own : ∀ pair ∈ left, pair.2.typeId = id

variable {c : Checker}

/-- One of the decorators that are due is applied. -/
theorem Owes.apply {frame : Frame} (owes : c.Owes frame rest type ((application, target) :: left))
    (annotations : Annotations) (diagnostics : List Diagnostic) :
    { c.log (.invoked application target) with annotations, diagnostics }.Owes frame rest type
      left where
  idle := owes.idle
  stacked := owes.stacked
  stored := owes.stored
  concrete := owes.concrete
  next := by
    have due : (application, target) ∈ c.types.applications frame.id := by
      rw [owes.next]
      simp
    have owned := TypeStore.owns_of_mem_applications owes.stored due
    have since : (c.log (.invoked application target)).sinceFilled frame.id =
        .invoked application target :: c.sinceFilled frame.id := by
      simp [sinceFilled, log, Event.fills]
    show c.types.applications frame.id = invocations
      ((c.log (.invoked application target)).sinceFilled frame.id) (type.owns frame.id) ++ left
    rw [since, invocations_invoked owned, owes.next, List.append_assoc]
    rfl

theorem OwesNameless.apply (owes : c.OwesNameless id ((application, target) :: left))
    (annotations : Annotations) (diagnostics : List Diagnostic) :
    { c.log (.invoked application target) with annotations, diagnostics }.OwesNameless id left where
  idle := owes.idle
  nameless := List.mem_cons_of_mem _ owes.nameless
  own := fun pair mem => owes.own pair (List.mem_cons_of_mem _ mem)

/-- All decorators of a model that was just written in place are due. -/
theorem OwesNameless.of_stored {model : ModelType} (idle : c.abandoning = none)
    (nameless : .nameless none id ∈ c.history) (stored : c.types.get? id = some (.model model)) :
    c.OwesNameless id (c.types.applications id) where
  idle := idle
  nameless := nameless
  own := by
    rintro ⟨application, target⟩ mem
    have owned := TypeStore.owns_of_mem_applications stored mem
    cases target with
    | type other | property other name => simpa [CheckedType.owns, Target.typeId] using owned

/-- When nothing is left, everything has been applied. -/
theorem Owes.decorated (owes : c.Owes frame rest type []) : c.Decorated frame.id := by
  intro other stored _
  cases owes.stored.symm.trans stored
  rw [owes.next, List.append_nil]

/-- Right after a type was stored all its decorators are due. -/
theorem sinceFilled_eq_nil {history : List Event} (filled : c.history = .filled id type :: history)
    : c.sinceFilled id = [] := by
  simp [sinceFilled, filled, Event.fills]

end Checker

end Idl
