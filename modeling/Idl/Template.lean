import Idl.Decorator.Value
import Idl.Dictionary

/-!
Templates: which arguments stand for which parameters, and which instances have been made.

An instance is known by its template and its arguments, so that the same arguments always give the
same type.
-/

namespace Idl

abbrev Substitution := Dictionary SymbolId TypeId

/-- A template was given the wrong number of arguments. -/
structure CountMismatch where
  expected : Nat
  got : Nat
deriving DecidableEq, Repr

def CountMismatch.message (e : CountMismatch) : String :=
  s!"expected {e.expected} template argument(s) but got {e.got}"

/-- Lets each argument stand for the parameter at its place. -/
def Substitution.ofArguments (params : List SymbolId) (args : List TypeId) :
    Except CountMismatch Substitution :=
  if params.length = args.length then .ok (Dictionary.ofList (params.zip args))
  else .error ⟨params.length, args.length⟩

namespace Substitution
variable {params : List SymbolId} {args : List TypeId} {subst : Substitution}

theorem ofArguments_of_length (count : params.length = args.length) :
    ofArguments params args = .ok (Dictionary.ofList (params.zip args)) :=
  if_pos count

/-- What stands for a parameter is one of the arguments. -/
theorem mem_of_get? (binds : ofArguments params args = .ok subst) {param : SymbolId} {id : TypeId}
    (value : Dictionary.get? subst param = some id) : id ∈ args := by
  unfold ofArguments at binds
  split at binds
  · cases binds
    exact (List.of_mem_zip (Dictionary.mem_of_get?_ofList value)).2
  · cases binds

/-- Something stands for each parameter. -/
theorem get?_ne_none (binds : ofArguments params args = .ok subst) {param : SymbolId}
    (listed : param ∈ params) : Dictionary.get? subst param ≠ none := by
  unfold ofArguments at binds
  split at binds
  · rename_i count
    cases binds
    refine Dictionary.get?_ofList_ne_none ?_
    rw [List.map_fst_zip (Nat.le_of_eq count)]
    exact listed
  · cases binds

end Substitution

structure Instances where
  latest : Dictionary (SymbolId × List TypeId) TypeId := {}
  /-- The first instance for each template and arguments, with its template, oldest first. -/
  created : List (SymbolId × TypeId) := []

namespace Instances

/-- Takes note of an instance. One more for the same arguments takes the place of the one before,
which stays in the list of those created. -/
def insert (instances : Instances) (template : SymbolId) (args : List TypeId) (instanceId : TypeId) :
    Instances :=
  let created := if instances.latest.contains (template, args) then instances.created
    else instances.created ++ [(template, instanceId)]
  ⟨instances.latest.insert (template, args) instanceId, created⟩

def get? (instances : Instances) (template : SymbolId) (args : List TypeId) : Option TypeId :=
  instances.latest.get? (template, args)

def contains (instances : Instances) (template : SymbolId) (args : List TypeId) : Bool :=
  instances.latest.contains (template, args)

def of (instances : Instances) (template : SymbolId) : List TypeId :=
  (instances.created.filter (·.1 = template)).map (·.2)

def size (instances : Instances) : Nat := instances.latest.size

def isEmpty (instances : Instances) : Bool := instances.latest.entries.isEmpty

end Instances

end Idl
