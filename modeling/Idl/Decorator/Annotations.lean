import Idl.Decorator.Value
import Idl.Dictionary

/-!
What decorators have recorded.

Decorators never change types. They record values here, under a key of their own, for the target
that they are applied to. Under each key the targets are kept in order.
-/

namespace Idl

/-- Targets in order, each with the values recorded for it, oldest first. -/
abbrev TargetValues := List (Target × List Value)

/-- Changes the values of a target; a target without values has none to begin with. -/
def TargetValues.update (target : Target) (change : List Value → List Value) :
    TargetValues → TargetValues
  | [] => [(target, change [])]
  | (t, values) :: rest => match target.compare t with
    | .lt => (target, change []) :: (t, values) :: rest
    | .eq => (t, change values) :: rest
    | .gt => (t, values) :: update target change rest

structure Annotations where
  byKey : Dictionary String TargetValues := {}

namespace Annotations

def targets (annotations : Annotations) (key : String) : TargetValues := annotations.byKey.getD key []

/-- Every value of a target, oldest first. -/
def all (annotations : Annotations) (key : String) (target : Target) : List Value :=
  ((annotations.targets key).find? (·.1 = target)).elim [] (·.2)

/-- The oldest value of a target. -/
def get? (annotations : Annotations) (key : String) (target : Target) : Option Value :=
  (annotations.all key target).head?

def contains (annotations : Annotations) (key : String) (target : Target) : Bool :=
  !(annotations.all key target).isEmpty

def updateAt (annotations : Annotations) (key : String) (target : Target)
    (change : List Value → List Value) : Annotations :=
  ⟨annotations.byKey.insert key ((annotations.targets key).update target change)⟩

/-- Records a value in place of all earlier ones. -/
def set (annotations : Annotations) (key : String) (target : Target) (value : Value) : Annotations :=
  annotations.updateAt key target fun _ => [value]

def push (annotations : Annotations) (key : String) (target : Target) (value : Value) :
    Annotations :=
  annotations.updateAt key target fun values => values ++ [value]

end Annotations

end Idl
