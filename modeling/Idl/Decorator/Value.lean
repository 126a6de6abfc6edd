import Idl.Number.Binary64
import Idl.Symbol

/-!
What decorators are applied to, and what they are given.

Values and targets have a total order: kinds in the order in which they are listed here, then by
content. Texts are ordered by code points, and numbers as the reals with every NaN as the greatest,
so that two zeros, or two NaNs, stand at the same place.
-/

namespace Idl

structure TypeId where
  index : Nat
deriving DecidableEq, Repr

/-- An argument of a decorator after it has been resolved. -/
inductive Value where
  | string (text : String)
  | number (value : Binary64)
  | boolean (flag : Bool)
  | type (id : TypeId)
deriving DecidableEq, Repr

namespace Value

def kindName : Value → String
  | string _ => "string"
  | number _ => "number"
  | boolean _ => "boolean"
  | type _ => "type"

def text? : Value → Option String
  | string text => some text
  | _ => none

def number? : Value → Option Binary64
  | number value => some value
  | _ => none

def type? : Value → Option TypeId
  | type id => some id
  | _ => none

def kindRank : Value → Nat
  | string _ => 0
  | number _ => 1
  | boolean _ => 2
  | type _ => 3

def compare : Value → Value → Ordering
  | string a, string b => Ord.compare a b
  | number a, number b => a.compare b
  | boolean a, boolean b => Ord.compare a b
  | type a, type b => Ord.compare a.index b.index
  | a, b => Ord.compare a.kindRank b.kindRank

/-- Whether two values stand at the same place in the order. -/
def same (a b : Value) : Bool := (a.compare b).isEq

def le (a b : Value) : Bool := (a.compare b).isLE

end Value

inductive Target where
  | type (id : TypeId)
  /-- A property of a model, or a parameter of an operation. -/
  | property (model : TypeId) (name : String)
deriving DecidableEq, Repr

namespace Target

/-- The type that the target is, or of which it is a part. -/
def typeId : Target → TypeId
  | type id => id
  | property model _ => model

def compare : Target → Target → Ordering
  | type a, type b => Ord.compare a.index b.index
  | type _, property _ _ => .lt
  | property _ _, type _ => .gt
  | property a x, property b y => (Ord.compare a.index b.index).then (Ord.compare x y)

end Target

/-- A decorator as it is written, with resolved arguments. It is kept on what it decorates, so that
it can be applied again to a copy. -/
structure Application where
  decorator : DecoratorId
  name : String
  args : List Value
  location : Option Location
deriving DecidableEq, Repr

end Idl
