import Idl.Decorator.Library

/-!
The decorators that every program has, unless it is told otherwise.
-/

namespace Idl.Builtin

/-! The keys under which the decorators record their values. -/

def docKey : String := "doc"
def summaryKey : String := "summary"
def intrinsicKey : String := "intrinsic"
def keyKey : String := "key"
def tagKey : String := "tag"
def deprecatedKey : String := "deprecated"
def testKey : String := "test"

def keys : List String :=
  [docKey, summaryKey, intrinsicKey, keyKey, tagKey, deprecatedKey, testKey]

/-- Records the one argument, a text. -/
def setText (key : String) : Handler := fun invocation => do
  if ← invocation.expectArgCount 1 1 then
    if let some text ← invocation.stringArg 0 then
      invocation.set key (.string text)

/-- Records the argument, or the name of the property without one. -/
def key : Handler := fun invocation => do
  if ← invocation.expectArgCount 0 1 then
    match invocation.target, invocation.args with
    | .type _, _ => return
    | .property _ name, [] => invocation.set keyKey (.string name)
    | .property _ _, _ =>
      if let some text ← invocation.stringArg 0 then
        invocation.set keyKey (.string text)

/-- Adds the one argument, a text, to those recorded. -/
def tag : Handler := fun invocation => do
  if ← invocation.expectArgCount 1 1 then
    if let some text ← invocation.stringArg 0 then
      invocation.push tagKey (.string text)

/-- Makes the target a test, under the argument or else under its own name. -/
def test : Handler := fun invocation => do
  if ← invocation.expectArgCount 0 1 then
    match invocation.args with
    | [] => match invocation.targetType?.bind CheckedType.name? with
      | some name => invocation.set testKey (.string name)
      | none =>
        invocation.report .invalidArgument "@test on an unnamed type needs an explicit name."
    | _ =>
      if let some text ← invocation.stringArg 0 then
        invocation.set testKey (.string text)

def library : Library :=
  let declared : Targets := ⟨true, true, true, false⟩
  ⟨[⟨"doc", .any, setText docKey⟩,
    ⟨"summary", declared, setText summaryKey⟩,
    ⟨"intrinsic", ⟨true, false, false, false⟩, setText intrinsicKey⟩,
    ⟨"key", ⟨false, false, false, true⟩, key⟩,
    ⟨"tag", ⟨false, true, true, false⟩, tag⟩,
    ⟨"deprecated", .any, setText deprecatedKey⟩,
    ⟨"test", declared, test⟩]⟩

end Idl.Builtin
