import Idl.Dictionary

/-!
Settings of a compilation, and option texts that override them.

An option text is `key=value`, which sets a free option, or `emitter.key=value`, which sets an
option of one emitter. Texts are taken in order, so a later text wins over an earlier one, and the
first text of another form is the one reported.
-/

namespace Idl

abbrev OptionBag := Dictionary String String

abbrev EmitterBags := Dictionary String OptionBag

structure Options where
  nostdlib : Bool := false
  warningAsError : Bool := false
  /-- Files that are loaded before the entry file. -/
  additionalImports : List String := []
  /-- The areas that are traced; `*` stands for all of them. -/
  trace : List String := []
  /-- Free options, for decorators to read. -/
  misc : OptionBag := {}

/-- Whether the steps of an area are written to the log. -/
def Options.traces (options : Options) (area : String) : Bool :=
  options.trace.any fun name => name == "*" || name == area

structure Overrides where
  misc : OptionBag := {}
  emitters : EmitterBags := {}

inductive OverrideError where
  | malformed (text : String)
  /-- The text has the form of an option, and a part of its key is empty. -/
  | emptyKey (text : String)
deriving DecidableEq, Repr

def OverrideError.message : OverrideError → String
  | malformed text =>
    s!"option value \"{text}\" must be in the format: <emitterName>.some-option=value"
  | emptyKey text => s!"option value \"{text}\" has an empty key"

namespace Overrides

inductive Setting where
  | misc (key value : String)
  | emitter (emitter key value : String)
deriving DecidableEq, Repr

/-- Reads an option text. An empty part of the key is looked for before the parts are counted. -/
def Setting.read (text : String) : Except OverrideError Setting :=
  match text.toList.splitOn '=' with
  | [key, value] =>
    let parts := key.splitOn '.'
    if [] ∈ parts then .error (.emptyKey text)
    else match parts with
      | [key] => .ok (.misc (String.ofList key) (String.ofList value))
      | [owner, key] =>
        .ok (.emitter (String.ofList owner) (String.ofList key) (String.ofList value))
      | _ => .error (.malformed text)
  | _ => .error (.malformed text)

/-- Adds a setting, which wins over earlier ones of the same option. -/
def add (overrides : Overrides) : Setting → Overrides
  | .misc key value => ⟨overrides.misc.insert key value, overrides.emitters⟩
  | .emitter emitter key value =>
    let bag := (overrides.emitters.getD emitter {}).insert key value
    ⟨overrides.misc, overrides.emitters.insert emitter bag⟩

def read (texts : List String) : Except OverrideError Overrides := do
  return (← texts.mapM Setting.read).foldl add {}

/-- The emitters to run with their options: the selected ones, or all configured ones without a
selection. What is configured comes first and the overrides are laid over it. -/
def emittersToRun (overrides : Overrides) (configured : EmitterBags)
    (selected : Option (List String)) : EmitterBags :=
  let names := selected.getD configured.keys
  Dictionary.ofList (names.map fun name =>
    (name, (configured.getD name {}).layer (overrides.emitters.getD name {})))

end Overrides

end Idl
