import Idl.Syntax.Script

/-!
The standard library: the scalar types, and the arrays that `T[]` stands for.
-/

namespace Idl.StandardLibrary

/-- The path under which the library is listed among the files of a program. -/
def path : String := "<stdlib>/lib.cadl"

/-- The declaration of a scalar type, tagged with the name that emitters know it by. -/
def scalar (name : String) : String := s!"@intrinsic(\"{name}\") model {name} \x7b\x7d"

def lines : List String :=
  ["// Built-in scalar models. Each is a plain model tagged with the name emitters",
   "// map it to; `void` and `never` are keywords, not declarations.",
   ""] ++
  ["bytes", "string", "boolean"].map scalar ++ [""] ++
  ["int8", "int16", "int32", "int64", "uint8", "uint16", "uint32", "uint64", "safeint", "float32",
   "float64"].map scalar ++ [""] ++
  ["plainDate", "plainTime", "zonedDateTime", "duration"].map scalar ++
  ["",
   "// Target of the `T[]` shorthand.",
   "model Array<T> \x7b\x7d"]

def source : String := String.join (lines.map (· ++ "\n"))

/-- The library as it is read, with what is found wrong with it. -/
def parsed : Script × List Diagnostic :=
  (Script.read .library source).getD (⟨.library, [], []⟩, [])

def script : Script := parsed.1

end Idl.StandardLibrary
