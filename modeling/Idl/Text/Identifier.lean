import Idl.Text.Alphabetic
import Idl.Text.Numeric

/-! Which characters make up a name in source text. -/

namespace Idl.Text

/-- A name starts with `_`, `$` or an alphabetic character. -/
def isNameStart (c : Char) : Bool :=
  c == '_' || c == '$' || isAlphabetic c

/-- A name goes on with anything that may start one, and with numeric characters. -/
def isNamePart (c : Char) : Bool :=
  isNameStart c || isNumeric c

end Idl.Text
