/-! Sets of characters, given by runs of code points. -/

namespace Idl.Text

/-- Whether a code point lies in a set. The list has the lengths of the runs of code points outside
the set and inside it, in turn, from the code point 0 on. -/
def inRuns : List Nat → Nat → Bool
  | outside :: inside :: rest, code =>
    if code < outside then false
    else if code < outside + inside then true
    else inRuns rest (code - (outside + inside))
  | _, _ => false

end Idl.Text
