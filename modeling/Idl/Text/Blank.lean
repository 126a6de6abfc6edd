import Idl.Text.Runs

/-! The characters that separate tokens: those with the Unicode property White_Space. -/

namespace Idl.Text

def blankRuns : List Nat :=
  [9, 5, 18, 1, 100, 1, 26, 1, 5599, 1, 2431, 11, 29, 2, 5, 1, 47, 1, 4000, 1]

def isBlank (c : Char) : Bool :=
  inRuns blankRuns c.toNat

end Idl.Text
