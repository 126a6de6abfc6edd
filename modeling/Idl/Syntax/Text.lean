/-!
The text that a string literal stands for.

A literal is written between double quotes. A backslash writes a newline, a tab or a carriage
return before `n`, `t` and `r`, and any other character as itself.
-/

namespace Idl.Syntax

/-- The characters that the inside of a string literal stands for. A backslash at the very end
stands for itself. -/
def unescape : List Char → List Char
  | [] => []
  | '\\' :: [] => ['\\']
  | '\\' :: c :: cs =>
    let written := if c = 'n' then '\n' else if c = 't' then '\t' else if c = 'r' then '\r' else c
    written :: unescape cs
  | c :: cs => c :: unescape cs

def dropOpeningQuote : List Char → List Char
  | '"' :: cs => cs
  | cs => cs

def dropClosingQuote (cs : List Char) : List Char :=
  if cs.getLast? = some '"' then cs.dropLast else cs

/-- The text that a string literal stands for. A literal that was never closed has no closing
quote to drop. -/
def literalText (lexeme : String) : String :=
  String.ofList (unescape (dropClosingQuote (dropOpeningQuote lexeme.toList)))

end Idl.Syntax
