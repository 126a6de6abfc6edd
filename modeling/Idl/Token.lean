import Idl.Diagnostic

/-! Tokens: the words, literals and marks that source text is made of. -/

namespace Idl

/-- Words with a meaning of their own. They may still name properties and decorators. -/
inductive Keyword where
  | kwImport
  | kwUsing
  | kwNamespace
  | kwModel
  | kwOp
  | kwInterface
  | kwExtends
  | kwIs
  | kwTrue
  | kwFalse
  | kwVoid
  | kwNever
deriving DecidableEq, Repr

namespace Keyword

/-- How the word is written. -/
def text : Keyword → String
  | kwImport => "import"
  | kwUsing => "using"
  | kwNamespace => "namespace"
  | kwModel => "model"
  | kwOp => "op"
  | kwInterface => "interface"
  | kwExtends => "extends"
  | kwIs => "is"
  | kwTrue => "true"
  | kwFalse => "false"
  | kwVoid => "void"
  | kwNever => "never"

/-- Every word, for going through them. -/
def all : List Keyword :=
  [kwImport, kwUsing, kwNamespace, kwModel, kwOp, kwInterface, kwExtends, kwIs, kwTrue, kwFalse,
   kwVoid, kwNever]

/-- The keyword that a word is, if it is one. -/
def ofText? (word : String) : Option Keyword :=
  all.find? (·.text == word)

end Keyword

/-- Punctuation. -/
inductive Mark where
  | openBrace
  | closeBrace
  | openParen
  | closeParen
  | openBracket
  | closeBracket
  | less
  | greater
  | comma
  | semicolon
  | colon
  | dot
  | ellipsis
  | question
  | atSign
  | bar
  | equals
deriving DecidableEq, Repr

namespace Mark

/-- How the mark is written. -/
def text : Mark → String
  | openBrace => "\x7b"
  | closeBrace => "\x7d"
  | openParen => "("
  | closeParen => ")"
  | openBracket => "["
  | closeBracket => "]"
  | less => "<"
  | greater => ">"
  | comma => ","
  | semicolon => ";"
  | colon => ":"
  | dot => "."
  | ellipsis => "..."
  | question => "?"
  | atSign => "@"
  | bar => "|"
  | equals => "="

/-- The mark of one character. The ellipsis has three, and starts like a dot. -/
def ofChar? : Char → Option Mark
  | '\x7b' => some openBrace
  | '\x7d' => some closeBrace
  | '(' => some openParen
  | ')' => some closeParen
  | '[' => some openBracket
  | ']' => some closeBracket
  | '<' => some less
  | '>' => some greater
  | ',' => some comma
  | ';' => some semicolon
  | ':' => some colon
  | '.' => some dot
  | '?' => some question
  | '@' => some atSign
  | '|' => some bar
  | '=' => some equals
  | _ => none

end Mark

/-- What a token is, without its text. -/
inductive TokenKind where
  | identifier
  | string
  | number
  | keyword (word : Keyword)
  | mark (mark : Mark)
  /-- Stands for text that is no token. -/
  | invalid
  | endOfFile
deriving DecidableEq, Repr

namespace TokenKind

/-- How messages call a token of this kind. -/
def describe : TokenKind → String
  | identifier => "identifier"
  | string => "string literal"
  | number => "number literal"
  | keyword word => s!"'{word.text}'"
  | mark m => s!"'{m.text}'"
  | invalid => "invalid token"
  | endOfFile => "end of file"

/-- Whether the token is one of the words with a meaning of their own. -/
def isKeyword : TokenKind → Bool
  | keyword _ => true
  | _ => false

end TokenKind

/-- A token, with the text it was read from and its place. -/
structure Token where
  kind : TokenKind
  lexeme : String
  span : Span
deriving DecidableEq, Repr

/-- What can be wrong with the text of a token. -/
inductive LexFault where
  | invalidCharacter (c : Char)
  | unterminatedString
  | unterminatedComment
  | invalidNumber (text : String)
deriving DecidableEq, Repr

namespace LexFault

/-- The text of the report. -/
def message : LexFault → String
  | invalidCharacter c => s!"Invalid character '{c}'."
  | unterminatedString => "Unterminated string literal."
  | unterminatedComment => "Unterminated comment."
  | invalidNumber text => s!"Invalid number literal '{text}'."

/-- The code of the report. -/
def code : LexFault → Code
  | invalidCharacter _ => .invalidCharacter
  | unterminatedString => .unterminatedString
  | unterminatedComment => .unterminatedComment
  | invalidNumber _ => .invalidNumber

end LexFault

/-- Something wrong with the text, and where it is. -/
structure LexError where
  fault : LexFault
  span : Span
deriving DecidableEq, Repr

/-- The report of an error in a file. -/
def LexError.diagnostic (file : FileId) (e : LexError) : Diagnostic :=
  .report e.fault.code e.fault.message (some ⟨file, e.span⟩)

end Idl
