import Idl.Syntax.Parser
import Idl.Syntax.Text

/-!
Reading type expressions, members and decorators.

    TYPE      := '|'? PRIMARY ('|' PRIMARY)*
    PRIMARY   := (PATH ('<' (TYPE (',' TYPE)* ','?)? '>')? | 'void' | 'never'
                 | '{' MEMBERS '}' | '(' TYPE ')') ('[' ']')*
    MEMBERS   := (DECORATOR* PROPNAME '?'? ':' TYPE | '...' TYPE) separated by ';' or ','
    DECORATOR := '@' NAME ('.' NAME)* ('(' ARGS ')')?

The readers call each other, so they take the number of steps that may be nested and stop with
`Reply.exhausted` when it is used up. A member that is broken is skipped and the rest of its list
is read on.
-/

namespace Idl.Syntax.Parser

/-- A name that is no keyword. -/
def ident : Parser Ident := do
  let token ← expect .identifier
  return ⟨token.lexeme, token.span⟩

/-- A name, keywords included. -/
def anyName : Parser Ident := do
  if (← kind).isKeyword then
    let token ← advance
    return ⟨token.lexeme, token.span⟩
  else ident

/-- The name of a property: a name, a keyword or a string literal. -/
def propertyName : Parser Ident := do
  if ← check .string then
    let token ← advance
    return ⟨literalText token.lexeme, token.span⟩
  else anyName

/-- What is left of a dotted path, each name read by `name`. -/
def pathTail (name : Parser Ident) : Nat → Parser (List Ident)
  | 0 => exhausted
  | n + 1 => do
    if ← eat (.mark .dot) then
      let head ← name
      let tail ← pathTail name n
      return head :: tail
    else return []

def path (name : Parser Ident) (n : Nat) : Parser DottedName := do
  let head ← name
  let tail ← pathTail name n
  return ⟨head, tail⟩

/-- Skips past the next separator of members, but not past a closing mark. The depth counts the
braces and parentheses opened on the way. -/
def skipMember (close : Mark) : Nat → Nat → Parser Unit
  | 0, _ => exhausted
  | n + 1, depth => do
    let kind ← kind
    if kind = .endOfFile then return
    else if kind = .mark close ∧ depth = 0 then return
    else if (kind = .mark .semicolon ∨ kind = .mark .comma) ∧ depth = 0 then
      let _ ← advance
    else if kind = .mark .openBrace ∨ kind = .mark .openParen then
      let _ ← advance
      skipMember close n (depth + 1)
    else if kind = .mark .closeBrace ∨ kind = .mark .closeParen then
      if depth = 0 then return
      else
        let _ ← advance
        skipMember close n (depth - 1)
    else
      let _ ← advance
      skipMember close n depth

/-- Wraps a type for every pair of brackets that follows it. -/
def arraySuffix (start : Span) : Nat → TypeExpr → Parser TypeExpr
  | 0, _ => exhausted
  | n + 1, type => do
    if ← eat (.mark .openBracket) then
      let _ ← expect (.mark .closeBracket)
      arraySuffix start n (.array type (← spanFrom start))
    else return type

/-- Gives a member that has been read, with the separator after it, which may be missing before the
closing mark. -/
def endMember (close : Mark) (member : Member) : Parser Member := do
  if ← eat (.mark .semicolon) then return member
  else if ← eat (.mark .comma) then return member
  else if ← check (.mark close) then return member
  else expected s!"';', ',' or {(TokenKind.mark close).describe}"

mutual

def typeExpr : Nat → Parser TypeExpr
  | 0 => exhausted
  | n + 1 => do
    let start := (← current).span
    let _ ← eat (.mark .bar)
    let first ← primary n
    if ← check (.mark .bar) then
      let rest ← options n
      return .union first rest (← spanFrom start)
    else return first

def options : Nat → Parser (List TypeExpr)
  | 0 => exhausted
  | n + 1 => do
    if ← eat (.mark .bar) then
      let head ← primary n
      let tail ← options n
      return head :: tail
    else return []

/-- A type that is no union, or one in parentheses, with its brackets. -/
def primary : Nat → Parser TypeExpr
  | 0 => exhausted
  | n + 1 => do
    let start := (← current).span
    let type ← match ← kind with
      | .keyword .kwVoid => do
        let _ ← advance
        Parser.pure (.intrinsic .void start)
      | .keyword .kwNever => do
        let _ ← advance
        Parser.pure (.intrinsic .never start)
      | .mark .openBrace => do
        let _ ← advance
        let members ← members .closeBrace n
        let _ ← expect (.mark .closeBrace)
        Parser.pure (.model members (← spanFrom start))
      | .mark .openParen => do
        let _ ← advance
        let inner ← typeExpr n
        let _ ← expect (.mark .closeParen)
        Parser.pure inner
      | .identifier => reference n
      | _ => expected "Type"
    arraySuffix start n type

def reference : Nat → Parser TypeExpr
  | 0 => exhausted
  | n + 1 => do
    let start := (← current).span
    let path ← path ident n
    if ← eat (.mark .less) then
      let args ← typeArgs n
      let _ ← expect (.mark .greater)
      return .reference path args true (← spanFrom start)
    else return .reference path [] false (← spanFrom start)

def typeArgs : Nat → Parser (List TypeExpr)
  | 0 => exhausted
  | n + 1 => do
    if ← check (.mark .greater) then return []
    else
      let head ← typeExpr n
      if ← eat (.mark .comma) then
        let tail ← typeArgs n
        return head :: tail
      else return [head]

/-- Members up to the closing mark, which stays. -/
def members (close : Mark) : Nat → Parser (List Member)
  | 0 => exhausted
  | n + 1 => do
    update (·.startRound close)
    let kind ← kind
    if kind = .mark close ∨ kind = .endOfFile then return []
    else
      match ← attempt (member close n) with
      | some head =>
        let tail ← members close n
        return head :: tail
      | none =>
        skipMember close n 0
        members close n

/-- A member with what ends it. -/
def member (close : Mark) : Nat → Parser Member
  | 0 => exhausted
  | n + 1 => do
    let start := (← current).span
    let member ←
      if ← eat (.mark .ellipsis) then do
        let target ← typeExpr n
        Parser.pure (Member.spread target (← spanFrom start))
      else do
        let decorators ← decorators n
        let name ← propertyName
        let optional ← eat (.mark .question)
        let _ ← expect (.mark .colon)
        let type ← typeExpr n
        Parser.pure (Member.property decorators name optional type (← spanFrom start))
    endMember close member

def decorators : Nat → Parser (List DecoratorExpr)
  | 0 => exhausted
  | n + 1 => do
    let start := (← current).span
    if ← eat (.mark .atSign) then
      let path ← path anyName n
      let args ←
        if ← eat (.mark .openParen) then do
          let args ← decoratorArgs n
          let _ ← expect (.mark .closeParen)
          Parser.pure args
        else Parser.pure []
      let head := DecoratorExpr.use path args (← spanFrom start)
      let tail ← decorators n
      return head :: tail
    else return []

def decoratorArgs : Nat → Parser (List DecoratorArg)
  | 0 => exhausted
  | n + 1 => do
    if ← check (.mark .closeParen) then return []
    else
      let head ← decoratorArg n
      if ← eat (.mark .comma) then
        let tail ← decoratorArgs n
        return head :: tail
      else return [head]

def decoratorArg : Nat → Parser DecoratorArg
  | 0 => exhausted
  | n + 1 => do
    let token ← current
    match token.kind with
    | .string =>
      let _ ← advance
      return .literal (.string (literalText token.lexeme)) token.span
    | .number =>
      match Decimal.ofChars? token.lexeme.toList with
      | some decimal =>
        let _ ← advance
        return .literal (.number decimal.toBinary64) token.span
      | none =>
        report .invalidNumber (LexFault.invalidNumber token.lexeme).message token.span
        giveUp
    | .keyword .kwTrue =>
      let _ ← advance
      return .literal (.boolean true) token.span
    | .keyword .kwFalse =>
      let _ ← advance
      return .literal (.boolean false) token.span
    | _ =>
      let type ← typeExpr n
      return .type type

end

end Idl.Syntax.Parser
