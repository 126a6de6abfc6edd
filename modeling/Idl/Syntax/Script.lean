import Idl.Syntax.TypeExpr

/-!
Reading declarations and whole files.

    SCRIPT    := (IMPORT | ITEM)*
    IMPORT    := 'import' STRING ';'
    ITEM      := ';' | 'using' PATH ';'
               | DECORATOR* ('namespace' PATH ('{' ITEM* '}' | ';' ITEM*) | 'model' MODEL
                            | 'op' OPERATION | 'interface' NAME '{' (DECORATOR* 'op'? OPERATION)* '}')
    MODEL     := NAME TEMPLATE? ('is' TYPE | 'extends' TYPE)? ('{' MEMBERS '}' | ';')
    OPERATION := NAME TEMPLATE? ('(' MEMBERS ')')? ':' TYPE ';'
    TEMPLATE  := '<' NAME ('=' TYPE)? (',' NAME ('=' TYPE)?)* '>'

After an error the reader skips to the end of the statement and goes on, so that a file always
gives what can be saved of it. `Script.read` reads a file; it has no answer only where reading
would go round for ever.
-/

namespace Idl.Syntax.Parser

/-- Skips to the end of the current statement: past a semicolon or a block, or up to a token that
starts another statement. A closing brace belongs to the enclosing block and stays; outside of any
block one that stands first is skipped. `skipped` says whether a token has been skipped already,
and the depth counts open braces. -/
def skipStatement (topLevel : Bool) : Nat → Nat → Bool → Parser Unit
  | 0, _, _ => exhausted
  | n + 1, depth, skipped => do
    match ← kind with
    | .endOfFile => return
    | .mark .semicolon =>
      let _ ← advance
      if depth = 0 then return else skipStatement topLevel n depth true
    | .mark .openBrace =>
      let _ ← advance
      skipStatement topLevel n (depth + 1) true
    | .mark .closeBrace =>
      if depth = 0 then
        if topLevel ∧ ¬ skipped then
          let _ ← advance
      else
        let _ ← advance
        if depth = 1 then return else skipStatement topLevel n (depth - 1) true
    | .keyword .kwModel | .keyword .kwOp | .keyword .kwInterface | .keyword .kwNamespace
    | .keyword .kwImport | .keyword .kwUsing | .mark .atSign =>
      if depth = 0 ∧ skipped then return
      else
        let _ ← advance
        skipStatement topLevel n depth true
    | _ =>
      let _ ← advance
      skipStatement topLevel n depth true

/-- Template parameters after the opening mark, with the closing mark. -/
def templateParamList : Nat → Parser (List TemplateParam)
  | 0 => exhausted
  | n + 1 => do
    let name ← ident
    let default ←
      if ← eat (.mark .equals) then do
        let type ← typeExpr n
        Parser.pure (some type)
      else Parser.pure none
    let head : TemplateParam := ⟨name, default, ← spanFrom name.span⟩
    if ← eat (.mark .comma) then
      let tail ← templateParamList n
      return head :: tail
    else
      let _ ← expect (.mark .greater)
      return [head]

def templateParams (n : Nat) : Parser (List TemplateParam) := do
  if ← eat (.mark .less) then templateParamList n else return []

def heritage (n : Nat) : Parser Heritage := do
  if ← eat (.keyword .kwIs) then
    let source ← typeExpr n
    return .is source
  else if ← eat (.keyword .kwExtends) then
    let base ← typeExpr n
    return .extends base
  else return .plain

/-- The body of a model. After `is` it may be missing. -/
def modelBody (heritage : Heritage) (n : Nat) : Parser (List Member) := do
  let bodyless ← match heritage with
    | .is _ => eat (.mark .semicolon)
    | _ => Parser.pure false
  if bodyless then return []
  else
    let _ ← expect (.mark .openBrace)
    let members ← members .closeBrace n
    let _ ← expect (.mark .closeBrace)
    return members

def model (decorators : List DecoratorExpr) (start : Span) (n : Nat) : Parser ModelDecl := do
  let _ ← expect (.keyword .kwModel)
  let name ← ident
  let params ← templateParams n
  let heritage ← heritage n
  let members ← modelBody heritage n
  return ⟨decorators, name, params, heritage, members, ← spanFrom start⟩

def signature (n : Nat) : Parser Signature := do
  let start := (← current).span
  if ← eat (.mark .openParen) then
    let parameters ← members .closeParen n
    let _ ← expect (.mark .closeParen)
    let parametersSpan ← spanFrom start
    let _ ← expect (.mark .colon)
    let returns ← typeExpr n
    return .written parameters parametersSpan returns
  else if ← eat (.mark .colon) then
    let source ← typeExpr n
    return .reuse source
  else expected "'(' or ':'"

def operation (decorators : List DecoratorExpr) (start : Span) (n : Nat) :
    Parser OperationDecl := do
  let name ← ident
  let params ← templateParams n
  let signature ← signature n
  let _ ← expect (.mark .semicolon)
  return ⟨decorators, name, params, signature, ← spanFrom start⟩

/-- An operation of an interface, with its decorators; the keyword may be missing. -/
def interfaceMember (n : Nat) : Parser OperationDecl := do
  let start := (← current).span
  let decorators ← decorators n
  let _ ← eat (.keyword .kwOp)
  operation decorators start n

def interfaceMembers : Nat → Parser (List OperationDecl)
  | 0 => exhausted
  | n + 1 => do
    let kind ← kind
    if kind = .mark .closeBrace ∨ kind = .endOfFile then return []
    else
      match ← attempt (interfaceMember n) with
      | some head =>
        let tail ← interfaceMembers n
        return head :: tail
      | none =>
        skipStatement false n 0 false
        interfaceMembers n

def interface (decorators : List DecoratorExpr) (start : Span) (n : Nat) :
    Parser InterfaceDecl := do
  let _ ← expect (.keyword .kwInterface)
  let name ← ident
  let _ ← expect (.mark .openBrace)
  let operations ← interfaceMembers n
  let _ ← expect (.mark .closeBrace)
  return ⟨decorators, name, operations, ← spanFrom start⟩

/-- An import. It counts only outside of any block. -/
def importDecl (topLevel : Bool) : Parser Unit := do
  let start := (← current).span
  let _ ← advance
  let path ← expect .string
  let _ ← expect (.mark .semicolon)
  let span ← spanFrom start
  if topLevel then
    update fun s => { s with imports := s.imports ++ [⟨literalText path.lexeme, span⟩] }
  else
    report .unexpectedToken "Imports are only allowed at the top level of a file." span

def usingDecl (n : Nat) : Parser UsingDecl := do
  let start := (← current).span
  let _ ← advance
  let path ← path ident n
  let _ ← expect (.mark .semicolon)
  return ⟨path.segments, ← spanFrom start⟩

/-- What is declared after its decorators; `space` reads a namespace. -/
def declaration (space : Parser Item) (decorators : List DecoratorExpr) (start : Span) (n : Nat) :
    Parser Item := do
  match ← kind with
  | .keyword .kwNamespace => space
  | .keyword .kwModel =>
    let decl ← model decorators start n
    return .model decl
  | .keyword .kwOp =>
    let _ ← advance
    let decl ← operation decorators start n
    return .operation decl
  | .keyword .kwInterface =>
    let decl ← interface decorators start n
    return .interface decl
  | .invalid => giveUp
  | _ =>
    let token ← current
    report .unexpectedToken s!"Statement expected, found '{token.lexeme}'." token.span
    giveUp

mutual

/-- Items up to the end of the file or of the enclosing block. A blockless namespace takes all
that follows, so nothing comes after it. -/
def items (topLevel : Bool) : Nat → Parser (List Item)
  | 0 => exhausted
  | n + 1 => do
    let kind ← kind
    if kind = .endOfFile ∨ (kind = .mark .closeBrace ∧ ¬ topLevel) then return []
    else
      match ← attempt (item topLevel n) with
      | none =>
        skipStatement topLevel n 0 false
        items topLevel n
      | some none => items topLevel n
      | some (some head) =>
        match head with
        | .space ⟨_, _, true, _⟩ _ => return [head]
        | _ =>
          let tail ← items topLevel n
          return head :: tail

/-- One item; `none` for an import and for a lone semicolon. -/
def item (topLevel : Bool) : Nat → Parser (Option Item)
  | 0 => exhausted
  | n + 1 => do
    let start := (← current).span
    match ← kind with
    | .keyword .kwImport =>
      importDecl topLevel
      return none
    | .keyword .kwUsing =>
      let decl ← usingDecl n
      return some (.using decl)
    | .mark .semicolon =>
      let _ ← advance
      return none
    | _ =>
      let decorators ← decorators n
      let declared ← declaration (space decorators start topLevel n) decorators start n
      return some declared

def space (decorators : List DecoratorExpr) (start : Span) (topLevel : Bool) :
    Nat → Parser Item
  | 0 => exhausted
  | n + 1 => do
    let _ ← expect (.keyword .kwNamespace)
    let path ← path ident n
    if ← eat (.mark .semicolon) then
      let span ← spanFrom start
      if ¬ topLevel then
        report .unexpectedToken
          "Blockless namespaces are only allowed at the top level of a file." span
      let items ← items topLevel n
      return .space ⟨decorators, path.segments, true, span⟩ items
    else
      let _ ← expect (.mark .openBrace)
      let items ← items false n
      let _ ← expect (.mark .closeBrace)
      return .space ⟨decorators, path.segments, false, ← spanFrom start⟩ items

end

end Syntax.Parser

namespace Script

/-- Reads a file with a number of steps that may be nested; `none` if they do not suffice. -/
def readWith (steps : Nat) (file : FileId) (tokens : List Scanned) :
    Option (Script × List Diagnostic) :=
  match Syntax.Parser.items true steps (.start file tokens) with
  | .done items state => some (⟨file, state.imports, items⟩, state.flush.diagnostics)
  | .broken state => some (⟨file, state.imports, []⟩, state.flush.diagnostics)
  | .exhausted _ => none

/-- The number of steps that reading this many tokens can nest, unless it goes round for ever:
no more than eight readers are entered before one of them takes a token. -/
def stepLimit (tokens : Nat) : Nat := 8 * (tokens + 1)

/-- Reads a file. The answer is what could be read and what was wrong with it; it is `none` where
a closing mark that a list of members does not own keeps the reader in one place. -/
def read (file : FileId) (text : String) : Option (Script × List Diagnostic) :=
  let tokens := tokenize text
  readWith (stepLimit tokens.length) file tokens

end Script

end Idl
