import Idl.Syntax.Script

/-! The language of source files. A relation for each production says which tokens
are a text of which piece of syntax, without a word about how it is read. Where
things stand plays no part in it: of a token only the kind and the text count, and
the syntax is stripped of its spans first. -/
namespace Idl

/-- The span of what stands nowhere. Lines count from 1. -/
def Span.nowhere : Span := ⟨0, 0, 0⟩

/-! Syntax stripped of its spans. -/

def Ident.bare (ident : Ident) : Ident := ⟨ident.name, .nowhere⟩

def DottedName.bare (path : DottedName) : DottedName := ⟨path.first.bare, path.rest.map Ident.bare⟩

mutual

def TypeExpr.bare : TypeExpr → TypeExpr
  | .reference path args hasArgs _ =>
    .reference path.bare (TypeExpr.allBare args) hasArgs .nowhere
  | .intrinsic kind _ => .intrinsic kind .nowhere
  | .union first rest _ => .union first.bare (TypeExpr.allBare rest) .nowhere
  | .model members _ => .model (Member.allBare members) .nowhere
  | .array element _ => .array element.bare .nowhere

def TypeExpr.allBare : List TypeExpr → List TypeExpr
  | [] => []
  | type :: rest => type.bare :: TypeExpr.allBare rest

def Member.bare : Member → Member
  | .property decorators name optional type _ =>
    .property (DecoratorExpr.allBare decorators) name.bare optional type.bare .nowhere
  | .spread target _ => .spread target.bare .nowhere

def Member.allBare : List Member → List Member
  | [] => []
  | member :: rest => member.bare :: Member.allBare rest

def DecoratorExpr.bare : DecoratorExpr → DecoratorExpr
  | .use path args _ => .use path.bare (DecoratorArg.allBare args) .nowhere

def DecoratorExpr.allBare : List DecoratorExpr → List DecoratorExpr
  | [] => []
  | first :: rest => first.bare :: DecoratorExpr.allBare rest

def DecoratorArg.bare : DecoratorArg → DecoratorArg
  | .literal value _ => .literal value .nowhere
  | .type expr => .type expr.bare

def DecoratorArg.allBare : List DecoratorArg → List DecoratorArg
  | [] => []
  | first :: rest => first.bare :: DecoratorArg.allBare rest

end

def TemplateParam.bare (param : TemplateParam) : TemplateParam :=
  ⟨param.name.bare, param.default.map TypeExpr.bare, .nowhere⟩

def Heritage.bare : Heritage → Heritage
  | .plain => .plain
  | .extends base => .extends base.bare
  | .is source => .is source.bare

def ModelDecl.bare (decl : ModelDecl) : ModelDecl :=
  ⟨DecoratorExpr.allBare decl.decorators, decl.name.bare, decl.params.map TemplateParam.bare,
    decl.heritage.bare, Member.allBare decl.members, .nowhere⟩

def Signature.bare : Signature → Signature
  | .written parameters _ returns => .written (Member.allBare parameters) .nowhere returns.bare
  | .reuse source => .reuse source.bare

def OperationDecl.bare (decl : OperationDecl) : OperationDecl :=
  ⟨DecoratorExpr.allBare decl.decorators, decl.name.bare, decl.params.map TemplateParam.bare,
    decl.signature.bare, .nowhere⟩

def InterfaceDecl.bare (decl : InterfaceDecl) : InterfaceDecl :=
  ⟨DecoratorExpr.allBare decl.decorators, decl.name.bare, decl.operations.map OperationDecl.bare,
    .nowhere⟩

def UsingDecl.bare (decl : UsingDecl) : UsingDecl := ⟨decl.path.map Ident.bare, .nowhere⟩

def ImportDecl.bare (decl : ImportDecl) : ImportDecl := ⟨decl.path, .nowhere⟩

def NamespaceHead.bare (head : NamespaceHead) : NamespaceHead :=
  ⟨DecoratorExpr.allBare head.decorators, head.path.map Ident.bare, head.blockless, .nowhere⟩

mutual

def Item.bare : Item → Item
  | .space head items => .space head.bare (Item.allBare items)
  | .model decl => .model decl.bare
  | .operation decl => .operation decl.bare
  | .interface decl => .interface decl.bare
  | .using decl => .using decl.bare

def Item.allBare : List Item → List Item
  | [] => []
  | item :: rest => item.bare :: Item.allBare rest

end

/-- A file without the places where things stand in it. -/
def Script.bare (script : Script) : Script :=
  ⟨script.file, script.imports.map ImportDecl.bare, Item.allBare script.items⟩

namespace Syntax

/-! Names and paths. -/

/-- A token that may be left out. -/
inductive Maybe (kind : TokenKind) : Bool → List Token → Prop where
  | missing : Maybe kind false []
  | present {token} (is : token.kind = kind) : Maybe kind true [token]

/-- `IDENT`, a name that is no keyword. -/
def IsIdent (token : Token) : Prop := token.kind = .identifier

/-- `NAME`, an identifier or a keyword. -/
def IsName (token : Token) : Prop := token.kind.isKeyword = true ∨ token.kind = .identifier

/-- `PROPNAME`, a name or a string literal. -/
inductive PropertyNameText : Ident → List Token → Prop where
  | quoted {token} (is : token.kind = .string) :
      PropertyNameText ⟨literalText token.lexeme, .nowhere⟩ [token]
  | word {token} (is : IsName token) : PropertyNameText ⟨token.lexeme, .nowhere⟩ [token]

/-- `('.' WORD)*` -/
inductive PathTailText (word : Token → Prop) : List Ident → List Token → Prop where
  | nil : PathTailText word [] []
  | cons {dot token rest tokens} (point : dot.kind = .mark .dot) (name : word token)
      (more : PathTailText word rest tokens) :
      PathTailText word (⟨token.lexeme, .nowhere⟩ :: rest) (dot :: token :: tokens)

/-- `WORD ('.' WORD)*` -/
inductive PathText (word : Token → Prop) : DottedName → List Token → Prop where
  | intro {token rest tokens} (name : word token) (more : PathTailText word rest tokens) :
      PathText word ⟨⟨token.lexeme, .nowhere⟩, rest⟩ (token :: tokens)

/-! Types, members and decorators. -/

/-- `('[' ']')*`, which makes a type of another one. -/
inductive BracketsText : TypeExpr → TypeExpr → List Token → Prop where
  | nil {type} : BracketsText type type []
  | cons {type whole left right tokens} (opens : left.kind = .mark .openBracket)
      (closes : right.kind = .mark .closeBracket)
      (more : BracketsText (.array type .nowhere) whole tokens) :
      BracketsText type whole (left :: right :: tokens)

mutual

/-- `TYPE := '|'? PRIMARY ('|' PRIMARY)*` -/
inductive TypeText : TypeExpr → List Token → Prop where
  | single {led lead type tokens} (leading : Maybe (.mark .bar) led lead)
      (only : PrimaryText type tokens) : TypeText type (lead ++ tokens)
  | union {led lead first tokens second rest more} (leading : Maybe (.mark .bar) led lead)
      (head : PrimaryText first tokens) (tail : OptionsText (second :: rest) more) :
      TypeText (.union first (second :: rest) .nowhere) (lead ++ (tokens ++ more))

/-- `('|' PRIMARY)*` -/
inductive OptionsText : List TypeExpr → List Token → Prop where
  | nil : OptionsText [] []
  | cons {bar type tokens rest more} (is : bar.kind = .mark .bar) (head : PrimaryText type tokens)
      (tail : OptionsText rest more) : OptionsText (type :: rest) (bar :: (tokens ++ more))

/-- `PRIMARY := CORE ('[' ']')*` -/
inductive PrimaryText : TypeExpr → List Token → Prop where
  | intro {core type tokens more} (inner : CoreText core tokens)
      (brackets : BracketsText core type more) : PrimaryText type (tokens ++ more)

/-- `CORE := 'void' | 'never' | '{' MEMBERS '}' | '(' TYPE ')' | REFERENCE` -/
inductive CoreText : TypeExpr → List Token → Prop where
  | void {token} (is : token.kind = .keyword .kwVoid) : CoreText (.intrinsic .void .nowhere) [token]
  | never {token} (is : token.kind = .keyword .kwNever) :
      CoreText (.intrinsic .never .nowhere) [token]
  | model {left members tokens right} (opens : left.kind = .mark .openBrace)
      (inner : MembersText members tokens) (closes : right.kind = .mark .closeBrace) :
      CoreText (.model members .nowhere) (left :: (tokens ++ [right]))
  | group {left type tokens right} (opens : left.kind = .mark .openParen)
      (inner : TypeText type tokens) (closes : right.kind = .mark .closeParen) :
      CoreText type (left :: (tokens ++ [right]))
  | reference {type tokens} (named : ReferenceText type tokens) : CoreText type tokens

/-- `REFERENCE := PATH ('<' TYPES '>')?` -/
inductive ReferenceText : TypeExpr → List Token → Prop where
  | name {path tokens} (names : PathText IsIdent path tokens) :
      ReferenceText (.reference path [] false .nowhere) tokens
  | applied {path tokens left args more right} (names : PathText IsIdent path tokens)
      (opens : left.kind = .mark .less) (inner : TypesText args more)
      (closes : right.kind = .mark .greater) :
      ReferenceText (.reference path args true .nowhere) (tokens ++ left :: (more ++ [right]))

/-- `TYPES := (TYPE (',' TYPE)* ','?)?` -/
inductive TypesText : List TypeExpr → List Token → Prop where
  | nil : TypesText [] []
  | last {type tokens} (head : TypeText type tokens) : TypesText [type] tokens
  | cons {type tokens comma rest more} (head : TypeText type tokens)
      (is : comma.kind = .mark .comma) (tail : TypesText rest more) :
      TypesText (type :: rest) (tokens ++ comma :: more)

/-- `MEMBERS`, each ended by `';'` or `','`, which the last one may leave out. -/
inductive MembersText : List Member → List Token → Prop where
  | nil : MembersText [] []
  | last {member tokens} (head : MemberText member tokens) : MembersText [member] tokens
  | cons {member tokens ending rest more} (head : MemberText member tokens)
      (is : ending.kind = .mark .semicolon ∨ ending.kind = .mark .comma)
      (tail : MembersText rest more) : MembersText (member :: rest) (tokens ++ ending :: more)

/-- `'...' TYPE | DECORATOR* PROPNAME '?'? ':' TYPE` -/
inductive MemberText : Member → List Token → Prop where
  | spread {dots target tokens} (is : dots.kind = .mark .ellipsis)
      (inner : TypeText target tokens) : MemberText (.spread target .nowhere) (dots :: tokens)
  | property {decorators before name named optional mark colon type tokens}
      (decorated : DecoratorsText decorators before) (names : PropertyNameText name named)
      (question : Maybe (.mark .question) optional mark) (is : colon.kind = .mark .colon)
      (inner : TypeText type tokens) :
      MemberText (.property decorators name optional type .nowhere)
        (before ++ (named ++ (mark ++ colon :: tokens)))

/-- `DECORATOR* := ('@' NAME ('.' NAME)* ('(' ARGS ')')?)*` -/
inductive DecoratorsText : List DecoratorExpr → List Token → Prop where
  | nil : DecoratorsText [] []
  | cons {sign path tokens args call rest more} (is : sign.kind = .mark .atSign)
      (names : PathText IsName path tokens) (given : CallText args call)
      (tail : DecoratorsText rest more) :
      DecoratorsText (.use path args .nowhere :: rest) (sign :: (tokens ++ (call ++ more)))

/-- `('(' ARGS ')')?` -/
inductive CallText : List DecoratorArg → List Token → Prop where
  | missing : CallText [] []
  | present {left args tokens right} (opens : left.kind = .mark .openParen)
      (inner : ArgsText args tokens) (closes : right.kind = .mark .closeParen) :
      CallText args (left :: (tokens ++ [right]))

/-- `ARGS := (ARG (',' ARG)* ','?)?` -/
inductive ArgsText : List DecoratorArg → List Token → Prop where
  | nil : ArgsText [] []
  | last {arg tokens} (head : ArgText arg tokens) : ArgsText [arg] tokens
  | cons {arg tokens comma rest more} (head : ArgText arg tokens) (is : comma.kind = .mark .comma)
      (tail : ArgsText rest more) : ArgsText (arg :: rest) (tokens ++ comma :: more)

/-- `ARG := STRING | NUMBER | 'true' | 'false' | TYPE` -/
inductive ArgText : DecoratorArg → List Token → Prop where
  | string {token} (is : token.kind = .string) :
      ArgText (.literal (.string (literalText token.lexeme)) .nowhere) [token]
  | number {token decimal} (is : token.kind = .number)
      (value : Decimal.ofChars? token.lexeme.toList = some decimal) :
      ArgText (.literal (.number decimal.toBinary64) .nowhere) [token]
  | yes {token} (is : token.kind = .keyword .kwTrue) :
      ArgText (.literal (.boolean true) .nowhere) [token]
  | no {token} (is : token.kind = .keyword .kwFalse) :
      ArgText (.literal (.boolean false) .nowhere) [token]
  | type {expr tokens} (inner : TypeText expr tokens) : ArgText (.type expr) tokens

end

/-! Declarations. -/

/-- `('=' TYPE)?` -/
inductive DefaultText : Option TypeExpr → List Token → Prop where
  | missing : DefaultText none []
  | present {sign type tokens} (is : sign.kind = .mark .equals) (inner : TypeText type tokens) :
      DefaultText (some type) (sign :: tokens)

/-- `IDENT ('=' TYPE)? (',' IDENT ('=' TYPE)?)* '>'` -/
inductive ParamsText : List TemplateParam → List Token → Prop where
  | last {name default tokens right} (ident : IsIdent name) (given : DefaultText default tokens)
      (closes : right.kind = .mark .greater) :
      ParamsText [⟨⟨name.lexeme, .nowhere⟩, default, .nowhere⟩] (name :: (tokens ++ [right]))
  | cons {name default tokens comma rest more} (ident : IsIdent name)
      (given : DefaultText default tokens) (is : comma.kind = .mark .comma)
      (tail : ParamsText rest more) :
      ParamsText (⟨⟨name.lexeme, .nowhere⟩, default, .nowhere⟩ :: rest)
        (name :: (tokens ++ comma :: more))

/-- `TEMPLATE?`, where `TEMPLATE := '<' IDENT ('=' TYPE)? (',' IDENT ('=' TYPE)?)* '>'` -/
inductive TemplateText : List TemplateParam → List Token → Prop where
  | missing : TemplateText [] []
  | present {left params tokens} (opens : left.kind = .mark .less)
      (inner : ParamsText params tokens) : TemplateText params (left :: tokens)

/-- `('is' TYPE | 'extends' TYPE)?` -/
inductive HeritageText : Heritage → List Token → Prop where
  | plain : HeritageText .plain []
  | copy {word source tokens} (is : word.kind = .keyword .kwIs) (inner : TypeText source tokens) :
      HeritageText (.is source) (word :: tokens)
  | extension {word base tokens} (is : word.kind = .keyword .kwExtends)
      (inner : TypeText base tokens) : HeritageText (.extends base) (word :: tokens)

/-- `'{' MEMBERS '}'`, or only `';'` after an `'is'`. -/
inductive ModelBodyText : Heritage → List Member → List Token → Prop where
  | block {heritage left members tokens right} (opens : left.kind = .mark .openBrace)
      (inner : MembersText members tokens) (closes : right.kind = .mark .closeBrace) :
      ModelBodyText heritage members (left :: (tokens ++ [right]))
  | missing {source semicolon} (ends : semicolon.kind = .mark .semicolon) :
      ModelBodyText (.is source) [] [semicolon]

/-- `'(' MEMBERS ')' ':' TYPE | ':' TYPE` -/
inductive SignatureText : Signature → List Token → Prop where
  | written {left parameters tokens right colon returns more} (opens : left.kind = .mark .openParen)
      (inner : MembersText parameters tokens) (closes : right.kind = .mark .closeParen)
      (is : colon.kind = .mark .colon) (result : TypeText returns more) :
      SignatureText (.written parameters .nowhere returns)
        (left :: (tokens ++ right :: colon :: more))
  | reuse {colon source tokens} (is : colon.kind = .mark .colon) (inner : TypeText source tokens) :
      SignatureText (.reuse source) (colon :: tokens)

/-- `OPERATION := IDENT TEMPLATE? ('(' MEMBERS ')')? ':' TYPE ';'`, after some decorators. -/
inductive OperationText (decorators : List DecoratorExpr) : OperationDecl → List Token → Prop where
  | intro {name params template signature tokens semicolon} (ident : IsIdent name)
      (parameters : TemplateText params template) (written : SignatureText signature tokens)
      (ends : semicolon.kind = .mark .semicolon) :
      OperationText decorators ⟨decorators, ⟨name.lexeme, .nowhere⟩, params, signature, .nowhere⟩
        (name :: (template ++ (tokens ++ [semicolon])))

/-- `(DECORATOR* 'op'? OPERATION)*` -/
inductive OperationsText : List OperationDecl → List Token → Prop where
  | nil : OperationsText [] []
  | cons {decorators before worded word decl tokens rest more}
      (decorated : DecoratorsText decorators before) (said : Maybe (.keyword .kwOp) worded word)
      (head : OperationText decorators decl tokens) (tail : OperationsText rest more) :
      OperationsText (decl :: rest) (before ++ (word ++ (tokens ++ more)))

mutual

/-- `'using' PATH ';'`, or a declaration after its decorators: `'namespace' PATH '{' ITEM* '}'`,
`'model' IDENT TEMPLATE? HERITAGE BODY`, `'op' OPERATION`, or
`'interface' IDENT '{' (DECORATOR* 'op'? OPERATION)* '}'`. -/
inductive ItemText : Item → List Token → Prop where
  | using {word path tokens semicolon} (is : word.kind = .keyword .kwUsing)
      (names : PathText IsIdent path tokens) (ends : semicolon.kind = .mark .semicolon) :
      ItemText (.using ⟨path.segments, .nowhere⟩) (word :: (tokens ++ [semicolon]))
  | space {decorators before word path tokens left items inside right}
      (decorated : DecoratorsText decorators before) (is : word.kind = .keyword .kwNamespace)
      (names : PathText IsIdent path tokens) (opens : left.kind = .mark .openBrace)
      (inner : ItemsText items inside) (closes : right.kind = .mark .closeBrace) :
      ItemText (.space ⟨decorators, path.segments, false, .nowhere⟩ items)
        (before ++ word :: (tokens ++ left :: (inside ++ [right])))
  | model {decorators before word name params template heritage origin members body}
      (decorated : DecoratorsText decorators before) (is : word.kind = .keyword .kwModel)
      (ident : IsIdent name) (parameters : TemplateText params template)
      (built : HeritageText heritage origin) (inner : ModelBodyText heritage members body) :
      ItemText
        (.model ⟨decorators, ⟨name.lexeme, .nowhere⟩, params, heritage, members, .nowhere⟩)
        (before ++ word :: name :: (template ++ (origin ++ body)))
  | operation {decorators before word decl tokens} (decorated : DecoratorsText decorators before)
      (is : word.kind = .keyword .kwOp) (declared : OperationText decorators decl tokens) :
      ItemText (.operation decl) (before ++ word :: tokens)
  | interface {decorators before word name left operations tokens right}
      (decorated : DecoratorsText decorators before) (is : word.kind = .keyword .kwInterface)
      (ident : IsIdent name) (opens : left.kind = .mark .openBrace)
      (inner : OperationsText operations tokens) (closes : right.kind = .mark .closeBrace) :
      ItemText (.interface ⟨decorators, ⟨name.lexeme, .nowhere⟩, operations, .nowhere⟩)
        (before ++ word :: name :: left :: (tokens ++ [right]))

/-- `ITEM*`, where a lone `';'` stands for nothing. -/
inductive ItemsText : List Item → List Token → Prop where
  | nil : ItemsText [] []
  | skip {semicolon items tokens} (is : semicolon.kind = .mark .semicolon)
      (tail : ItemsText items tokens) : ItemsText items (semicolon :: tokens)
  | cons {item tokens items more} (head : ItemText item tokens) (tail : ItemsText items more) :
      ItemsText (item :: items) (tokens ++ more)

end

/-- `SCRIPT := (IMPORT | ITEM)* (DECORATOR* 'namespace' PATH ';' SCRIPT)?`, where
`IMPORT := 'import' STRING ';'`. A namespace without a block holds the rest of the file; imports
count for the file wherever they stand. -/
inductive ScriptText : List ImportDecl → List Item → List Token → Prop where
  | nil : ScriptText [] [] []
  | skip {semicolon imports items tokens} (is : semicolon.kind = .mark .semicolon)
      (tail : ScriptText imports items tokens) : ScriptText imports items (semicolon :: tokens)
  | imports {word path semicolon imports items tokens} (is : word.kind = .keyword .kwImport)
      (file : path.kind = .string) (ends : semicolon.kind = .mark .semicolon)
      (tail : ScriptText imports items tokens) :
      ScriptText (⟨literalText path.lexeme, .nowhere⟩ :: imports) items
        (word :: path :: semicolon :: tokens)
  | cons {item tokens imports items more} (head : ItemText item tokens)
      (tail : ScriptText imports items more) : ScriptText imports (item :: items) (tokens ++ more)
  | rest {decorators before word path tokens semicolon imports items more}
      (decorated : DecoratorsText decorators before) (is : word.kind = .keyword .kwNamespace)
      (names : PathText IsIdent path tokens) (ends : semicolon.kind = .mark .semicolon)
      (inner : ScriptText imports items more) :
      ScriptText imports [.space ⟨decorators, path.segments, true, .nowhere⟩ items]
        (before ++ word :: (tokens ++ semicolon :: more))

end Syntax

end Idl
