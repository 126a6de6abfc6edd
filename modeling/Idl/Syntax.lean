import Idl.Number.Binary64
import Idl.Span

/-!
The declarations of a source file.

Type expressions, members and decorators contain each other: a member has a type, a type may be
written as a list of members, and a decorator may take types as arguments. Declarations are built
from them, and items nest in namespaces.
-/

namespace Idl

structure Ident where
  name : String
  span : Span
deriving DecidableEq, Repr

structure DottedName where
  first : Ident
  rest : List Ident
deriving DecidableEq, Repr

def DottedName.segments (path : DottedName) : List Ident := path.first :: path.rest

def DottedName.text (path : DottedName) : String :=
  ".".intercalate (path.segments.map Ident.name)

/-- The types that are keywords. -/
inductive Intrinsic where
  | void
  | never
deriving DecidableEq, Repr

def Intrinsic.name : Intrinsic → String
  | .void => "void"
  | .never => "never"

inductive Literal where
  | string (value : String)
  | number (value : Binary64)
  | boolean (value : Bool)
deriving DecidableEq, Repr

mutual

inductive TypeExpr where
  /-- `A.B<C, D>`. The flag tells an empty list of arguments from none. -/
  | reference (path : DottedName) (args : List TypeExpr) (hasArgs : Bool) (span : Span)
  | intrinsic (kind : Intrinsic) (span : Span)
  /-- `A | B`, which has an option. -/
  | union (first : TypeExpr) (rest : List TypeExpr) (span : Span)
  /-- A model written in place. -/
  | model (members : List Member) (span : Span)
  /-- `T[]` -/
  | array (element : TypeExpr) (span : Span)

inductive Member where
  | property (decorators : List DecoratorExpr) (name : Ident) (optional : Bool) (type : TypeExpr)
      (span : Span)
  /-- `...T` -/
  | spread (target : TypeExpr) (span : Span)

/-- `@a.b(x, y)` -/
inductive DecoratorExpr where
  | use (path : DottedName) (args : List DecoratorArg) (span : Span)

inductive DecoratorArg where
  | literal (value : Literal) (span : Span)
  | type (expr : TypeExpr)

end

def TypeExpr.span : TypeExpr → Span
  | .reference _ _ _ span => span
  | .intrinsic _ span => span
  | .union _ _ span => span
  | .model _ span => span
  | .array _ span => span

def DecoratorArg.span : DecoratorArg → Span
  | .literal _ span => span
  | .type expr => expr.span

/-- `T` or `T = Default` in a list of template parameters. -/
structure TemplateParam where
  name : Ident
  default : Option TypeExpr
  span : Span

inductive Heritage where
  | plain
  | extends (base : TypeExpr)
  | is (source : TypeExpr)

structure ModelDecl where
  decorators : List DecoratorExpr
  name : Ident
  params : List TemplateParam
  heritage : Heritage
  members : List Member
  span : Span

/-- What follows the name of an operation. -/
inductive Signature where
  /-- `(parameters): returns` -/
  | written (parameters : List Member) (parametersSpan : Span) (returns : TypeExpr)
  /-- `: operation`, which takes over the signature of another operation. -/
  | reuse (source : TypeExpr)

structure OperationDecl where
  decorators : List DecoratorExpr
  name : Ident
  params : List TemplateParam
  signature : Signature
  span : Span

structure InterfaceDecl where
  decorators : List DecoratorExpr
  name : Ident
  operations : List OperationDecl
  span : Span

structure UsingDecl where
  path : List Ident
  span : Span

structure ImportDecl where
  path : String
  span : Span
deriving DecidableEq, Repr

/-- A namespace declaration without what is in it. A blockless one holds the rest of its file. -/
structure NamespaceHead where
  decorators : List DecoratorExpr
  path : List Ident
  blockless : Bool
  span : Span

inductive Item where
  | space (head : NamespaceHead) (items : List Item)
  | model (decl : ModelDecl)
  | operation (decl : OperationDecl)
  | interface (decl : InterfaceDecl)
  | using (decl : UsingDecl)

structure Script where
  file : FileId
  imports : List ImportDecl
  items : List Item

end Idl
