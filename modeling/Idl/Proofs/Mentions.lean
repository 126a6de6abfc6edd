import Idl.Proofs.Denotation

/-! What the source names, and where. A declaration is named as a mere reference,
or where its finished type is needed: in an `is`, in a spread, or as the operation
whose signature is taken over. Work on a declaration looks at its own text, and
from there at the defaults of the template parameters that the text leads to, but
never at the text of another declaration, which is work of its own. -/
namespace Idl

/-- Something that is named, and what its finished type is needed for, if it is. -/
structure Mention where
  symbol : SymbolId
  use : Option Use
deriving DecidableEq

section
variable (symbols : SymbolTable) (scope : Scope)

mutual

/-- What a type expression names. The expression itself may be needed in full. -/
def TypeExpr.mentions (use : Option Use) : TypeExpr → List Mention
  | .reference path args _ _ =>
    (symbols.named? scope path).toList.map (⟨·, use⟩) ++ TypeExpr.allMentions args
  | .intrinsic _ _ => []
  | .union first rest _ => first.mentions none ++ TypeExpr.allMentions rest
  | .model members _ => Member.allMentions members
  | .array element _ =>
    (symbols.qualified? CheckM.arrayModel).toList.map (⟨·, use⟩) ++ element.mentions none

def TypeExpr.allMentions : List TypeExpr → List Mention
  | [] => []
  | expr :: rest => expr.mentions none ++ TypeExpr.allMentions rest

def Member.mentions : Member → List Mention
  | .property decorators _ _ type _ => type.mentions none ++ DecoratorExpr.allMentions decorators
  | .spread target _ => target.mentions (some .spread)

def Member.allMentions : List Member → List Mention
  | [] => []
  | member :: rest => member.mentions ++ Member.allMentions rest

def DecoratorExpr.mentions : DecoratorExpr → List Mention
  | .use _ args _ => DecoratorArg.allMentions args

def DecoratorExpr.allMentions : List DecoratorExpr → List Mention
  | [] => []
  | first :: rest => first.mentions ++ DecoratorExpr.allMentions rest

def DecoratorArg.mentions : DecoratorArg → List Mention
  | .literal _ _ => []
  | .type expr => expr.mentions none

def DecoratorArg.allMentions : List DecoratorArg → List Mention
  | [] => []
  | first :: rest => first.mentions ++ DecoratorArg.allMentions rest

end

def Heritage.mentions : Heritage → List Mention
  | .plain => []
  | .extends base => base.mentions symbols scope none
  | .is source => source.mentions symbols scope (some .copy)

def Signature.mentions : Signature → List Mention
  | .written parameters _ returns =>
    Member.allMentions symbols scope parameters ++ returns.mentions symbols scope none
  | .reuse source => source.mentions symbols scope (some .signature)

end

/-! Where the source refers to declarations in any case. The arguments of a name that is not that of
a declaration may be passed over, and so may those of a decorator after one that is a type, since
that one may be wrong. -/

/-- The declaration that a dotted path names from a scope. -/
def SymbolTable.declaration? (table : SymbolTable) (scope : Scope) (path : DottedName) :
    Option SymbolId :=
  (table.named? scope path).filter fun symbol => (table.symbol symbol).kind.declares

/-- A declaration without parameters that is named without arguments, where, and what its finished
type is needed for there, if it is. -/
structure Reference where
  target : SymbolId
  location : Location
  use : Option Use
deriving DecidableEq

section
variable (symbols : SymbolTable) (scope : Scope) (file : FileId)

mutual

/-- What a type expression refers to. The expression itself may be needed in full. -/
def TypeExpr.refers (use : Option Use) : TypeExpr → List Reference
  | .reference path args hasArgs span => match symbols.declaration? scope path with
    | some symbol =>
      (if !hasArgs && !(symbols.symbol symbol).templated then [⟨symbol, ⟨file, span⟩, use⟩] else []) ++
        TypeExpr.allRefers args
    | none => []
  | .intrinsic _ _ => []
  | .union first rest _ => first.refers none ++ TypeExpr.allRefers rest
  | .model members _ => Member.allRefers members
  | .array element _ => element.refers none

def TypeExpr.allRefers : List TypeExpr → List Reference
  | [] => []
  | expr :: rest => expr.refers none ++ TypeExpr.allRefers rest

def Member.refers : Member → List Reference
  | .property decorators _ _ type _ => type.refers none ++ DecoratorExpr.allRefers decorators
  | .spread target _ => target.refers (some .spread)

def Member.allRefers : List Member → List Reference
  | [] => []
  | member :: rest => member.refers ++ Member.allRefers rest

def DecoratorExpr.refers : DecoratorExpr → List Reference
  | .use path args _ => match symbols.decorator? scope path with
    | some _ => DecoratorArg.firstRefers args
    | none => []

def DecoratorExpr.allRefers : List DecoratorExpr → List Reference
  | [] => []
  | first :: rest => first.refers ++ DecoratorExpr.allRefers rest

/-- What the first argument that is a type refers to. -/
def DecoratorArg.firstRefers : List DecoratorArg → List Reference
  | [] => []
  | .literal _ _ :: rest => DecoratorArg.firstRefers rest
  | .type expr :: _ => expr.refers none

end

def Heritage.refers : Heritage → List Reference
  | .plain => []
  | .extends base => base.refers symbols scope file none
  | .is source => source.refers symbols scope file (some .copy)

def Signature.refers : Signature → List Reference
  | .written parameters _ returns =>
    Member.allRefers symbols scope file parameters ++ returns.refers symbols scope file none
  | .reuse source => source.refers symbols scope file (some .signature)

end

/-- What the heritage and the members of a model, or the signature of an operation, refer to in any
case. -/
def Environment.refers (env : Environment) (symbol : SymbolId) : List Reference :=
  let found := env.symbols.symbol symbol
  match found.declarations.head? with
  | some ⟨location, .model decl⟩ =>
    decl.heritage.refers env.symbols found.bodyScope location.file ++
      Member.allRefers env.symbols found.bodyScope location.file decl.members
  | some ⟨location, .operation decl⟩ =>
    decl.signature.refers env.symbols found.bodyScope location.file
  | _ => []

namespace Environment

/-- What the text of a symbol names: the body of a declaration, the operations of an interface, or
the default of a template parameter. -/
def text (env : Environment) (symbol : SymbolId) : List Mention :=
  let found := env.symbols.symbol symbol
  match found.declarations.head?.map Declaration.definition with
  | some (.model decl) =>
    decl.heritage.mentions env.symbols found.bodyScope ++
      Member.allMentions env.symbols found.bodyScope decl.members ++
      DecoratorExpr.allMentions env.symbols found.bodyScope decl.decorators
  | some (.operation decl) =>
    decl.signature.mentions env.symbols found.bodyScope ++
      DecoratorExpr.allMentions env.symbols found.bodyScope decl.decorators
  | some (.interface decl) =>
    (env.symbols.members symbol).map (⟨·, none⟩) ++
      DecoratorExpr.allMentions env.symbols found.bodyScope decl.decorators
  | some (.templateParameter decl) =>
    (decl.default.map (·.mentions env.symbols found.parent none)).getD []
  | _ => []

/-- The symbols whose text is looked at in the work on a declaration: its own, and the parameters
that are named, or that belong to what is named, in text that is looked at. -/
inductive Consults (env : Environment) (symbol : SymbolId) : SymbolId → Prop where
  | own : Consults env symbol symbol
  | named {reader param use} (reads : Consults env symbol reader)
      (written : ⟨param, use⟩ ∈ env.text reader)
      (kind : (env.symbols.symbol param).kind = .templateParameter) : Consults env symbol param
  | parameter {reader template param use} (reads : Consults env symbol reader)
      (written : ⟨template, use⟩ ∈ env.text reader)
      (member : param ∈ (env.symbols.symbol template).templateParams) : Consults env symbol param

/-- Something is named in text that is looked at in the work on a declaration. -/
def Mentions (env : Environment) (symbol : SymbolId) (mention : Mention) : Prop :=
  ∃ reader, env.Consults symbol reader ∧ mention ∈ env.text reader

/-- The work on a declaration may ask for another one. -/
def Asks (env : Environment) (symbol target : SymbolId) (demand : Demand) : Prop :=
  ∃ use, env.Mentions symbol ⟨target, use⟩ ∧ (demand = .complete → use ≠ none)

section
variable {env : Environment}

/-- Where nothing is named, no other text is looked at. -/
theorem Consults.eq_of_text (nothing : env.text symbol = []) (reads : env.Consults symbol reader) :
    reader = symbol := by
  induction reads with
  | own => rfl
  | named _ written _ ih | parameter _ written _ ih =>
    rw [ih, nothing] at written
    cases written

/-- What is asked for is named. -/
theorem Asks.reference (asks : env.Asks symbol target demand) :
    env.Asks symbol target .reference := by
  obtain ⟨use, mentions, _⟩ := asks
  exact ⟨use, mentions, nofun⟩

/-- The text of a template parameter is its default. -/
theorem text_default (written : CheckM.defaultOf (env.symbols.symbol param) = some (file, expr)) :
    env.text param = expr.mentions env.symbols (env.symbols.symbol param).parent none := by
  unfold CheckM.defaultOf at written
  split at written
  · rename_i location decl declared
    obtain ⟨default, given, same⟩ := Option.map_eq_some_iff.mp written
    cases same
    simp [text, declared, given]
  · cases written

end

/-- The work on the youngest frame, if there is one, looks at text with these mentions. -/
def Licenses (env : Environment) (frames : List Frame) (mentions : List Mention) : Prop :=
  ∀ frame ∈ frames.head?, ∀ mention ∈ mentions, env.Mentions frame.key.symbol mention

/-- The work on the youngest frame, if there is one, may ask for a declaration. -/
def Lets (env : Environment) (frames : List Frame) (target : SymbolId) (demand : Demand) : Prop :=
  ∀ frame ∈ frames.head?, env.Asks frame.key.symbol target demand

/-- The work on the youngest frame, if there is one, looks at the text of a symbol. -/
def Opens (env : Environment) (frames : List Frame) (symbol : SymbolId) : Prop :=
  ∀ frame ∈ frames.head?, env.Consults frame.key.symbol symbol

variable {env : Environment}

theorem Licenses.mono (licenses : env.Licenses frames mentions)
    (included : ∀ mention ∈ fewer, mention ∈ mentions) : env.Licenses frames fewer :=
  fun frame top mention member => licenses frame top mention (included mention member)

theorem Licenses.left (licenses : env.Licenses frames (mentions ++ more)) :
    env.Licenses frames mentions :=
  licenses.mono fun _ => List.mem_append_left _

theorem Licenses.right (licenses : env.Licenses frames (mentions ++ more)) :
    env.Licenses frames more :=
  licenses.mono fun _ => List.mem_append_right _

/-- What is named may be asked for. -/
theorem Licenses.lets (licenses : env.Licenses frames mentions) (member : ⟨target, use⟩ ∈ mentions)
    (full : demand = .complete → use ≠ none) : env.Lets frames target demand :=
  fun frame top => ⟨use, licenses frame top _ member, full⟩

theorem Licenses.opens (licenses : env.Licenses frames mentions) (member : ⟨param, use⟩ ∈ mentions)
    (kind : (env.symbols.symbol param).kind = .templateParameter) : env.Opens frames param := by
  intro frame top
  obtain ⟨reader, reads, written⟩ := licenses frame top _ member
  exact .named reads written kind

theorem Lets.opens (lets : env.Lets frames target demand)
    (member : param ∈ (env.symbols.symbol target).templateParams) : env.Opens frames param := by
  intro frame top
  obtain ⟨use, ⟨reader, reads, written⟩, _⟩ := lets frame top
  exact .parameter reads written member

/-- Text that is looked at names what it names. -/
theorem Opens.licenses (opened : env.Opens frames symbol) : env.Licenses frames (env.text symbol) :=
  fun frame top _ member => ⟨symbol, opened frame top, member⟩

end Environment

end Idl
