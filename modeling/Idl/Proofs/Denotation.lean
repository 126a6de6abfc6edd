import Idl.Proofs.CheckerGrowth

/-! What the source says about types, without the order in which checking goes
through it. A type expression denotes a place of the store: the place of a
declaration, of an instance, of a union or of a model written in place. Members
contribute properties, and a spread contributes the whole list of the model it
names. All of it is read off the tables of one state of the checker, and stays
true as the state grows. Errors and parameters without an argument count only
where the source is read in a lax way: something that involves one of them is
then an error, or contributes nothing. -/
namespace Idl
variable {id : SymbolId}

/-- The symbol that a dotted path names from a scope. -/
def SymbolTable.named? (table : SymbolTable) (scope : Scope) (path : DottedName) :
    Option SymbolId :=
  match table.lookup scope path.first.name with
  | .found id => table.memberPath? id (path.rest.map Ident.name)
  | _ => none

/-- The decorator that a dotted path names from a scope: the nearest decorator of
a single name, or a member of the nearest namespace that starts the path. -/
def SymbolTable.decorator? (table : SymbolTable) (scope : Scope) (path : DottedName) :
    Option SymbolId :=
  let wanted : SymbolKind := if path.rest.isEmpty then .decorator else .space
  match table.lookupWhere scope path.first.name (·.kind = wanted) with
  | .found id => (table.memberPath? id (path.rest.map Ident.name)).filter fun found =>
    (table.symbol found).kind = .decorator
  | _ => none

theorem SymbolTable.decorator?_kind {table : SymbolTable}
    (named : table.decorator? scope path = some id) : (table.symbol id).kind = .decorator := by
  simp only [decorator?] at named
  split at named
  · simpa using (Option.filter_eq_some_iff.mp named).2
  · cases named

/-- A declaration that has a type of its own. -/
def Environment.Declares (env : Environment) (id : SymbolId) : Prop :=
  (env.symbols.symbol id).kind = .model ∨ (env.symbols.symbol id).kind = .operation ∨
    (env.symbols.symbol id).kind = .interface

instance (env : Environment) (symbol : SymbolId) : Decidable (env.Declares symbol) :=
  inferInstanceAs (Decidable (_ ∨ _ ∨ _))

theorem Environment.Declares.not_space {env : Environment} (declares : env.Declares id) :
    (env.symbols.symbol id).kind ≠ .space := by
  rcases declares with kind | kind | kind <;> simp [kind]

theorem Environment.Declares.declares {env : Environment} (declares : env.Declares id) :
    (env.symbols.symbol id).kind.declares = true := by
  rcases declares with kind | kind | kind <;> simp [kind, SymbolKind.declares]

/-- The place of a model written in place. Outside templates a shape without
decorators has one place; any other such model has a place of its own, which is
marked within templates. -/
def Checker.Expresses (c : Checker) (dependent : Bool) (properties : List Property)
    (id : TypeId) : Prop :=
  if dependent = false ∧ ∀ property ∈ properties, property.decorators = [] then
    c.modelExpressions.get? (shapeOf properties) = some id
  else c.types.get? id = some (.model { properties }) ∧ c.isDependent id = dependent

/-- A place that has nothing to take over: an error, or a template parameter. -/
def Checker.Barren (c : Checker) (id : TypeId) : Prop :=
  c.types.get? id = some .error ∨ ∃ param, c.types.get? id = some (.templateParameter param)

/-- What a literal stands for as an argument of a decorator. -/
def Literal.value : Literal → Value
  | .string text => .string text
  | .number value => .number value
  | .boolean flag => .boolean flag

section
variable (lax : Prop) (env : Environment) (c : Checker)

mutual

/-- A type expression stands for a place. -/
inductive Denotes : Context → TypeExpr → TypeId → Prop where
  | bound {context path args span param id}
      (named : env.symbols.named? context.scope path = some param)
      (kind : (env.symbols.symbol param).kind = .templateParameter)
      (value : context.subst.get? param = some id) :
      Denotes context (.reference path args false span) id
  | unbound {context path args span param id} (loose : lax)
      (named : env.symbols.named? context.scope path = some param)
      (kind : (env.symbols.symbol param).kind = .templateParameter)
      (free : context.subst.get? param = none) (own : c.paramTypes.get? param = some id) :
      Denotes context (.reference path args false span) id
  | declared {context path args span symbol id}
      (named : env.symbols.named? context.scope path = some symbol)
      (declares : env.Declares symbol) (plain : (env.symbols.symbol symbol).templated = false)
      (placed : c.Placed ⟨symbol, []⟩ id) :
      Denotes context (.reference path args false span) id
  | applied {context path args hasArgs span symbol ids id}
      (named : env.symbols.named? context.scope path = some symbol)
      (declares : env.Declares symbol) (template : (env.symbols.symbol symbol).templated = true)
      (arguments : DenotesAll context args ids) (made : Instantiates symbol ids id) :
      Denotes context (.reference path args hasArgs span) id
  | intrinsic {context kind span} :
      Denotes context (.intrinsic kind span) (TypeStore.intrinsic kind)
  | union {context first rest span ids id} (parts : DenotesAll context (first :: rest) ids)
      (stored : c.types.unions.get? (distinct ids) = some id) :
      Denotes context (.union first rest span) id
  | model {context members span properties id}
      (written : ContributesAll context members properties)
      (stored : c.Expresses context.dependent properties id) :
      Denotes context (.model members span) id
  | array {context element span part symbol id} (inner : Denotes context element part)
      (named : env.symbols.qualified? CheckM.arrayModel = some symbol)
      (made : Instantiates symbol [part] id) :
      Denotes context (.array element span) id

/-- Type expressions stand for places, one for one. -/
inductive DenotesAll : Context → List TypeExpr → List TypeId → Prop where
  | nil {context} : DenotesAll context [] []
  | cons {context expr rest id ids} (first : Denotes context expr id)
      (others : DenotesAll context rest ids) :
      DenotesAll context (expr :: rest) (id :: ids)

/-- A template with some arguments stands for a place. Read in a lax way, an
argument that is an error makes the whole an error. -/
inductive Instantiates : SymbolId → List TypeId → TypeId → Prop where
  | wrong {template args arg} (loose : lax) (member : arg ∈ args)
      (error : c.types.isError arg = true) :
      Instantiates template args TypeStore.error
  | wrongDefault {template args} (loose : lax)
      (fills : Fills ((env.symbols.symbol template).templateParams.take args.length)
        ((env.symbols.symbol template).templateParams.drop args.length) args none) :
      Instantiates template args TypeStore.error
  | made {template args all id}
      (fills : Fills ((env.symbols.symbol template).templateParams.take args.length)
        ((env.symbols.symbol template).templateParams.drop args.length) args (some all))
      (placed : c.Placed ⟨template, all⟩ id) : Instantiates template args id

/-- The defaults of the parameters that are left complete a list of arguments,
each read where the arguments before it are known, or one of them is an error. -/
inductive Fills : List SymbolId → List SymbolId → List TypeId → Option (List TypeId) → Prop where
  | done {bound args} : Fills bound [] args (some args)
  | next {bound param rest args file expr subst value result}
      (held : ∀ arg ∈ args, c.Holds arg)
      (written : CheckM.defaultOf (env.symbols.symbol param) = some (file, expr))
      (binds : Substitution.ofArguments bound args = .ok subst)
      (denotes : Denotes ⟨file, (env.symbols.symbol param).parent, subst,
        args.any c.isDependent⟩ expr value)
      (others : Fills (bound ++ [param]) rest (args ++ [value]) result) :
      Fills bound (param :: rest) args result
  | broken {bound param rest args file expr subst value} (loose : lax)
      (held : ∀ arg ∈ args, c.Holds arg)
      (written : CheckM.defaultOf (env.symbols.symbol param) = some (file, expr))
      (binds : Substitution.ofArguments bound args = .ok subst)
      (denotes : Denotes ⟨file, (env.symbols.symbol param).parent, subst,
        args.any c.isDependent⟩ expr value)
      (error : c.types.isError value = true) :
      Fills bound (param :: rest) args none

/-- The properties that a member stands for. -/
inductive Contributes : Context → Member → List Property → Prop where
  | property {context decorators name optional type span id applications}
      (denotes : Denotes context type id)
      (decorated : Decorates context decorators applications) :
      Contributes context (.property decorators name optional type span)
        [⟨name.name, id, optional, applications, some (context.location name.span)⟩]
  | spread {context target span id model} (denotes : Denotes context target id)
      (names : c.types.get? id = some (.model model)) :
      Contributes context (.spread target span) model.properties
  | spreadBarren {context target span id} (loose : lax) (denotes : Denotes context target id)
      (barren : c.Barren id) : Contributes context (.spread target span) []

/-- The properties that members stand for, in the order in which they are written. -/
inductive ContributesAll : Context → List Member → List Property → Prop where
  | nil {context} : ContributesAll context [] []
  | cons {context member rest properties others}
      (first : Contributes context member properties)
      (remaining : ContributesAll context rest others) :
      ContributesAll context (member :: rest) (properties ++ others)

/-- The applications that decorators stand for. Read in a lax way, one that has
an error among its arguments stands for none. -/
inductive Decorates : Context → List DecoratorExpr → List Application → Prop where
  | nil {context} : Decorates context [] []
  | cons {context path args span rest symbol decorator values others}
      (named : env.symbols.decorator? context.scope path = some symbol)
      (defined : (env.symbols.symbol symbol).declarations.head?.map Declaration.definition =
        some (.decorator decorator))
      (arguments : Argues context args (some values))
      (remaining : Decorates context rest others) :
      Decorates context (.use path args span :: rest)
        (⟨decorator, (env.symbols.symbol symbol).name, values,
          some (context.location span)⟩ :: others)
  | wrong {context path args span rest symbol decorator others} (loose : lax)
      (named : env.symbols.decorator? context.scope path = some symbol)
      (defined : (env.symbols.symbol symbol).declarations.head?.map Declaration.definition =
        some (.decorator decorator))
      (arguments : Argues context args none)
      (remaining : Decorates context rest others) :
      Decorates context (.use path args span :: rest) others

/-- The values that the arguments of a decorator stand for, unless one is an error. -/
inductive Argues : Context → List DecoratorArg → Option (List Value) → Prop where
  | nil {context} : Argues context [] (some [])
  | literal {context value span rest values} (others : Argues context rest values) :
      Argues context (.literal value span :: rest) (values.map (value.value :: ·))
  | type {context expr rest id values} (denotes : Denotes context expr id)
      (others : Argues context rest values) :
      Argues context (.type expr :: rest) (values.map (.type id :: ·))
  | wrong {context expr rest id} (loose : lax) (denotes : Denotes context expr id)
      (error : c.types.isError id = true) : Argues context (.type expr :: rest) none

end

/-- What a model takes over from the model it is declared as a copy of. -/
inductive Inherits (context : Context) : Heritage → List Property → List Application → Prop where
  | plain : Inherits context .plain [] []
  | extending {base} : Inherits context (.extends base) [] []
  | is {source id model} (denotes : Denotes lax env c context source id)
      (names : c.types.get? id = some (.model model)) :
      Inherits context (.is source) model.properties model.decorators
  | isBarren {source id} (loose : lax) (denotes : Denotes lax env c context source id)
      (barren : c.Barren id) : Inherits context (.is source) [] []

/-- A model has the properties and decorators that its declaration says. -/
def ReadsModel (context : Context) (decl : ModelDecl) (model : ModelType) : Prop :=
  ∃ properties decorators contributed own,
    Inherits lax env c context decl.heritage properties decorators ∧
    ContributesAll lax env c context decl.members contributed ∧
    Decorates lax env c context decl.decorators own ∧
    model.properties = properties ++ contributed ∧ model.decorators = decorators ++ own

/-- An operation has the parameters, the result and the decorators that its
declaration says. -/
def ReadsOperation (context : Context) (decorators : List DecoratorExpr) (parameters : List Member)
    (returns : TypeExpr) (operation : OperationType) : Prop :=
  ∃ properties, c.types.get? operation.parameters = some (.model { properties }) ∧
    ContributesAll lax env c context parameters properties ∧
    Denotes lax env c context returns operation.returns ∧
    Decorates lax env c context decorators operation.decorators

end

/-- Where the body of a declaration is read, for a place of the store. -/
def Checker.bodyContext (c : Checker) (symbol : Symbol) (declaration : Declaration)
    (subst : Substitution) (id : TypeId) : Context :=
  ⟨declaration.location.file, symbol.bodyScope, subst, c.isDependent id⟩

/-- A type is what a body says. Nothing is said of interfaces, and of operations
that take over a signature. -/
def ReadsBody (lax : Prop) (env : Environment) (c : Checker) (context : Context)
    (definition : Definition) (type : CheckedType) : Prop :=
  match definition with
  | .model decl => ∃ model, type = .model model ∧ ReadsModel lax env c context decl model
  | .operation decl => match decl.signature with
    | .written parameters _ returns => ∃ operation, type = .operation operation ∧
      ReadsOperation lax env c context decl.decorators parameters returns operation
    | .reuse _ => True
  | _ => True

/-- A type is what the declaration of a key says, read with the arguments of the
key. -/
def Reads (env : Environment) (c : Checker) (key : ResolutionKey) (id : TypeId)
    (type : CheckedType) : Prop :=
  let symbol := env.symbols.symbol key.symbol
  ∀ declaration subst, symbol.declarations.head? = some declaration →
    Substitution.ofArguments symbol.templateParams key.args = .ok subst →
    ReadsBody True env c (c.bodyContext symbol declaration subst id) declaration.definition type

/-- The types that a declared type leads to are those that its declaration refers to: the models
that a model is built on, the signature that an operation takes over, the operations of an
interface. An operation that takes over the signature of something that is none is an error. -/
inductive Refers (env : Environment) (c : Checker) (context : Context) (key : ResolutionKey) :
    Definition → CheckedType → Prop where
  | model {decl model} (symbol : model.symbol = some key.symbol)
      (base : ∀ id ∈ model.base, ∃ expr, decl.heritage = .extends expr ∧
        Denotes True env c context expr id)
      (source : ∀ id ∈ model.source, ∃ expr, decl.heritage = .is expr ∧
        Denotes True env c context expr id)
      (template : ∀ made ∈ model.template, made.arguments = key.args) :
      Refers env c context key (.model decl) (.model model)
  | written {decl parameters span returns operation}
      (signature : decl.signature = .written parameters span returns)
      (source : operation.source = none)
      (template : ∀ made ∈ operation.template, made.arguments = key.args) :
      Refers env c context key (.operation decl) (.operation operation)
  | reuse {decl expr id found operation properties} (signature : decl.signature = .reuse expr)
      (denotes : Denotes True env c context expr id)
      (names : c.types.get? id = some (.operation found))
      (source : operation.source = some id) (returns : operation.returns = found.returns)
      (stored : c.types.get? operation.parameters = some (.model { properties }))
      (copied : ∀ property ∈ properties, ∃ model,
        c.types.get? found.parameters = some (.model model) ∧ property ∈ model.properties)
      (template : ∀ made ∈ operation.template, made.arguments = key.args) :
      Refers env c context key (.operation decl) (.operation operation)
  | reuseWrong {decl expr id} (signature : decl.signature = .reuse expr)
      (denotes : Denotes True env c context expr id) (barren : c.Barren id) :
      Refers env c context key (.operation decl) .error
  | interface {decl interface} (symbol : interface.symbol = some key.symbol)
      (operations : ∀ operation entry,
        (operation, entry) ∈ (env.symbols.members key.symbol).zip interface.operations →
          ∃ args, c.Placed ⟨operation, args⟩ entry.2) :
      Refers env c context key (.interface decl) (.interface interface)

/-- A type leads to what the declaration of a key refers to, read with the arguments of the key. -/
def ReadsLinks (env : Environment) (c : Checker) (key : ResolutionKey) (id : TypeId)
    (type : CheckedType) : Prop :=
  let symbol := env.symbols.symbol key.symbol
  ∀ declaration subst, symbol.declarations.head? = some declaration →
    Substitution.ofArguments symbol.templateParams key.args = .ok subst →
    Refers env c (c.bodyContext symbol declaration subst id) key declaration.definition type

/-- What one decorator stands for comes before what the others stand for. -/
theorem Decorates.append (decorates : Decorates True env c context [expr] early)
    (remaining : Decorates True env c context rest late) :
    Decorates True env c context (expr :: rest) (early ++ late) := by
  cases decorates with
  | cons named defined arguments none =>
    cases none
    exact .cons named defined arguments remaining
  | wrong loose named defined arguments none =>
    cases none
    exact .wrong loose named defined arguments remaining

theorem Grows.expresses (grown : Grows before after) {dependent : Bool} {id : TypeId}
    (held : before.Expresses dependent properties id) :
    after.Expresses dependent properties id := by
  unfold Checker.Expresses at *
  split at held
  · rename_i plain
    rw [if_pos plain]
    exact grown.models _ _ held
  · rename_i other
    rw [if_neg other, grown.isDependent (TypeStore.lt_size_of_get? held.1)]
    exact ⟨grown.filled _ _ held.1, held.2⟩

theorem Grows.barren (grown : Grows before after) {id : TypeId} (barren : before.Barren id) :
    after.Barren id :=
  barren.imp (grown.filled _ _) fun ⟨param, found⟩ => ⟨param, grown.filled _ _ found⟩

mutual

theorem Denotes.grows (grown : Grows before after) {id : TypeId} :
    Denotes lax env before context expr id → Denotes lax env after context expr id
  | .bound named kind value => .bound named kind value
  | .unbound loose named kind free own => .unbound loose named kind free (grown.params _ _ own)
  | .declared named declares plain placed => .declared named declares plain (grown.placed placed)
  | .applied named declares template arguments made =>
    .applied named declares template (arguments.grows grown) (made.grows grown)
  | .intrinsic => .intrinsic
  | .union parts stored => .union (parts.grows grown) (grown.unions _ _ stored)
  | .model written stored => .model (written.grows grown) (grown.expresses stored)
  | .array inner named made => .array (inner.grows grown) named (made.grows grown)

theorem DenotesAll.grows (grown : Grows before after) :
    DenotesAll lax env before context exprs ids → DenotesAll lax env after context exprs ids
  | .nil => .nil
  | .cons first others => .cons (first.grows grown) (others.grows grown)

theorem Instantiates.grows (grown : Grows before after) {id : TypeId} :
    Instantiates lax env before template args id → Instantiates lax env after template args id
  | .wrong loose member error => .wrong loose member (grown.isError error)
  | .wrongDefault loose fills => .wrongDefault loose (fills.grows grown)
  | .made fills placed => .made (fills.grows grown) (grown.placed placed)

theorem Fills.grows (grown : Grows before after) :
    Fills lax env before bound rest args result → Fills lax env after bound rest args result
  | .done => .done
  | .next held written binds denotes others =>
    .next (fun arg member => grown.holds (held arg member)) written binds
      (grown.anyDependent held ▸ denotes.grows grown) (others.grows grown)
  | .broken loose held written binds denotes error =>
    .broken loose (fun arg member => grown.holds (held arg member)) written binds
      (grown.anyDependent held ▸ denotes.grows grown) (grown.isError error)

theorem Contributes.grows (grown : Grows before after) :
    Contributes lax env before context member properties →
      Contributes lax env after context member properties
  | .property denotes decorated => .property (denotes.grows grown) (decorated.grows grown)
  | .spread denotes names => .spread (denotes.grows grown) (grown.filled _ _ names)
  | .spreadBarren loose denotes barren =>
    .spreadBarren loose (denotes.grows grown) (grown.barren barren)

theorem ContributesAll.grows (grown : Grows before after) :
    ContributesAll lax env before context members properties →
      ContributesAll lax env after context members properties
  | .nil => .nil
  | .cons first remaining => .cons (first.grows grown) (remaining.grows grown)

theorem Decorates.grows (grown : Grows before after) :
    Decorates lax env before context decorators applications →
      Decorates lax env after context decorators applications
  | .nil => .nil
  | .cons named defined arguments remaining =>
    .cons named defined (arguments.grows grown) (remaining.grows grown)
  | .wrong loose named defined arguments remaining =>
    .wrong loose named defined (arguments.grows grown) (remaining.grows grown)

theorem Argues.grows (grown : Grows before after) :
    Argues lax env before context args values → Argues lax env after context args values
  | .nil => .nil
  | .literal others => .literal (others.grows grown)
  | .type denotes others => .type (denotes.grows grown) (others.grows grown)
  | .wrong loose denotes error => .wrong loose (denotes.grows grown) (grown.isError error)

end

variable (grown : Grows before after)
include grown

theorem Inherits.grows (inherits : Inherits lax env before context heritage properties decorators) :
    Inherits lax env after context heritage properties decorators := by
  cases inherits with
  | plain => exact .plain
  | extending => exact .extending
  | is denotes names => exact .is (denotes.grows grown) (grown.filled _ _ names)
  | isBarren loose denotes barren =>
    exact .isBarren loose (denotes.grows grown) (grown.barren barren)

theorem ReadsModel.grows (reads : ReadsModel lax env before context decl model) :
    ReadsModel lax env after context decl model := by
  obtain ⟨properties, decorators, contributed, own, inherits, written, decorated, same⟩ := reads
  exact ⟨properties, decorators, contributed, own, inherits.grows grown, written.grows grown,
    decorated.grows grown, same⟩

theorem ReadsOperation.grows
    (reads : ReadsOperation lax env before context decorators parameters returns operation) :
    ReadsOperation lax env after context decorators parameters returns operation := by
  obtain ⟨properties, stored, written, result, decorated⟩ := reads
  exact ⟨properties, grown.filled _ _ stored, written.grows grown, result.grows grown,
    decorated.grows grown⟩

theorem ReadsBody.grows (reads : ReadsBody lax env before context definition type) :
    ReadsBody lax env after context definition type := by
  cases definition with
  | model decl =>
    obtain ⟨model, shape, read⟩ := reads
    exact ⟨model, shape, read.grows grown⟩
  | operation decl =>
    simp only [ReadsBody] at reads ⊢
    split at reads
    · obtain ⟨operation, shape, read⟩ := reads
      exact ⟨operation, shape, read.grows grown⟩
    · trivial
  | _ => trivial

/-- What a type says about the source does not depend on when it is read. -/
theorem Reads.grows {id : TypeId} (held : before.Holds id)
    (reads : Reads env before key id type) : Reads env after key id type := by
  intro declaration subst first binds
  rw [Checker.bodyContext, grown.isDependent held]
  exact (reads declaration subst first binds).grows grown

theorem Refers.grows (refers : Refers env before context key definition type) :
    Refers env after context key definition type := by
  have same {expr : TypeExpr} {id : TypeId} (denotes : Denotes True env before context expr id) :
      Denotes True env after context expr id := denotes.grows grown
  cases refers with
  | model symbol base source template =>
    refine .model symbol (fun id given => ?_) (fun id given => ?_) template
    · obtain ⟨expr, written, denotes⟩ := base id given
      exact ⟨expr, written, same denotes⟩
    · obtain ⟨expr, written, denotes⟩ := source id given
      exact ⟨expr, written, same denotes⟩
  | written signature source template => exact .written signature source template
  | reuse signature denotes names source returns stored copied template =>
    refine .reuse signature (same denotes) (grown.filled _ _ names) source returns
      (grown.filled _ _ stored) (fun property member => ?_) template
    obtain ⟨model, found, inside⟩ := copied property member
    exact ⟨model, grown.filled _ _ found, inside⟩
  | reuseWrong signature denotes barren =>
    exact .reuseWrong signature (same denotes) (grown.barren barren)
  | interface symbol operations =>
    refine .interface symbol fun operation entry member => ?_
    obtain ⟨args, placed⟩ := operations operation entry member
    exact ⟨args, grown.placed placed⟩

theorem ReadsLinks.grows {id : TypeId} (held : before.Holds id)
    (links : ReadsLinks env before key id type) : ReadsLinks env after key id type := by
  intro declaration subst first binds
  rw [Checker.bodyContext, grown.isDependent held]
  exact (links declaration subst first binds).grows grown

end Idl
