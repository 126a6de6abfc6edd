import Idl.Proofs.ReadingLimits

/-! The steps that declarations and whole files need, the names they declare and what is
read. After a declaration that broke off the rest of its statement is skipped, and a
token that stands first is among what is skipped unless it ends the block, so every
round of reading items takes a token. A declared name is always a word of the text.
Skipping starts only after a finding, so what it passes over is no part of a text that
was read without one. At the top level the items go with the imports met on the way; in
a block an import is a finding of its own. -/
namespace Idl

section
variable (word : String → Prop)

def TemplateParam.Spelled (param : TemplateParam) : Prop := word param.name.name

def ModelDecl.Spelled (decl : ModelDecl) : Prop :=
  word decl.name.name ∧ ∀ param ∈ decl.params, param.Spelled word

def OperationDecl.Spelled (decl : OperationDecl) : Prop :=
  word decl.name.name ∧ ∀ param ∈ decl.params, param.Spelled word

def InterfaceDecl.Spelled (decl : InterfaceDecl) : Prop :=
  word decl.name.name ∧ ∀ operation ∈ decl.operations, operation.Spelled word

/-- Every name that is declared somewhere in an item is a word. -/
inductive Item.Spelled : Item → Prop where
  | space {head : NamespaceHead} {items : List Item} (path : ∀ name ∈ head.path, word name.name)
      (inner : ∀ item ∈ items, Spelled item) : Spelled (.space head items)
  | model {decl : ModelDecl} (spelled : decl.Spelled word) : Spelled (.model decl)
  | operation {decl : OperationDecl} (spelled : decl.Spelled word) : Spelled (.operation decl)
  | interface {decl : InterfaceDecl} (spelled : decl.Spelled word) : Spelled (.interface decl)
  | using (decl : UsingDecl) : Spelled (.using decl)

end

namespace Syntax.Parser
variable {m : Nat}

/-! ### Skipping to the end of a statement -/

theorem skipStatement_reads (topLevel : Bool) (depth : Nat) (skipped : Bool) (le : n ≤ m) :
    Reads source Any Any AnyText 0 (n - 1) (skipStatement topLevel n depth skipped)
      (skipStatement topLevel m depth skipped) := by
  induction n, m, le using steps_induction generalizing depth skipped with
  | start => exact .exhausted (by omega)
  | none n m _ ih => exact (ih depth skipped).starved (by omega)
  | step n m _ ih =>
    refine .kind fun token _ => ?_
    have further (depth : Nat) (more : token.kind ≠ .endOfFile) :
        Reads source (· = token) Any AnyText 0 ((n + 1 : Nat) - 1)
          (advance >>= fun _ => skipStatement topLevel n depth true)
          (advance >>= fun _ => skipStatement topLevel m depth true) :=
      .advance (fun _ is => is ▸ more) fun _ => (ih depth true).last (by omega) (by omega)
    split
    · exact .stop
    · rename_i is
      refine .advance (by simp_all) fun _ => .ite (fun _ => .stop) fun _ => ?_
      exact (ih _ _).last (by omega) (by omega)
    · exact further _ (by simp_all)
    · refine .ite (fun _ => .ite (fun _ => ?_) fun _ => .stop) fun _ => ?_
      · exact .advance (by simp_all) fun _ => .stop
      · refine .advance (by simp_all) fun _ => .ite (fun _ => .stop) fun _ => ?_
        exact (ih _ _).last (by omega) (by omega)
    iterate 7 exact .ite (fun _ => .stop) fun _ => further _ (by simp_all)
    · exact further _ (by simp_all)

/-- A token at which items go on. -/
structure Starting (topLevel : Bool) (token : Token) : Prop where
  more : token.kind ≠ .endOfFile
  inner : token.kind = .mark .closeBrace → topLevel = true

/-- A token of the block that stands first is skipped. -/
theorem skipStatement_takes (topLevel : Bool) (le : n ≤ m) :
    Reads source (Starting topLevel) Any AnyText 1 (n - 1) (skipStatement topLevel n 0 false)
      (skipStatement topLevel m 0 false) := by
  induction n, m, le using steps_induction with
  | start => exact .exhausted (by omega)
  | none n m _ ih => exact ih.starved (by omega)
  | step n m le _ =>
    refine .kind fun token starting => ?_
    have further (depth : Nat) : Reads source (· = token) Any AnyText 1 ((n + 1 : Nat) - 1)
        (advance >>= fun _ => skipStatement topLevel n depth true)
        (advance >>= fun _ => skipStatement topLevel m depth true) :=
      .advance (fun _ is => is ▸ starting.more) fun _ =>
        (skipStatement_reads topLevel depth true le).last (by omega) (by omega)
    split
    · rename_i is
      exact absurd is starting.more
    · refine .advance (fun _ is => is ▸ starting.more) fun _ => ?_
      exact .ite (fun _ => .stop) fun deep => absurd rfl deep
    · exact further _
    · rename_i is
      refine .ite (fun _ => .ite (fun _ => ?_) fun outer => ?_) fun deep => absurd rfl deep
      · exact .advance (fun _ is => is ▸ starting.more) fun _ => .stop
      · exact absurd ⟨starting.inner is, by simp⟩ outer
    iterate 7 exact .ite (fun both => by simp at both) fun _ => further _
    · exact further _

/-! ### Declarations -/

theorem templateParamList_reads (le : n ≤ m) :
    Reads source Any (fun params => ∀ param ∈ params, param.Spelled (Word source))
      (Plainly fun params tokens => ParamsText (params.map TemplateParam.bare) tokens) 1 (n - 1)
      (templateParamList n) (templateParamList m) := by
  induction n, m, le using steps_induction with
  | start => exact .exhausted (by omega)
  | none n m _ ih => exact ih.starved (by omega)
  | step n m le ih =>
    refine .bind_plain (ident_reads _) (Int.le_refl _) fun name _ fine => ?_
    -- A parameter may be followed by another one whether or not it has a default.
    have listed (default : Option TypeExpr) : Reads source Any
        (fun params => ∀ param ∈ params, param.Spelled (Word source))
        (Plainly fun params more => ∀ named given, NameText IsIdent name named →
          DefaultText (default.map TypeExpr.bare) given →
          ParamsText (params.map TemplateParam.bare) (named ++ (given ++ more))) 0 (n + 1 - 1 - 8)
        (spanFrom name.span >>= fun span => do
          if ← eat (.mark .comma) then
            let tail ← templateParamList n
            return (⟨name, default, span⟩ : TemplateParam) :: tail
          else
            let _ ← expect (.mark .greater)
            return [⟨name, default, span⟩])
        (spanFrom name.span >>= fun span => do
          if ← eat (.mark .comma) then
            let tail ← templateParamList m
            return (⟨name, default, span⟩ : TemplateParam) :: tail
          else
            let _ ← expect (.mark .greater)
            return [⟨name, default, span⟩]) := by
      refine .spanFrom fun span => .eat (by simp) (fun _ comma => ?_) ?_
      · refine .bind_plain ih (by omega) fun tail _ rest => .pure ?_ fun _ more inner => ⟨rfl, ?_⟩
        · simpa [TemplateParam.Spelled] using ⟨fine, rest⟩
        · rintro _ given ⟨token, is, same, rfl⟩ written
          simpa [TemplateParam.bare, same] using ParamsText.cons is written comma inner
      · refine .expect (by simp) fun _ closes => .pure ?_ fun _ => ⟨rfl, ?_⟩
        · simpa [TemplateParam.Spelled] using fine
        · rintro _ given ⟨token, is, same, rfl⟩ written
          simpa [TemplateParam.bare, same] using ParamsText.last is written closes
    refine .eat (by simp) (fun _ sign => ?_) (.given ((listed none).weaken (fun _ fine => fine)
      (by omega) (by omega) ?_))
    · refine .bind_plain (reading source le).typeExpr (by omega) fun type _ _ => .given ?_
      refine (listed (some type)).weaken (fun _ fine => fine) (by omega) (by omega) ?_
      rintro _ params last _ more ⟨rfl, joins⟩ tokens inner named names
      refine ⟨rfl, ?_⟩
      simpa using joins named _ names (.present sign inner)
    · rintro _ params last _ more ⟨rfl, joins⟩ named names
      exact ⟨rfl, joins named _ names .missing⟩

theorem templateParams_reads (le : n ≤ m) :
    Reads source Any (fun params => ∀ param ∈ params, param.Spelled (Word source))
      (Plainly fun params tokens => TemplateText (params.map TemplateParam.bare) tokens) 0 n
      (templateParams n) (templateParams m) := by
  refine .eat (by simp) (fun _ opens => ?_) (.pure (by simp) fun _ => ⟨rfl, .missing⟩)
  refine (templateParamList_reads le).weaken (fun _ fine => fine) (by omega) (by omega) ?_
  rintro _ params _ _ tokens ⟨rfl, inner⟩
  exact ⟨rfl, .present opens inner⟩

theorem heritage_reads (le : n ≤ m) : Reads source Any Any
    (Plainly fun built tokens => HeritageText built.bare tokens) 0 n (heritage n) (heritage m) := by
  refine .eat (by simp) (fun _ word => ?_) (.eat (by simp) (fun _ word => ?_)
    (.pure trivial fun _ => ⟨rfl, .plain⟩))
  · refine .bind_plain (reading source le).typeExpr (by omega) fun _ _ _ => .pure trivial fun _ => ?_
    intro tokens inner
    refine ⟨rfl, ?_⟩
    simpa [Heritage.bare] using HeritageText.copy word inner
  · refine .bind_plain (reading source le).typeExpr (by omega) fun _ _ _ => .pure trivial fun _ => ?_
    intro tokens inner
    refine ⟨rfl, ?_⟩
    simpa [Heritage.bare] using HeritageText.extension word inner

theorem modelBody_reads (built : Heritage) (le : n ≤ m) : Reads source Any Any
    (Plainly fun members tokens => ModelBodyText built.bare (Member.allBare members) tokens) 0 n
    (modelBody built n) (modelBody built m) := by
  have block {pre : Token → Prop} : Reads source pre Any
      (Plainly fun members tokens => ModelBodyText built.bare (Member.allBare members) tokens) 0 n
      (expect (.mark .openBrace) >>= fun _ => do
        let members ← members .closeBrace n
        let _ ← expect (.mark .closeBrace)
        return members)
      (expect (.mark .openBrace) >>= fun _ => do
        let members ← members .closeBrace m
        let _ ← expect (.mark .closeBrace)
        return members) := by
    refine .expect (by simp) fun _ opens => ?_
    refine .bind ((reading source le).members .closeBrace (.inl rfl)) (by omega) fun list _ _ => ?_
    refine .expect (by simp) fun _ closes => .pure trivial fun _ => ?_
    rintro _ tokens ⟨rfl, inner, _⟩
    exact ⟨rfl, .block opens inner closes⟩
  cases built with
  | is base => exact .eat (by simp) (fun _ ends => .pure trivial fun _ => ⟨rfl, .missing ends⟩) block
  | plain => exact .given block
  | «extends» base => exact .given block

/-- A declaration after its decorators. -/
def Declares (decorators : List DecoratorExpr) (item : Item) (tokens : List Token) : Prop :=
  ∀ before, DecoratorsText (DecoratorExpr.allBare decorators) before →
    ItemText item (before ++ tokens)

theorem model_reads (decorators : List DecoratorExpr) (start : Span) (le : n ≤ m) :
    Reads source pre (fun decl => decl.Spelled (Word source))
      (Plainly fun decl tokens => Declares decorators (.model decl.bare) tokens) 1 n
      (model decorators start n) (model decorators start m) := by
  refine .expect (by simp) fun _ word => ?_
  refine .bind_plain (ident_reads _) (Int.le_refl _) fun name _ fine => ?_
  refine .bind_plain (templateParams_reads le) (by omega) fun params _ rest => ?_
  refine .bind_plain (heritage_reads le) (by omega) fun built _ _ => ?_
  refine .bind_plain (modelBody_reads built le) (by omega) fun members _ _ => ?_
  refine .spanFrom fun _ => .pure ⟨fine, rest⟩ fun _ => ?_
  rintro body inner origin built template parameters _ ⟨token, is, same, rfl⟩
  refine ⟨rfl, fun before decorated => ?_⟩
  simpa [ModelDecl.bare, same] using ItemText.model decorated word is parameters built inner

theorem signature_reads (le : n ≤ m) : Reads source Any Any
    (Plainly fun written tokens => SignatureText written.bare tokens) 1 n (signature n)
    (signature m) := by
  refine .current fun _ _ => .eat (by simp) (fun inside opens => ?_)
    (.eat (by simp) (fun _ colon => ?_) (.expected _))
  · refine .bind ((reading source le).members .closeParen (.inr (opens ▸ inside.occurs))) (by omega)
      fun list _ _ => .expect (by simp) fun _ closes => .spanFrom fun _ => ?_
    refine .expect (by simp) fun _ colon => ?_
    refine .bind_plain (reading source le).typeExpr (by omega) fun _ _ _ => .pure trivial fun _ => ?_
    rintro more result _ tokens ⟨rfl, inner, _⟩
    refine ⟨rfl, ?_⟩
    simpa [Signature.bare] using SignatureText.written opens inner closes colon result
  · refine .bind_plain (reading source le).typeExpr (by omega) fun _ _ _ => .pure trivial fun _ => ?_
    intro tokens inner
    refine ⟨rfl, ?_⟩
    simpa [Signature.bare] using SignatureText.reuse colon inner

theorem operation_reads (decorators : List DecoratorExpr) (start : Span) (le : n ≤ m) :
    Reads source Any (fun decl => decl.Spelled (Word source)) (Plainly fun decl tokens =>
      OperationText (DecoratorExpr.allBare decorators) decl.bare tokens) 1 n
      (operation decorators start n) (operation decorators start m) := by
  refine .bind_plain (ident_reads _) (Int.le_refl _) fun name _ fine => ?_
  refine .bind_plain (templateParams_reads le) (by omega) fun params _ rest => ?_
  refine .bind_plain (signature_reads le) (by omega) fun signature _ _ => ?_
  refine .expect (by simp) fun _ ends => .spanFrom fun _ => .pure ⟨fine, rest⟩ fun _ => ?_
  rintro tokens written template parameters _ ⟨token, is, same, rfl⟩
  refine ⟨rfl, ?_⟩
  simpa [OperationDecl.bare, same] using OperationText.intro is parameters written ends

theorem interfaceMember_reads (le : n ≤ m) :
    Reads source Any (fun decl => decl.Spelled (Word source))
      (Plainly fun decl tokens => ∀ rest more, OperationsText rest more →
        OperationsText (decl.bare :: rest) (tokens ++ more)) 1 (n - 1) (interfaceMember n)
      (interfaceMember m) := by
  refine .current fun token _ => ?_
  refine .bind_plain (reading source le).decorators.here (by omega) fun decorators _ _ => ?_
  refine .maybe (by simp) fun worded => (operation_reads decorators _ le).weaken (fun _ fine => fine)
    (by omega) (by omega) ?_
  rintro _ decl _ _ tokens ⟨rfl, head⟩ word said before decorated
  refine ⟨rfl, fun rest more tail => ?_⟩
  simpa using OperationsText.cons decorated said head tail

theorem interfaceMembers_reads (le : n ≤ m) :
    Reads source Any (fun list => ∀ decl ∈ list, decl.Spelled (Word source))
      (Plainly fun list tokens => OperationsText (list.map OperationDecl.bare) tokens) 0 (n - 2)
      (interfaceMembers n) (interfaceMembers m) := by
  induction n, m, le using steps_induction with
  | start => exact .exhausted (by omega)
  | none n m _ ih => exact ih.starved (by omega)
  | step n m le ih =>
    refine .kind fun token _ => .ite (fun _ => .pure (by simp) fun _ => ⟨rfl, .nil⟩) fun going => ?_
    rw [not_or] at going
    refine .recover (interfaceMember_reads le).here (by omega) (fun head _ fine => ?_) rfl rfl
      (skipStatement_reads false 0 false le) ?_ (by omega) (ih.last (by omega) (by omega))
    · refine .bind_plain ih (by omega) fun tail _ rest => .pure (by simpa using ⟨fine, rest⟩) fun _ => ?_
      rintro more rest _ tokens ⟨rfl, joins⟩
      refine ⟨rfl, ?_⟩
      simpa using joins _ _ rest
    · refine (skipStatement_takes false le).narrow ?_
      rintro _ rfl
      exact ⟨going.2, fun closes => absurd closes going.1⟩

theorem interface_reads (decorators : List DecoratorExpr) (start : Span) (le : n ≤ m) :
    Reads source pre (fun decl => decl.Spelled (Word source))
      (Plainly fun decl tokens => Declares decorators (.interface decl.bare) tokens) 1 n
      (interface decorators start n) (interface decorators start m) := by
  refine .expect (by simp) fun _ word => ?_
  refine .bind_plain (ident_reads _) (Int.le_refl _) fun name _ fine => ?_
  refine .expect (by simp) fun _ opens => ?_
  refine .bind_plain (interfaceMembers_reads le) (by omega) fun list _ rest => ?_
  refine .expect (by simp) fun _ closes => .spanFrom fun _ => .pure ⟨fine, rest⟩ fun _ => ?_
  rintro tokens inner _ ⟨token, is, same, rfl⟩
  refine ⟨rfl, fun before decorated => ?_⟩
  simpa [InterfaceDecl.bare, same] using ItemText.interface decorated word is opens inner closes

/-! ### Items -/

/-- The items of a file with its imports, read up to the end, or the items of a block. -/
def ItemsRead (topLevel : Bool) (items : List Item) (last : State) (imports : List ImportDecl)
    (tokens : List Token) : Prop :=
  if topLevel then ScriptText imports items tokens ∧ last.current.kind = .endOfFile
  else imports = [] ∧ ItemsText items tokens

/-- Tokens that may stand in front of any items. -/
def Leads (topLevel : Bool) (found : List Item) (imports : List ImportDecl)
    (tokens : List Token) : Prop :=
  ∀ items last others more, ItemsRead topLevel items last others more →
    ItemsRead topLevel (found ++ items) last (imports ++ others) (tokens ++ more)

/-- Whether an item is a namespace that takes all that follows. -/
def takesRest : Item → Bool
  | .space head _ => head.blockless
  | _ => false

/-- One item, which leads others or is a namespace with all of the rest. -/
def ItemRead (topLevel : Bool) (item : Item) (last : State) (imports : List ImportDecl)
    (tokens : List Token) : Prop :=
  if takesRest item then ItemsRead topLevel [item.bare] last imports tokens
  else Leads topLevel [item.bare] imports tokens

/-- An item after its decorators. -/
def ItemDeclared (topLevel : Bool) (decorators : List DecoratorExpr) : Text Item :=
  fun _ item last imports tokens => ∀ before,
    DecoratorsText (DecoratorExpr.allBare decorators) before →
      ItemRead topLevel item last imports (before ++ tokens)

theorem leads_item (topLevel : Bool) {item : Item} (head : ItemText item tokens) :
    Leads topLevel [item] [] tokens := by
  intro items last others more tail
  cases topLevel with
  | true => exact ⟨.cons head tail.1, tail.2⟩
  | false => exact ⟨tail.1, .cons head tail.2⟩

theorem Declares.item {decorators : List DecoratorExpr} {item : Item}
    (declares : Declares decorators item.bare tokens)
    (plain : takesRest item = false) : ItemDeclared topLevel decorators s item last [] tokens := by
  intro before decorated
  rw [ItemRead, if_neg (by simp [plain])]
  exact leads_item topLevel (declares before decorated)

theorem importDecl_reads (topLevel : Bool) (budget : Int)
    (word : ∀ token, pre token → token.kind = .keyword .kwImport) :
    Reads source pre Any (fun _ _ _ imports tokens => Leads topLevel [] imports tokens) 1 budget
      (importDecl topLevel) (importDecl topLevel) := by
  refine .current fun token here => .advance ?_ fun same => ?_
  · rintro _ rfl
    simp [word _ here]
  refine .expect (by simp) fun _ file => .expect (by simp) fun _ ends => .spanFrom fun span => ?_
  refine .ite (fun top => ?_) fun _ => .report (fun _ _ => .misplaced (by simp [misplacements])) .stop
  subst top
  refine fun s _ _ => ⟨.same ⟨.single (.imported _), fun _ free => free, ?_⟩ trivial, fun _ => rfl,
    fun _ silent => ⟨[], _, ⟨silent, ⟨[], rfl, rfl, by simp⟩, List.map_append⟩, ?_⟩⟩
  · rintro _ _ ⟨⟩
    exact ⟨trivial, Nat.le_refl _⟩
  · rintro items last others more ⟨tail, ended⟩
    exact ⟨.imports (word _ (same ▸ here)) file ends tail, ended⟩

theorem usingDecl_reads (le : n ≤ m) (word : ∀ token, pre token → token.kind = .keyword .kwUsing) :
    Reads source pre Any (Plainly fun decl tokens => ItemText (.using decl.bare) tokens) 1 n
      (usingDecl n) (usingDecl m) := by
  refine .current fun token here => .advance ?_ fun same => ?_
  · rintro _ rfl
    simp [word _ here]
  refine .bind_plain (path_reads ident_reads ident_reads le) (by omega) fun path _ _ => ?_
  refine .expect (by simp) fun _ ends => .spanFrom fun _ => .pure trivial fun _ => ?_
  exact fun tokens names => ⟨rfl, .using (word _ (same ▸ here)) names ends⟩

theorem declaration_reads {space : Parser Item} (decorators : List DecoratorExpr) (start : Span)
    (le : n ≤ m) (inner : Reads source Any (fun item => item.Spelled (Word source))
      (ItemDeclared topLevel decorators) 1 (n - 1) space spacing) :
    Reads source Any (fun item => item.Spelled (Word source)) (ItemDeclared topLevel decorators) 1
      (n - 1) (declaration space decorators start n) (declaration spacing decorators start m) := by
  refine .kind fun token _ => ?_
  generalize stands : token.kind = kind
  split
  · exact inner.here
  · refine .bind_plain (model_reads decorators start le) (by omega) fun decl _ fine =>
      .pure (.model fine) fun _ tokens declares => Declares.item ?_ rfl
    simpa [Item.bare] using declares
  · refine .advance (by simp [stands]) fun here => ?_
    refine .bind_plain (operation_reads decorators start le) (by omega) fun decl _ fine =>
      .pure (.operation fine) fun _ tokens written => Declares.item (fun before decorated => ?_) rfl
    simpa [Item.bare] using ItemText.operation decorated (here ▸ stands) written
  · refine .bind_plain (interface_reads decorators start le) (by omega) fun decl _ fine =>
      .pure (.interface fine) fun _ tokens declares => Declares.item ?_ rfl
    simpa [Item.bare] using declares
  · exact fun _ _ here => ⟨.broken .refl rfl, fun _ => rfl,
      fun proper => proper.current_invalid (here ▸ stands)⟩
  · refine .current fun _ _ => .complain ?_
    rintro s rfl
    exact .report (.inr (.inl rfl))

/-- What is known of the readers of items that may nest so many steps. -/
structure ReadingItems (source : List Scanned) (n m : Nat) : Prop where
  items : ∀ topLevel, Reads source Any (fun list => ∀ item ∈ list, item.Spelled (Word source))
    (fun _ list => ItemsRead topLevel (Item.allBare list)) 0 (n - 3) (items topLevel n)
    (items topLevel m)
  item : ∀ topLevel, Reads source Any (fun found => ∀ item ∈ found, item.Spelled (Word source))
    (fun _ found last imports tokens =>
      found.elim (Leads topLevel [] imports tokens) (ItemRead topLevel · last imports tokens)) 1
    (n - 2) (item topLevel n) (item topLevel m)
  space : ∀ decorators start topLevel, Reads source Any (fun item => item.Spelled (Word source))
    (ItemDeclared topLevel decorators) 1 (n - 1) (space decorators start topLevel n)
    (space decorators start topLevel m)

section
variable (ih : ReadingItems source n m) (le : n ≤ m)
include ih le

theorem items_reads (topLevel : Bool) :
    Reads source Any (fun list => ∀ item ∈ list, item.Spelled (Word source))
      (fun _ list => ItemsRead topLevel (Item.allBare list)) 0 ((n + 1 : Nat) - 3)
      (items topLevel (n + 1)) (items topLevel (m + 1)) := by
  have further := ih.items topLevel
  refine .kind fun token _ => .ite (fun stops => .pure (by simp) fun here => ?_) fun going => ?_
  · cases topLevel with
    | true => exact ⟨.nil, by simpa [here] using stops⟩
    | false => exact ⟨rfl, .nil⟩
  rw [not_or, not_and] at going
  refine .recover (ih.item topLevel).here (by omega) (fun found _ fine => ?_) rfl rfl
    (skipStatement_reads topLevel 0 false le) ?_ (by omega) (further.last (by omega) (by omega))
  · cases found with
    | none =>
      refine further.weaken (fun _ fine => fine) (by omega) (by omega) ?_
      exact fun _ list last others more tail imports tokens leads => leads _ _ _ _ tail
    | some head =>
      have spelled := fine head rfl
      have listed (plain : takesRest head = false) : Reads source Any
          (fun list => ∀ item ∈ list, item.Spelled (Word source))
          (fun middle list last others more => ∀ imports tokens,
            ItemRead topLevel head middle imports tokens →
              ItemsRead topLevel (Item.allBare list) last (imports ++ others) (tokens ++ more)) 0
          ((n + 1 : Nat) - 3 - 8) (items topLevel n >>= fun tail => Pure.pure (head :: tail))
          (items topLevel m >>= fun tail => Pure.pure (head :: tail)) := by
        refine .bind further (by omega) fun tail _ rest =>
          .pure (by simpa using ⟨spelled, rest⟩) fun _ others more inner imports tokens leads => ?_
        simp only [ItemRead, plain, Bool.false_eq_true, if_false] at leads
        simpa [Item.allBare] using leads _ _ _ _ inner
      cases head with
      | space head list =>
        obtain ⟨decorators, path, blockless, span⟩ := head
        cases blockless with
        | true =>
          refine .pure (by simpa using spelled) fun _ imports tokens whole => ?_
          simpa [Item.allBare, ItemRead, takesRest] using whole
        | false => exact listed rfl
      | model decl | operation decl | interface decl | «using» decl => exact listed rfl
  · refine (skipStatement_takes topLevel le).narrow ?_
    rintro _ rfl
    exact ⟨going.1, fun closes => by simpa using going.2 closes⟩

theorem item_reads (topLevel : Bool) :
    Reads source Any (fun found => ∀ item ∈ found, item.Spelled (Word source))
      (fun _ found last imports tokens =>
        found.elim (Leads topLevel [] imports tokens) (ItemRead topLevel · last imports tokens)) 1
      ((n + 1 : Nat) - 2) (item topLevel (n + 1)) (item topLevel (m + 1)) := by
  refine .current fun _ _ => .kind fun token _ => ?_
  generalize stands : token.kind = kind
  split
  · refine .bind (importDecl_reads topLevel _ fun _ here => here ▸ stands) (Int.le_refl _) fun _ _ _ => ?_
    exact .pure (by simp) fun _ imports tokens leads => by simpa using leads
  · refine .bind_plain (usingDecl_reads le fun _ here => here ▸ stands) (by omega) fun decl _ _ => ?_
    refine .pure (by simpa using .using decl) fun _ tokens written => ?_
    simpa [ItemRead, takesRest, Item.bare] using leads_item topLevel written
  · refine .advance (by simp [stands]) fun here => .pure (by simp) fun _ => ?_
    intro items last others more tail
    cases topLevel with
    | true => exact ⟨.skip (here ▸ stands) tail.1, tail.2⟩
    | false => exact ⟨tail.1, .skip (here ▸ stands) tail.2⟩
  · refine .bind_plain (reading source le).decorators.here (by omega) fun decorators _ _ => ?_
    refine .bind (declaration_reads decorators _ le (ih.space decorators _ topLevel)) (by omega)
      fun item _ fine => .pure (by simpa using fine) fun _ => ?_
    intro imports tokens declared before decorated
    simpa using declared before decorated

theorem space_reads (decorators : List DecoratorExpr) (start : Span) (topLevel : Bool) :
    Reads source Any (fun item => item.Spelled (Word source)) (ItemDeclared topLevel decorators) 1
      ((n + 1 : Nat) - 1) (space decorators start topLevel (n + 1))
      (space decorators start topLevel (m + 1)) := by
  refine .expect (by simp) fun _ word => ?_
  refine .bind_plain (path_reads ident_reads ident_reads le) (by omega) fun path _ fine => ?_
  refine .eat (by simp) (fun _ ends => .spanFrom fun span => ?_) (.expect (by simp) fun _ opens => ?_)
  · refine .ite (fun _ => .report ?_ (.bind (ih.items topLevel) (by omega) fun list _ rest =>
      .pure (.space fine rest) fun _ _ _ _ => trivial)) fun top => ?_
    · exact fun _ _ => .misplaced (by simp [misplacements])
    · refine .bind (ih.items topLevel) (by omega) fun list _ rest => .pure (.space fine rest) fun _ => ?_
      simp only [Decidable.not_not] at top
      subst top
      rintro imports more inner tokens names before decorated
      have written := ScriptText.rest decorated word names ends inner.1
      rw [ItemRead, if_pos (by rfl)]
      refine ⟨?_, inner.2⟩
      simpa [Item.bare, NamespaceHead.bare, DottedName.segments, DottedName.bare] using written
  · refine .bind (ih.items false) (by omega) fun list _ rest => .expect (by simp) fun _ closes => ?_
    refine .spanFrom fun _ => .pure (.space fine rest) fun _ => ?_
    rintro _ inside ⟨rfl, inner⟩ tokens names before decorated
    have declared := ItemText.space decorated word names opens inner closes
    rw [ItemRead, if_neg (by simp [takesRest])]
    simpa [Item.bare, NamespaceHead.bare, DottedName.segments, DottedName.bare] using
      leads_item topLevel declared

end

theorem readingItems (source : List Scanned) (le : n ≤ m) : ReadingItems source n m := by
  induction n, m, le using steps_induction with
  | start =>
    exact ⟨fun _ => .exhausted (by omega), fun _ => .exhausted (by omega),
      fun _ _ _ => .exhausted (by omega)⟩
  | none n m _ ih =>
    exact ⟨fun topLevel => (ih.items topLevel).starved (by omega),
      fun topLevel => (ih.item topLevel).starved (by omega),
      fun decorators start topLevel => (ih.space decorators start topLevel).starved (by omega)⟩
  | step n m le ih => exact ⟨items_reads ih le, item_reads ih le, space_reads ih le⟩

end Syntax.Parser

end Idl
