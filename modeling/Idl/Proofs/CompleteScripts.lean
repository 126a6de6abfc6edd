import Idl.Proofs.CompleteReading
import Idl.Proofs.SoundScripts

/-! Every text of a file is read back without a finding. With soundness this makes the
reader accept exactly the language of the grammar, and lose nothing of what it accepts. -/
namespace Idl

namespace Syntax

/-- What comes after one template parameter: the closing mark or more of them. -/
inductive ParamsTailText : List TemplateParam → List Token → Prop where
  | last {right} (closes : right.kind = .mark .greater) : ParamsTailText [] [right]
  | cons {comma rest more} (is : comma.kind = .mark .comma) (tail : ParamsText rest more) :
      ParamsTailText rest (comma :: more)

theorem ParamsText.split (written : ParamsText params tokens) :
    ∃ name default given others more, params = ⟨⟨name.lexeme, .nowhere⟩, default, .nowhere⟩ :: others ∧
      tokens = name :: (given ++ more) ∧ IsIdent name ∧ DefaultText default given ∧
      ParamsTailText others more := by
  cases written with
  | last ident given closes => exact ⟨_, _, _, _, _, rfl, rfl, ident, given, .last closes⟩
  | cons ident given is tail => exact ⟨_, _, _, _, _, rfl, rfl, ident, given, .cons is tail⟩

/-- What may follow the heritage of a model. -/
def OpensBody (rest : List Token) : Prop :=
  nextKind rest = .mark .openBrace ∨ nextKind rest = .mark .semicolon

theorem SignatureText.stops {written : Signature} (text : SignatureText written tokens)
    (rest : List Token) : Stops [.less] (tokens ++ rest) := by
  cases text with
  | written opens => simp [Stops, opens]
  | reuse colon => simp [Stops, colon]

theorem OperationText.starts (written : OperationText decorators decl tokens) :
    ∃ name more, tokens = name :: more ∧ name.kind = .identifier := by
  cases written with
  | intro ident => exact ⟨_, _, rfl, ident⟩

/-- What an operation of an interface starts with. -/
def startsOperation : TokenKind → Bool
  | .mark .atSign | .keyword .kwOp | .identifier => true
  | _ => false

/-- The words that start a declaration after its decorators. -/
def declares : TokenKind → Bool
  | .keyword .kwNamespace | .keyword .kwModel | .keyword .kwOp | .keyword .kwInterface => true
  | _ => false

def startsItem : TokenKind → Bool
  | .mark .atSign | .keyword .kwUsing => true
  | kind => declares kind

theorem DecoratorsText.starts_item (decorated : DecoratorsText decorators tokens)
    (is : declares word.kind = true) (rest : List Token) :
    nextKind (tokens ++ word :: rest) = .mark .atSign ∨
      declares (nextKind (tokens ++ word :: rest)) = true := by
  cases decorated with
  | nil => exact .inr is
  | cons sign => exact .inl sign

theorem ItemText.starts (written : ItemText item tokens) (rest : List Token) :
    startsItem (nextKind (tokens ++ rest)) = true := by
  have declared {decorators : List DecoratorExpr} {before more : List Token} {word : Token}
      (decorated : DecoratorsText decorators before) (is : declares word.kind = true) :
      startsItem (nextKind (before ++ word :: more)) = true := by
    rcases decorated.starts_item is more with sign | word
    · rw [sign]
      rfl
    · unfold startsItem
      split
      · rfl
      · rfl
      · exact word
  cases written with
  | «using» is => simp [is, startsItem]
  | space decorated is | model decorated is | operation decorated is | interface decorated is =>
    rw [List.append_assoc]
    exact declared decorated (by rw [is]; rfl)

namespace Parser
variable {decorators : List DecoratorExpr}

/-! ### Declarations -/

theorem templateParamList_gives (written : ParamsText params tokens)
    (enough : 8 * tokens.length ≤ n) :
    (templateParamList n).Gives met met (tokens ++ rest) rest fun found =>
      found.map TemplateParam.bare = params := by
  induction n generalizing params tokens with
  | zero =>
    obtain ⟨name, default, given, others, more, rfl, rfl, _⟩ := written.split
    simp at enough
  | succ n ih =>
    obtain ⟨name, default, given, others, more, rfl, rfl, ident, written, tail⟩ := written.split
    simp only [List.cons_append, List.append_assoc, List.length_cons, List.length_append] at enough ⊢
    have stops : Stops [.equals, .bar, .openBracket, .less, .dot] (more ++ rest) := by
      cases tail with
      | last closes => simp [Stops, closes]
      | cons comma => simp [Stops, comma]
    have listed {called : Ident} {value : Option TypeExpr}
        (same : called.bare = ⟨name.lexeme, .nowhere⟩) (also : value.map TypeExpr.bare = default) :
        (spanFrom called.span >>= fun span => do
          if ← eat (.mark .comma) then
            let tail ← templateParamList n
            return (⟨called, value, span⟩ : TemplateParam) :: tail
          else
            let _ ← expect (.mark .greater)
            return [⟨called, value, span⟩]).Gives met met (more ++ rest) rest fun found =>
          found.map TemplateParam.bare = ⟨⟨name.lexeme, .nowhere⟩, default, .nowhere⟩ :: others := by
      refine .spanFrom fun span => ?_
      cases tail with
      | last closes =>
        refine .leave (by simp [closes]) (.expect closes ?_)
        exact .done (by simp [TemplateParam.bare, same, also])
      | cons comma tail =>
        simp only [List.length_cons] at enough
        refine .take comma (.bind (ih tail (by omega)) fun found rest => ?_)
        exact .done (by simp [TemplateParam.bare, same, also, rest])
    unfold templateParamList
    refine .bind (ident_takes ident) fun called same => ?_
    cases written with
    | missing => exact .leave (stops _ (by simp)) (listed same rfl)
    | present sign inner =>
      simp only [List.length_cons] at enough
      refine .take sign (.bind ((complete n).typeExpr inner (by omega)
        fun mark member => stops mark (.tail _ member)) fun type also => ?_)
      exact listed same (by simp [also])

theorem templateParams_gives (written : TemplateText params tokens) (enough : 8 * tokens.length ≤ n)
    (stops : Stops [.less] rest) : (templateParams n).Gives met met (tokens ++ rest) rest fun found =>
      found.map TemplateParam.bare = params := by
  unfold templateParams
  cases written with
  | missing => exact .leave (stops _ (by simp)) (.done rfl)
  | present opens inner =>
    simp only [List.length_cons] at enough
    exact .take opens (templateParamList_gives inner (by omega))

theorem heritage_gives (written : HeritageText built tokens) (enough : 8 * tokens.length ≤ n)
    (follows : OpensBody rest) :
    (heritage n).Gives met met (tokens ++ rest) rest fun found => found.bare = built := by
  have stops : Stops [.bar, .openBracket, .less, .dot] rest := by
    rcases follows with is | is <;> simp [Stops, is]
  unfold heritage
  cases written with
  | plain =>
    have other : nextKind rest ≠ .keyword .kwIs ∧ nextKind rest ≠ .keyword .kwExtends := by
      rcases follows with is | is <;> simp [is]
    exact .leave other.1 (.leave other.2 (.done rfl))
  | copy word inner =>
    simp only [List.length_cons] at enough
    refine .take word (.bind ((complete n).typeExpr inner (by omega) stops) fun source same => ?_)
    exact .done (by simp [Heritage.bare, same])
  | extension word inner =>
    simp only [List.length_cons] at enough
    refine .leave (by simp [word]) (.take word ?_)
    refine .bind ((complete n).typeExpr inner (by omega) stops) fun base same => ?_
    exact .done (by simp [Heritage.bare, same])

theorem modelBody_gives (written : ModelBodyText built.bare list tokens)
    (enough : 8 * tokens.length ≤ n) : (modelBody built n).Gives met met (tokens ++ rest) rest
      fun found => Member.allBare found = list := by
  have block {left right : Token} {inside : List Token} (opens : left.kind = .mark .openBrace)
      (inner : MembersText list inside) (closes : right.kind = .mark .closeBrace)
      (whole : tokens = left :: (inside ++ [right])) : (do
        let _ ← expect (.mark .openBrace)
        let members ← members .closeBrace n
        let _ ← expect (.mark .closeBrace)
        return members : Parser (List Member)).Gives met met (tokens ++ rest) rest fun found =>
          Member.allBare found = list := by
    subst whole
    simp only [List.cons_append, List.append_assoc, List.length_cons, List.length_append] at enough ⊢
    refine .expect opens (.bind ((complete n).members (.inl rfl) inner (by omega)
      (by simp [closes])) fun members same => ?_)
    exact .expect closes (.done same)
  unfold modelBody
  cases built with
  | is source =>
    cases written with
    | missing ends => exact .take ends (.done rfl)
    | block opens inner closes => exact .leave (by simp [opens]) (block opens inner closes rfl)
  | plain | «extends» base =>
    cases written with
    | block opens inner closes => exact block opens inner closes rfl

theorem signature_gives (text : SignatureText written tokens) (enough : 8 * tokens.length ≤ n)
    (ends : nextKind rest = .mark .semicolon) :
    (signature n).Gives met met (tokens ++ rest) rest fun found => found.bare = written := by
  have stops : Stops [.bar, .openBracket, .less, .dot] rest := by simp [Stops, ends]
  unfold signature
  refine .current fun _ _ => ?_
  cases text with
  | written opens inner closes colon result =>
    simp only [List.cons_append, List.append_assoc, List.length_cons, List.length_append] at enough ⊢
    refine .take opens (.bind ((complete n).members (.inr rfl) inner (by omega)
      (by simp [closes])) fun parameters same => ?_)
    refine .expect closes (.spanFrom fun _ => .expect colon ?_)
    refine .bind ((complete n).typeExpr result (by omega) stops) fun returns also => ?_
    exact .done (by simp [Signature.bare, same, also])
  | reuse colon inner =>
    simp only [List.length_cons] at enough
    refine .leave (by simp [colon]) (.take colon ?_)
    refine .bind ((complete n).typeExpr inner (by omega) stops) fun source same => ?_
    exact .done (by simp [Signature.bare, same])

theorem operation_gives (written : OperationText (DecoratorExpr.allBare decorators) decl tokens)
    (enough : 8 * tokens.length ≤ n) : (operation decorators start n).Gives met met (tokens ++ rest)
      rest fun found => found.bare = decl := by
  unfold operation
  cases written with
  | intro ident parameters signed ends =>
    simp only [List.cons_append, List.append_assoc, List.length_cons, List.length_append] at enough ⊢
    refine .bind (ident_takes ident) fun name called => ?_
    refine .bind (templateParams_gives parameters (by omega) (signed.stops _)) fun params same => ?_
    refine .bind (signature_gives signed (by omega) (by simp [ends])) fun signature also => ?_
    refine .expect ends (.spanFrom fun _ => ?_)
    exact .done (by simp [OperationDecl.bare, called, same, also])

theorem interfaceMember_gives (decorated : DecoratorsText decorators before)
    (said : Maybe (.keyword .kwOp) worded word) (written : OperationText decorators decl tokens) :
    startsOperation (nextKind (before ++ (word ++ (tokens ++ rest)))) = true ∧
      (8 * (before.length + tokens.length) ≤ n → (interfaceMember n).Gives met met
        (before ++ (word ++ (tokens ++ rest))) rest fun found => found.bare = decl) := by
  obtain ⟨name, inner, rfl, ident⟩ := written.starts
  have stops : Stops [.atSign, .openParen, .dot] (word ++ (name :: inner ++ rest)) := by
    cases said with
    | missing => simp [Stops, ident]
    | present is => simp [Stops, is]
  constructor
  · cases decorated with
    | cons sign => simp [sign, startsOperation]
    | nil =>
      cases said with
      | missing => simp [ident, startsOperation]
      | present is => simp [is, startsOperation]
  · intro enough
    simp only [List.length_cons] at enough
    refine .current fun _ _ => ?_
    refine .bind ((complete n).decorators decorated (by omega) stops) fun list same => ?_
    subst same
    refine .maybe said (by simp [ident]) ?_
    exact operation_gives written (by simp; omega)

theorem interfaceMembers_gives (written : OperationsText list tokens)
    (enough : 8 * tokens.length + 1 ≤ n) (closed : nextKind rest = .mark .closeBrace) :
    (interfaceMembers n).Gives met met (tokens ++ rest) rest fun found =>
      found.map OperationDecl.bare = list := by
  induction n generalizing list tokens with
  | zero => omega
  | succ n ih =>
    unfold interfaceMembers
    refine .kind ?_
    cases written with
    | nil =>
      rw [if_pos (by simp [closed])]
      exact .done rfl
    | cons decorated said head tail =>
      simp only [List.append_assoc, List.length_append] at enough ⊢
      obtain ⟨inside, first⟩ := interfaceMember_gives decorated said head
      rw [if_neg (not_or.mpr ⟨ne_of_starts inside rfl, ne_of_starts inside rfl⟩)]
      refine .attempt (first (by omega)) fun decl same => ?_
      obtain ⟨name, inner, shape, _⟩ := head.starts
      have one := congrArg List.length shape
      rw [List.length_cons] at one
      refine .bind (ih tail (by omega)) fun others also => ?_
      exact .done (by simp [same, also])

/-! ### Items -/

section
variable {word : Token}

theorem usingDecl_gives {path : DottedName} (names : PathText IsIdent path tokens)
    (ends : semicolon.kind = .mark .semicolon) (enough : tokens.length ≤ n) :
    (usingDecl n).Gives met met (word :: (tokens ++ semicolon :: rest)) rest fun found =>
      found.bare = ⟨path.segments, .nowhere⟩ := by
  refine .current fun _ _ => .advance ?_
  refine .bind (path_gives ident_takes names enough (by simp [Stops, ends])) fun found same => ?_
  refine .expect ends (.spanFrom fun _ => ?_)
  subst same
  exact .done rfl

theorem model_gives (is : word.kind = .keyword .kwModel) (ident : IsIdent name)
    (parameters : TemplateText params template) (derived : HeritageText built origin)
    (inner : ModelBodyText built list body)
    (enough : 8 * (template.length + origin.length + body.length) ≤ n) :
    (model decorators start n).Gives met met
      (word :: name :: (template ++ (origin ++ (body ++ rest)))) rest fun found =>
      found.bare = ⟨DecoratorExpr.allBare decorators, ⟨name.lexeme, .nowhere⟩, params, built, list,
        .nowhere⟩ := by
  have opens : OpensBody (body ++ rest) := by
    cases inner with
    | block opens => exact .inl opens
    | missing ends => exact .inr ends
  have stops : Stops [.less] (origin ++ (body ++ rest)) := by
    cases derived with
    | plain => rcases opens with is | is <;> simp [Stops, is]
    | copy word => simp [Stops, word]
    | extension word => simp [Stops, word]
  refine .expect is (.bind (ident_takes ident) fun called same => ?_)
  refine .bind (templateParams_gives parameters (by omega) stops) fun params listed => ?_
  refine .bind (heritage_gives derived (by omega) opens) fun built based => ?_
  subst based
  refine .bind (modelBody_gives inner (by omega)) fun members all => .spanFrom fun _ => ?_
  exact .done (by simp [ModelDecl.bare, same, listed, all])

theorem interface_gives (is : word.kind = .keyword .kwInterface) (ident : IsIdent name)
    (opens : left.kind = .mark .openBrace) (inner : OperationsText list tokens)
    (closes : right.kind = .mark .closeBrace) (enough : 8 * tokens.length + 1 ≤ n) :
    (interface decorators start n).Gives met met
      (word :: name :: left :: (tokens ++ right :: rest)) rest fun found =>
      found.bare = ⟨DecoratorExpr.allBare decorators, ⟨name.lexeme, .nowhere⟩, list, .nowhere⟩ := by
  refine .expect is (.bind (ident_takes ident) fun called same => .expect opens ?_)
  refine .bind (interfaceMembers_gives inner enough (by simp [closes])) fun operations all => ?_
  refine .expect closes (.spanFrom fun _ => ?_)
  exact .done (by simp [InterfaceDecl.bare, same, all])

/-- What the readers of items that may nest so many steps give for a text. -/
structure CompleteItems (n : Nat) : Prop where
  script : ∀ {more list tokens met}, ScriptText more list tokens → 8 * tokens.length + 3 ≤ n →
    (items true n).Gives met (met ++ more) tokens [] fun found => Item.allBare found = list
  block : ReadsBack (items false) Item.allBare ItemsText (Before .closeBrace) 3 n
  item : ∀ {topLevel one tokens rest met}, ItemText one tokens → 8 * tokens.length + 2 ≤ n →
    (item topLevel n).Gives met met (tokens ++ rest) rest fun found =>
      ∃ item, found = some item ∧ item.bare = one ∧ takesRest item = false

variable {path : DottedName}

/-- A list of items goes on with this token. -/
def GoesOn (tokens : List Token) : Prop :=
  nextKind tokens ≠ .endOfFile ∧ nextKind tokens ≠ .mark .closeBrace

theorem goesOn_item (written : ItemText one tokens) (rest : List Token) :
    GoesOn (tokens ++ rest) :=
  ⟨ne_of_starts (written.starts rest) rfl, ne_of_starts (written.starts rest) rfl⟩

theorem goesOn_declaration (decorated : DecoratorsText decorators tokens)
    (is : declares word.kind = true) (rest : List Token) : GoesOn (tokens ++ word :: rest) := by
  rcases decorated.starts_item is rest with sign | starts
  · simp [GoesOn, sign]
  · exact ⟨ne_of_starts starts rfl, ne_of_starts starts rfl⟩

section
variable (inside : GoesOn tokens)
include inside

/-- Nothing comes of what is read first. -/
theorem items_skip (first : (item topLevel n).Gives met next tokens more (· = none))
    (tail : (items topLevel n).Gives next finals more rest fun found => Item.allBare found = list) :
    (items topLevel (n + 1)).Gives met finals tokens rest fun found =>
      Item.allBare found = list := by
  unfold items
  refine .kind ?_
  rw [if_neg (by simp [inside.1, inside.2])]
  refine .attempt first fun found none => ?_
  subst none
  exact tail

/-- An item is read first. -/
theorem items_cons (first : (item topLevel n).Gives met next tokens more fun found =>
      ∃ item, found = some item ∧ item.bare = one ∧ takesRest item = false)
    (tail : (items topLevel n).Gives next finals more rest fun found => Item.allBare found = list) :
    (items topLevel (n + 1)).Gives met finals tokens rest fun found =>
      Item.allBare found = one :: list := by
  unfold items
  refine .kind ?_
  rw [if_neg (by simp [inside.1, inside.2])]
  refine .attempt first fun found given => ?_
  obtain ⟨head, rfl, same, plain⟩ := given
  have listed : (items topLevel n >>= fun tail => Parser.pure (head :: tail)).Gives next finals more
      rest fun found => Item.allBare found = one :: list :=
    .bind tail fun found others => .done (by simp [Item.allBare, same, others])
  cases head with
  | space head items =>
    obtain ⟨decorators, path, blockless, span⟩ := head
    obtain rfl : blockless = false := plain
    exact listed
  | model decl | operation decl | interface decl | «using» decl => exact listed

/-- A namespace that takes all of the rest is read first. -/
theorem items_rest (first : (item topLevel n).Gives met next tokens more fun found =>
      ∃ item, found = some item ∧ item.bare = one ∧ takesRest item = true) :
    (items topLevel (n + 1)).Gives met next tokens more fun found => Item.allBare found = [one] := by
  unfold items
  refine .kind ?_
  rw [if_neg (by simp [inside.1, inside.2])]
  refine .attempt first fun found given => ?_
  obtain ⟨head, rfl, same, takes⟩ := given
  cases head with
  | space head items =>
    obtain ⟨decorators, path, blockless, span⟩ := head
    obtain rfl : blockless = true := takes
    exact .done (by simp [Item.allBare, same])
  | model decl | operation decl | interface decl | «using» decl => cases takes

end

/-- A declaration is read after its decorators. -/
theorem item_of_declaration (decorated : DecoratorsText decorators before)
    (is : declares word.kind = true) (enough : 8 * before.length + 1 ≤ n)
    (declared : ∀ list start, DecoratorExpr.allBare list = decorators →
      (declaration (space list start topLevel n) list start n).Gives met finals (word :: after) rest
        value) :
    (item topLevel (n + 1)).Gives met finals (before ++ word :: after) rest fun found =>
      ∃ item, found = some item ∧ value item := by
  have head := decorated.starts_item is after
  unfold item
  refine .current fun _ _ => .kind ?_
  revert head
  generalize nextKind (before ++ word :: after) = kind
  intro head
  split
  iterate 3 rcases head with head | head <;> cases head
  refine .bind ((complete n).decorators decorated enough fun mark _ => ne_of_starts is rfl)
    fun list same => ?_
  exact .bind (declared list _ same) fun item given => .done ⟨item, rfl, given⟩

/-- A namespace is read after its decorators. -/
theorem item_of_space (decorated : DecoratorsText decorators before)
    (is : word.kind = .keyword .kwNamespace) (enough : 8 * before.length ≤ n)
    (spaced : ∀ list start, DecoratorExpr.allBare list = decorators →
      (space list start topLevel (n + 1)).Gives met finals (word :: after) rest value) :
    (item topLevel (n + 2)).Gives met finals (before ++ word :: after) rest fun found =>
      ∃ item, found = some item ∧ value item := by
  refine item_of_declaration decorated (by rw [is]; rfl) (by omega) fun list start same => .kind ?_
  rw [nextKind_cons, is]
  exact spaced list start same

section
variable (is : word.kind = .keyword .kwNamespace) (names : PathText IsIdent path tokens)
  (enough : 8 * tokens.length ≤ n)
include is names enough

/-- A namespace is read around its block. -/
theorem space_of_block (opens : left.kind = .mark .openBrace) (closes : right.kind = .mark .closeBrace)
    (inner : (items false n).Gives met next (inside ++ right :: rest) (right :: rest) fun found =>
      Item.allBare found = list) :
    (space decorators start topLevel (n + 1)).Gives met next
      (word :: (tokens ++ left :: (inside ++ right :: rest))) rest fun found =>
      found.bare = .space ⟨DecoratorExpr.allBare decorators, path.segments, false, .nowhere⟩ list ∧
        takesRest found = false := by
  unfold space
  refine .expect is (.bind (path_gives ident_takes names (by omega) (by simp [Stops, opens]))
    fun found same => ?_)
  subst same
  refine .leave (by simp [opens]) (.expect opens (.bind inner fun items all => ?_))
  refine .expect closes (.spanFrom fun _ => .done ⟨?_, rfl⟩)
  simp [Item.bare, NamespaceHead.bare, DottedName.segments, DottedName.bare, all]

/-- A namespace without a block is read with the rest of the file. -/
theorem space_of_rest (ends : semicolon.kind = .mark .semicolon)
    (inner : (items true n).Gives met next inside [] fun found => Item.allBare found = list) :
    (space decorators start true (n + 1)).Gives met next (word :: (tokens ++ semicolon :: inside)) []
      fun found =>
      found.bare = .space ⟨DecoratorExpr.allBare decorators, path.segments, true, .nowhere⟩ list ∧
        takesRest found = true := by
  unfold space
  refine .expect is (.bind (path_gives ident_takes names (by omega) (by simp [Stops, ends]))
    fun found same => ?_)
  subst same
  refine .take ends (.spanFrom fun _ => .bind inner fun items all => .done ⟨?_, rfl⟩)
  simp [Item.bare, NamespaceHead.bare, DottedName.segments, DottedName.bare, all]

end

private theorem item_gives (below : ∀ m ≤ n, CompleteItems m) (written : ItemText one tokens)
    (enough : 8 * tokens.length + 2 ≤ n + 1) :
    (item topLevel (n + 1)).Gives met met (tokens ++ rest) rest fun found =>
      ∃ item, found = some item ∧ item.bare = one ∧ takesRest item = false := by
  cases written with
  | «using» is names ends =>
    simp only [List.cons_append, List.append_assoc, List.length_cons, List.length_append] at enough ⊢
    unfold item
    refine .current fun _ _ => .kind ?_
    rw [nextKind_cons, is]
    refine .bind (usingDecl_gives names ends (by omega)) fun decl same => ?_
    exact .done ⟨_, rfl, by simp [Item.bare, same], rfl⟩
  | space decorated is names opens inner closes =>
    simp only [List.cons_append, List.append_assoc, List.length_cons, List.length_append] at enough ⊢
    obtain ⟨n, rfl⟩ : ∃ m, n = m + 1 := ⟨n - 1, by omega⟩
    apply item_of_space decorated is (by omega)
    rintro list start rfl
    exact space_of_block is names (by omega) opens closes
      ((below n (by omega)).block inner (by omega) (by simp [closes]))
  | model decorated is ident parameters built inner =>
    simp only [List.cons_append, List.append_assoc, List.length_cons, List.length_append] at enough ⊢
    refine item_of_declaration decorated (by rw [is]; rfl) (by omega) ?_
    rintro list start rfl
    refine .kind ?_
    rw [nextKind_cons, is]
    refine .bind (model_gives is ident parameters built inner (by omega)) fun decl same => ?_
    exact .done ⟨by simp [Item.bare, same], rfl⟩
  | operation decorated is written =>
    simp only [List.cons_append, List.append_assoc, List.length_cons, List.length_append] at enough ⊢
    refine item_of_declaration decorated (by rw [is]; rfl) (by omega) ?_
    rintro list start rfl
    refine .kind ?_
    rw [nextKind_cons, is]
    refine .advance (.bind (operation_gives written (by omega)) fun decl same => ?_)
    exact .done ⟨by simp [Item.bare, same], rfl⟩
  | interface decorated is ident opens inner closes =>
    simp only [List.cons_append, List.append_assoc, List.length_cons, List.length_append] at enough ⊢
    refine item_of_declaration decorated (by rw [is]; rfl) (by omega) ?_
    rintro list start rfl
    refine .kind ?_
    rw [nextKind_cons, is]
    refine .bind (interface_gives is ident opens inner closes (by omega)) fun decl same => ?_
    exact .done ⟨by simp [Item.bare, same], rfl⟩

theorem semicolon_gives (is : semicolon.kind = .mark .semicolon) :
    (item topLevel (n + 1)).Gives met met (semicolon :: rest) rest (· = none) := by
  unfold item
  refine .current fun _ _ => .kind ?_
  rw [nextKind_cons, is]
  exact .advance (.done rfl)

theorem import_gives {path : Token} (is : word.kind = .keyword .kwImport)
    (file : path.kind = .string) (ends : semicolon.kind = .mark .semicolon) :
    (item true (n + 1)).Gives met (met ++ [ImportDecl.mk (literalText path.lexeme) .nowhere])
      (word :: path :: semicolon :: rest) rest (· = none) := by
  unfold item
  refine .current fun _ _ => .kind ?_
  rw [nextKind_cons, is]
  refine .bind (.current fun _ _ => .advance (.expect file (.expect ends (.spanFrom fun _ => ?_))))
    fun _ (_ : True) => .done rfl
  intro s faces
  refine ⟨(), _, rfl, ⟨faces.silent, faces.clean, faces.left, ?_⟩, trivial⟩
  rw [← faces.met, List.map_append]
  rfl

private theorem block_gives (below : CompleteItems n) :
    ReadsBack (items false) Item.allBare ItemsText (Before .closeBrace) 3 (n + 1) := by
  intro list tokens rest met written enough closed
  unfold Before at closed
  cases written with
  | nil =>
    unfold items
    refine .kind ?_
    rw [if_pos (by simp [closed])]
    exact .done rfl
  | skip is tail =>
    obtain ⟨m, rfl⟩ : ∃ m, n = m + 1 := ⟨n - 1, by simp at enough; omega⟩
    simp only [List.length_cons] at enough
    exact items_skip (by simp [GoesOn, is]) (semicolon_gives is)
      (below.block tail (by omega) closed)
  | cons head tail =>
    have one := length_pos_of_starts (head.starts []) rfl
    simp only [List.append_assoc, List.length_append] at enough ⊢
    exact items_cons (goesOn_item head _) (below.item head (by omega))
      (below.block tail (by omega) closed)

private theorem script_gives (below : ∀ m ≤ n, CompleteItems m)
    (written : ScriptText others list tokens) (enough : 8 * tokens.length + 3 ≤ n + 1) :
    (items true (n + 1)).Gives met (met ++ others) tokens [] fun found =>
      Item.allBare found = list := by
  have last := below n (Nat.le_refl n)
  cases written with
  | nil =>
    unfold items
    refine .kind ?_
    rw [if_pos (by simp), Met.append_nil]
    exact .done rfl
  | skip is tail =>
    obtain ⟨m, rfl⟩ : ∃ m, n = m + 1 := ⟨n - 1, by simp at enough; omega⟩
    simp only [List.length_cons] at enough
    exact items_skip (by simp [GoesOn, is]) (semicolon_gives is) (last.script tail (by omega))
  | imports is file ends tail =>
    obtain ⟨m, rfl⟩ : ∃ m, n = m + 1 := ⟨n - 1, by simp at enough; omega⟩
    simp only [List.length_cons] at enough
    refine items_skip (by simp [GoesOn, is]) (import_gives is file ends) ?_
    show Gives _ _ (met ++ ([ImportDecl.mk _ _] ++ _)) _ _ _
    rw [← Met.append_append]
    exact last.script tail (by omega)
  | cons head tail =>
    have one := length_pos_of_starts (head.starts []) rfl
    simp only [List.length_append] at enough
    exact items_cons (goesOn_item head _) (last.item head (by omega)) (last.script tail (by omega))
  | rest decorated is names ends inner =>
    simp only [List.length_append, List.length_cons] at enough
    obtain ⟨n, rfl⟩ : ∃ m, n = m + 2 := ⟨n - 2, by omega⟩
    apply items_rest (goesOn_declaration decorated (by rw [is]; rfl) _)
    apply item_of_space decorated is (by omega)
    rintro list start rfl
    exact space_of_rest is names (by omega) ends ((below n (by omega)).script inner (by omega))

end

theorem completeItems (n : Nat) : CompleteItems n := by
  induction n using Nat.strongRecOn with
  | ind n below =>
    cases n with
    | zero => constructor <;> (try unfold ReadsBack) <;> intros <;> omega
    | succ n =>
      have below (m : Nat) (least : m ≤ n) : CompleteItems m := below m (by omega)
      exact ⟨script_gives below, block_gives (below n (Nat.le_refl n)), item_gives below⟩

end Parser

theorem Terminated.split (terminated : Terminated scanned) :
    ∃ before last, scanned = before ++ [last] ∧ last.token.kind = .endOfFile := by
  fun_induction Terminated scanned with
  | case1 => cases terminated
  | case2 last => exact ⟨[], last, rfl, terminated⟩
  | case3 first second rest ih =>
    obtain ⟨before, last, whole, ended⟩ := ih terminated.2
    exact ⟨first :: before, last, by rw [whole]; rfl, ended⟩

theorem State.start_faces {file : FileId} (clean : ∀ scanned ∈ tokenize text, scanned.errors = []) :
    (State.start file (tokenize text)).Faces { file } ((tokenize text).dropLast.map Scanned.token) := by
  obtain ⟨before, last, whole, ended⟩ := (Source.terminated_tokens (.ofString text)).split
  change tokenize text = before ++ [last] at whole
  refine ⟨?_, clean, ⟨last.token, ?_, ended⟩, rfl⟩
  · show ((tokenize text).head?.map Scanned.errors).getD [] = []
    cases first : (tokenize text).head? with
    | none => rfl
    | some scanned => exact clean scanned (List.mem_of_mem_head? first)
  · simp [start, whole]

end Syntax

namespace Script

/-- Reading accepts exactly the language of the grammar, and loses nothing of what it accepts. The
last token is the end of the file, which is no part of a text. -/
theorem read_clean_iff (file : FileId) (text : String) (script : Script) :
    (∃ found, read file text = some (found, []) ∧ found.bare = script.bare) ↔
      script.file = file ∧ (∀ scanned ∈ tokenize text, scanned.errors = []) ∧
        Syntax.ScriptText script.bare.imports script.bare.items
          ((tokenize text).dropLast.map Scanned.token) := by
  constructor
  · rintro ⟨found, clean, same⟩
    obtain ⟨named, faultless, written⟩ := text_of_read clean
    have file : script.file = found.file := (congrArg Script.file same).symm
    exact ⟨file.trans named, faultless, same ▸ written⟩
  · rintro ⟨rfl, faultless, written⟩
    obtain ⟨items, state, reply, faces, all⟩ :=
      (Syntax.Parser.completeItems (stepLimit (tokenize text).length)).script written
        (by simp [stepLimit]; omega) _ (Syntax.State.start_faces faultless)
    have met : state.imports.map ImportDecl.bare = script.bare.imports :=
      congrArg Syntax.Met.imports faces.met
    have told : state.diagnostics = [] := congrArg Syntax.Met.told faces.met
    refine ⟨⟨script.file, state.imports, items⟩, ?_, ?_⟩
    · unfold read readWith
      dsimp only
      rw [reply]
      simp [Syntax.State.flush, faces.silent, told]
    · simp [Script.bare, all, met]

end Script

end Idl
