import Idl.Proofs.SoundReading

/-! Every text of the grammar is read back as what it is a text of, in any context that
the reader cannot take for more of it. A reader looks only at the kind of the next
token, so for each production it is said what a text of it starts with, and with what
the rest may not go on. The steps that may be nested are counted per token. -/
namespace Idl.Syntax

/-- The kind of the next token. After the last one it is the end of the file. -/
def nextKind : List Token → TokenKind
  | [] => .endOfFile
  | token :: _ => token.kind

@[simp] theorem nextKind_nil : nextKind [] = .endOfFile := rfl

@[simp] theorem nextKind_cons (token : Token) (rest : List Token) :
    nextKind (token :: rest) = token.kind := rfl

/-- What is left does not go on with any of these marks. -/
def Stops (marks : List Mark) (rest : List Token) : Prop :=
  ∀ mark ∈ marks, nextKind rest ≠ .mark mark

/-! ### What the texts start with -/

def startsPrimary : TokenKind → Bool
  | .keyword .kwVoid | .keyword .kwNever | .mark .openBrace | .mark .openParen | .identifier => true
  | _ => false

def startsType : TokenKind → Bool
  | .mark .bar => true
  | kind => startsPrimary kind

def startsName : TokenKind → Bool
  | .string | .identifier | .keyword _ => true
  | _ => false

def startsProperty : TokenKind → Bool
  | .mark .atSign => true
  | kind => startsName kind

def startsMember : TokenKind → Bool
  | .mark .ellipsis => true
  | kind => startsProperty kind

def startsArg : TokenKind → Bool
  | .string | .number | .keyword .kwTrue | .keyword .kwFalse => true
  | kind => startsType kind

theorem ne_of_starts {starts : TokenKind → Bool} (head : starts kind = true)
    (differs : starts other = false) : kind ≠ other := by
  rintro rfl
  cases head.symm.trans differs

theorem length_pos_of_starts {starts : TokenKind → Bool}
    (head : starts (nextKind (tokens ++ [])) = true) (differs : starts .endOfFile = false) :
    0 < tokens.length := by
  rcases tokens with _ | ⟨token, tokens⟩
  · exact absurd rfl (ne_of_starts head differs)
  · simp

section
variable (rest : List Token)

theorem ReferenceText.starts (written : ReferenceText type tokens) :
    nextKind (tokens ++ rest) = .identifier := by
  cases written with
  | name names | applied names =>
    cases names with
    | intro is => exact is

theorem CoreText.starts (written : CoreText type tokens) :
    startsPrimary (nextKind (tokens ++ rest)) = true := by
  cases written with
  | void is => simp [is, startsPrimary]
  | never is => simp [is, startsPrimary]
  | model opens => simp [opens, startsPrimary]
  | group opens => simp [opens, startsPrimary]
  | reference named => simp [named.starts, startsPrimary]

theorem PrimaryText.starts (written : PrimaryText type tokens) :
    startsPrimary (nextKind (tokens ++ rest)) = true := by
  cases written with
  | intro inner brackets =>
    rw [List.append_assoc]
    exact inner.starts _

theorem startsType_of_primary (head : startsPrimary kind = true) : startsType kind = true := by
  unfold startsType
  split
  · rfl
  · exact head

theorem TypeText.starts (written : TypeText type tokens) :
    startsType (nextKind (tokens ++ rest)) = true := by
  cases written with
  | single leading only =>
    cases leading with
    | missing => exact startsType_of_primary (only.starts rest)
    | present is => simp [is, startsType]
  | union leading head tail =>
    cases leading with
    | missing =>
      simp only [List.nil_append, List.append_assoc]
      exact startsType_of_primary (head.starts _)
    | present is => simp [is, startsType]

theorem PropertyNameText.starts (written : PropertyNameText name tokens) :
    startsName (nextKind (tokens ++ rest)) = true := by
  cases written with
  | quoted is => simp [is, startsName]
  | @word token is =>
    rcases is with is | is
    · simp only [List.cons_append, nextKind_cons]
      revert is
      cases token.kind <;> simp [TokenKind.isKeyword, startsName]
    · simp [is, startsName]

theorem DecoratorsText.starts_property (decorated : DecoratorsText decorators tokens)
    (names : PropertyNameText name named) :
    startsProperty (nextKind (tokens ++ (named ++ rest))) = true := by
  cases decorated with
  | cons sign => simp [sign, startsProperty]
  | nil =>
    unfold startsProperty
    split
    · rfl
    · exact names.starts rest

theorem MemberText.starts (written : MemberText member tokens) :
    startsMember (nextKind (tokens ++ rest)) = true := by
  cases written with
  | spread is => simp [is, startsMember]
  | property decorated names =>
    simp only [List.append_assoc]
    unfold startsMember
    split
    · rfl
    · exact decorated.starts_property _ names

theorem ArgText.starts (written : ArgText arg tokens) :
    startsArg (nextKind (tokens ++ rest)) = true := by
  cases written with
  | string is | number is | yes is | no is => simp [is, startsArg]
  | type inner =>
    unfold startsArg
    split <;> first | rfl | exact inner.starts rest

end

/-! ### Facing tokens -/

/-- What has been found in a file so far: the imports, their places apart, and the reports. -/
structure Met where
  file : FileId
  imports : List ImportDecl := []
  told : List Diagnostic := []

/-- With more imports. -/
instance : HAppend Met (List ImportDecl) Met where
  hAppend met more := { met with imports := met.imports ++ more }

@[simp] theorem Met.append_nil (met : Met) : met ++ ([] : List ImportDecl) = met := by
  change { met with imports := met.imports ++ [] } = met
  rw [List.append_nil]

@[simp] theorem Met.append_append (met : Met) (l r : List ImportDecl) :
    met ++ l ++ r = met ++ (l ++ r) := by
  change { met with imports := met.imports ++ l ++ r } = met ++ (l ++ r)
  rw [List.append_assoc]
  rfl

/-- This was found so far, nothing will be found by the scanner, and these tokens are left before
the end of the file. -/
structure State.Faces (s : State) (met : Met) (tokens : List Token) : Prop where
  silent : s.pending = []
  clean : ∀ scanned ∈ s.upcoming, scanned.errors = []
  left : ∃ last, s.upcoming.map Scanned.token = tokens ++ [last] ∧ last.kind = .endOfFile
  met : Met.mk s.file (s.imports.map ImportDecl.bare) s.diagnostics = met

namespace State.Faces
variable {s : State} {met : Met}

theorem head (faces : s.Faces met tokens) :
    ∃ last, (tokens ++ [last]).head? = some s.current ∧ last.kind = .endOfFile := by
  obtain ⟨last, left, ended⟩ := faces.left
  refine ⟨last, ?_, ended⟩
  rw [← left]
  unfold State.current
  split
  · rename_i coming
    rw [coming]
    rfl
  · rename_i coming
    simp [coming] at left

theorem current (faces : s.Faces met (token :: tokens)) : s.current = token := by
  obtain ⟨last, first, _⟩ := faces.head
  exact (Option.some.inj first).symm

theorem kind (faces : s.Faces met tokens) : s.current.kind = nextKind tokens := by
  cases tokens with
  | nil =>
    obtain ⟨last, first, ended⟩ := faces.head
    cases first
    exact ended
  | cons token tokens => rw [faces.current, nextKind_cons]

theorem advance (faces : s.Faces met (token :: tokens)) : s.advance.Faces met tokens := by
  obtain ⟨last, left, ended⟩ := faces.left
  rcases coming : s.upcoming with _ | ⟨first, _ | ⟨second, rest⟩⟩
  · simp [coming] at left
  · simp [coming] at left
  · have clean : ∀ scanned ∈ second :: rest, scanned.errors = [] :=
      fun scanned member => faces.clean scanned (by rw [coming]; exact .tail _ member)
    have moved : s.advance = { s with
        upcoming := second :: rest
        previous := first.token.span
        pending := s.pending ++ second.errors } := by
      rw [State.advance, coming]
    rw [moved]
    refine ⟨?_, clean, ⟨last, ?_, ended⟩, faces.met⟩
    · simp [faces.silent, clean second (.head _)]
    · rw [coming] at left
      exact (List.cons.inj left).2

end State.Faces

namespace Parser

/-- In front of some tokens a reader ends with such a value, in front of others. -/
def Gives {α : Type} (p : Parser α) (met later : Met) (tokens rest : List Token)
    (value : α → Prop) : Prop :=
  ∀ s : State, s.Faces met tokens →
    ∃ found after, p s = .done found after ∧ after.Faces later rest ∧ value found

namespace Gives
variable {value : α → Prop} {p : Parser β}

theorem done (is : value found) : (Parser.pure found).Gives met met rest rest value :=
  fun s faces => ⟨found, s, rfl, faces, is⟩

theorem bind (begun : p.Gives met between tokens middle first)
    (more : ∀ found, first found → (f found).Gives between later middle rest value) :
    (p >>= f).Gives met later tokens rest value := by
  intro s faces
  obtain ⟨found, after, reply, faces, is⟩ := begun s faces
  rw [run_of_done reply]
  exact more found is after faces

theorem attempt (begun : p.Gives met between tokens middle first)
    (more : ∀ found, first found → (f (some found)).Gives between later middle rest value) :
    (Parser.attempt p >>= f).Gives met later tokens rest value := by
  intro s faces
  obtain ⟨found, after, reply, faces, is⟩ := begun s faces
  rw [run_of_done (attempt_of_done reply)]
  exact more found is after faces

theorem pure_bind (more : (f found).Gives met later tokens rest value) :
    (Parser.pure found >>= f).Gives met later tokens rest value := more

theorem spanFrom (more : ∀ span, (f span).Gives met later tokens rest value) :
    (Parser.spanFrom start >>= f).Gives met later tokens rest value :=
  fun s faces => more _ s faces

theorem current_cons (more : (f token).Gives met later (token :: tokens) rest value) :
    (Parser.current >>= f).Gives met later (token :: tokens) rest value := by
  intro s faces
  rw [run_current, faces.current]
  exact more s faces

/-- The current token, of which only the kind matters. -/
theorem current
    (more : ∀ token, token.kind = nextKind tokens → (f token).Gives met later tokens rest value) :
    (Parser.current >>= f).Gives met later tokens rest value :=
  fun s faces => more _ faces.kind s faces

theorem kind (more : (f (nextKind tokens)).Gives met later tokens rest value) :
    (Parser.kind >>= f).Gives met later tokens rest value := by
  intro s faces
  rw [run_kind, faces.kind]
  exact more s faces

theorem check (more : (f (nextKind tokens == wanted)).Gives met later tokens rest value) :
    (Parser.check wanted >>= f).Gives met later tokens rest value := by
  intro s faces
  rw [run_check, faces.kind]
  exact more s faces

theorem advance (more : (f token).Gives met later tokens rest value) :
    (Parser.advance >>= f).Gives met later (token :: tokens) rest value := by
  intro s faces
  rw [run_advance, faces.current]
  exact more _ faces.advance

theorem expect (is : token.kind = wanted) (more : (f token).Gives met later tokens rest value) :
    (Parser.expect wanted >>= f).Gives met later (token :: tokens) rest value := by
  intro s faces
  rw [run_expect, if_pos (by rw [faces.current, is]), faces.current]
  exact more _ faces.advance

/-- A token that stands here is taken. -/
theorem take (is : token.kind = wanted) (more : yes.Gives met later tokens rest value) :
    (Parser.eat wanted >>= fun found => if found = true then yes else no).Gives met later
      (token :: tokens) rest value := by
  intro s faces
  rw [run_eat, if_pos (by rw [faces.current, is])]
  exact more _ faces.advance

/-- A token that does not stand here is passed by. -/
theorem leave (differs : nextKind tokens ≠ wanted) (more : no.Gives met later tokens rest value) :
    (Parser.eat wanted >>= fun found => if found = true then yes else no).Gives met later tokens rest
      value := by
  intro s faces
  rw [run_eat, if_neg (by rw [faces.kind]; exact differs)]
  exact more s faces

/-- An optional token. -/
theorem maybe (optional : Maybe wanted found mark) (differs : nextKind tokens ≠ wanted)
    (more : (f found).Gives met later tokens rest value) :
    (Parser.eat wanted >>= f).Gives met later (mark ++ tokens) rest value := by
  intro s faces
  rw [run_eat]
  cases optional with
  | missing =>
    rw [if_neg (by rw [faces.kind]; exact differs)]
    exact more s faces
  | present is =>
    rw [if_pos (by rw [State.Faces.current faces, is])]
    exact more _ (State.Faces.advance faces)

end Gives

/-! ### Names and paths -/

/-- A reader that takes single names. -/
def TakesWord (name : Parser Ident) (word : Token → Prop) : Prop :=
  ∀ {met token rest}, word token →
    name.Gives met met (token :: rest) rest fun found => found.bare = ⟨token.lexeme, .nowhere⟩

theorem ident_takes : TakesWord ident IsIdent := by
  intro met token rest is
  exact .expect is (.done rfl)

theorem anyName_takes : TakesWord anyName IsName := by
  intro met token rest is
  refine .kind ?_
  by_cases keyword : token.kind.isKeyword = true
  · rw [nextKind_cons, if_pos keyword]
    exact .advance (.done rfl)
  · rw [nextKind_cons, if_neg keyword]
    exact ident_takes (is.resolve_left keyword)

theorem propertyName_gives (written : PropertyNameText name tokens) :
    propertyName.Gives met met (tokens ++ rest) rest fun found => found.bare = name := by
  refine .check ?_
  cases written with
  | quoted is =>
    rw [if_pos (by simp [is])]
    exact .advance (.done rfl)
  | @word token is =>
    have other : token.kind ≠ .string := by
      intro same
      rcases is with is | is <;> rw [same] at is <;> cases is
    rw [if_neg (by simpa using other)]
    exact anyName_takes is

theorem pathTail_gives (takes : TakesWord name word) {path : List Ident}
    (written : PathTailText word path tokens) (enough : tokens.length < n)
    (stops : Stops [.dot] rest) : (pathTail name n).Gives met met (tokens ++ rest) rest fun found =>
      found.map Ident.bare = path := by
  induction n generalizing path tokens with
  | zero => omega
  | succ n ih =>
    unfold pathTail
    cases written with
    | nil => exact .leave (stops _ (by simp)) (.done rfl)
    | cons point is more =>
      refine .take point (.bind (takes is) fun head same => ?_)
      simp only [List.length_cons] at enough
      refine .bind (ih more (by omega)) fun tail others => ?_
      exact .done (by simp [same, others])

theorem path_gives (takes : TakesWord name word) {path : DottedName}
    (written : PathText word path tokens) (enough : tokens.length ≤ n) (stops : Stops [.dot] rest) :
    (Parser.path name n).Gives met met (tokens ++ rest) rest fun found => found.bare = path := by
  unfold Parser.path
  cases written with
  | intro is more =>
    refine .bind (takes is) fun head same => ?_
    refine .bind (pathTail_gives takes more enough stops) fun tail others => ?_
    exact .done (by simp [DottedName.bare, same, others])

/-! ### Types, members and decorators -/

/-- The marks that close a list of members. -/
def ClosesMembers (close : Mark) : Prop := close = .closeBrace ∨ close = .closeParen

/-- What ends a member: a separator, or nothing before the closing mark. -/
inductive EndingText (close : Mark) (rest : List Token) : List Token → Prop where
  | separator {token} (is : token.kind = .mark .semicolon ∨ token.kind = .mark .comma) :
      EndingText close rest [token]
  | missing (closed : nextKind rest = .mark close) : EndingText close rest []

/-- With eight steps for each token, and so many more, a text is read back as what it is a text of,
before anything that may follow. -/
def ReadsBack {α β : Type} (p : Nat → Parser α) (bare : α → β) (text : β → List Token → Prop)
    (follows : List Token → Prop) (extra n : Nat) : Prop :=
  ∀ {value tokens rest met}, text value tokens → 8 * tokens.length + extra ≤ n → follows rest →
    (p n).Gives met met (tokens ++ rest) rest fun found => bare found = value

/-- The token that follows is this one. -/
@[simp] def Before (mark : Mark) (rest : List Token) : Prop := nextKind rest = .mark mark

/-- What the readers that may nest so many steps give for a text. -/
structure Complete (n : Nat) : Prop where
  typeExpr : ReadsBack typeExpr TypeExpr.bare TypeText (Stops [.bar, .openBracket, .less, .dot]) 3 n
  options : ReadsBack options TypeExpr.allBare OptionsText (Stops [.bar, .openBracket, .less, .dot]) 1 n
  primary : ReadsBack primary TypeExpr.bare PrimaryText (Stops [.openBracket, .less, .dot]) 2 n
  reference : ReadsBack reference TypeExpr.bare ReferenceText (Stops [.less, .dot]) 1 n
  typeArgs : ReadsBack typeArgs TypeExpr.allBare TypesText (Before .greater) 4 n
  members : ∀ {close}, ClosesMembers close →
    ReadsBack (members close) Member.allBare MembersText (Before close) 2 n
  member : ∀ {close one tokens ending rest met}, ClosesMembers close →
    MemberText one tokens → 8 * tokens.length + 1 ≤ n → EndingText close rest ending →
    (member close n).Gives met met (tokens ++ (ending ++ rest)) rest fun found => found.bare = one
  decorators : ReadsBack decorators DecoratorExpr.allBare DecoratorsText
    (Stops [.atSign, .openParen, .dot]) 1 n
  decoratorArgs : ReadsBack decoratorArgs DecoratorArg.allBare ArgsText (Before .closeParen) 5 n
  decoratorArg : ReadsBack decoratorArg DecoratorArg.bare ArgText
    (Stops [.bar, .openBracket, .less, .dot]) 4 n

theorem arraySuffix_gives (start : Span) (written : BracketsText core whole tokens)
    (enough : tokens.length < n) (stops : Stops [.openBracket] rest) (same : type.bare = core) :
    (arraySuffix start n type).Gives met met (tokens ++ rest) rest fun found =>
      found.bare = whole := by
  induction n generalizing core type tokens with
  | zero => omega
  | succ n ih =>
    unfold arraySuffix
    cases written with
    | nil => exact .leave (stops _ (by simp)) (.done same)
    | cons opens closes more =>
      simp only [List.length_cons] at enough
      refine .take opens (.expect closes (.spanFrom fun span => ?_))
      exact ih more (by omega) (by simp [TypeExpr.bare, same])

private theorem endMember_gives (closes : ClosesMembers close) (ends : EndingText close rest ending)
    (is : value found) : (endMember close found).Gives met met (ending ++ rest) rest value := by
  unfold endMember
  cases ends with
  | separator separates =>
    rcases separates with semicolon | comma
    · exact .take semicolon (.done is)
    · exact .leave (by simp [comma]) (.take comma (.done is))
  | missing closed =>
    have other : close ≠ .semicolon ∧ close ≠ .comma := by
      rcases closes with rfl | rfl <;> simp
    refine .leave (by simp [closed, other]) (.leave (by simp [closed, other]) (.check ?_))
    rw [if_pos (by simp [closed])]
    exact .done is

section
variable (below : Complete n)
include below

private theorem typeExpr_gives : ReadsBack typeExpr TypeExpr.bare TypeText
    (Stops [.bar, .openBracket, .less, .dot]) 3 (n + 1) := by
  intro type tokens rest met written enough stops
  unfold typeExpr
  refine .current fun _ _ => ?_
  cases written with
  | single leading only =>
    rw [List.append_assoc]
    rw [List.length_append] at enough
    refine .maybe leading (ne_of_starts (only.starts rest) rfl) ?_
    refine .bind (below.primary only (by omega) fun mark member => stops mark (.tail _ member))
      fun first same => .check ?_
    rw [if_neg (by simpa using stops .bar (by simp))]
    exact .done same
  | union leading head tail =>
    have one := length_pos_of_starts (head.starts []) rfl
    cases tail with
    | cons bar second tail =>
      simp only [List.append_assoc, List.length_append] at enough ⊢
      refine .maybe leading (ne_of_starts (head.starts _) rfl) ?_
      refine .bind (below.primary head (by omega) ?_) fun first same => .check ?_
      · simp [Stops, bar]
      · rw [if_pos (by simp [bar])]
        refine .bind (below.options (.cons bar second tail) (by simp at enough ⊢; omega) stops)
          fun others also => ?_
        exact .spanFrom fun _ => .done (by simp [TypeExpr.bare, same, also])

private theorem options_gives : ReadsBack options TypeExpr.allBare OptionsText
    (Stops [.bar, .openBracket, .less, .dot]) 1 (n + 1) := by
  intro list tokens rest met written enough stops
  unfold options
  cases written with
  | nil => exact .leave (stops _ (by simp)) (.done rfl)
  | @cons _ _ _ _ more bar head tail =>
    simp only [List.cons_append, List.append_assoc, List.length_cons, List.length_append] at enough ⊢
    have follows : Stops [.openBracket, .less, .dot] (more ++ rest) := by
      cases tail with
      | nil => exact fun mark member => stops mark (.tail _ member)
      | cons next => simp [Stops, next]
    refine .take bar (.bind (below.primary head (by omega) follows) fun first same => ?_)
    refine .bind (below.options tail (by omega) stops) fun others also => ?_
    exact .done (by simp [TypeExpr.allBare, same, also])

private theorem primary_gives : ReadsBack primary TypeExpr.bare PrimaryText
    (Stops [.openBracket, .less, .dot]) 2 (n + 1) := by
  intro type tokens rest met written enough stops
  unfold primary
  refine .current fun _ _ => .kind ?_
  have bracket : Stops [.openBracket] rest := fun mark member => stops mark (by simp_all)
  cases written with
  | @intro _ _ _ more inner brackets =>
    have one := length_pos_of_starts (inner.starts []) rfl
    rw [List.length_append] at enough
    rw [List.append_assoc]
    cases inner with
    | void is | never is =>
      rw [List.cons_append, nextKind_cons, is]
      exact .advance (arraySuffix_gives _ brackets (by omega) bracket rfl)
    | model opens inner closes =>
      rw [List.cons_append, nextKind_cons, opens, List.append_assoc]
      simp only [List.length_cons, List.length_append] at enough
      refine .advance (.bind (below.members (.inl rfl) inner (by omega) (by simp [closes]))
        fun members same => ?_)
      refine .expect closes (.spanFrom fun _ => ?_)
      exact arraySuffix_gives _ brackets (by omega) bracket (by simp [TypeExpr.bare, same])
    | group opens inner closes =>
      rw [List.cons_append, nextKind_cons, opens, List.append_assoc]
      simp only [List.length_cons, List.length_append] at enough
      refine .advance (.bind (below.typeExpr inner (by omega) (by simp [Stops, closes]))
        fun core same => ?_)
      exact .expect closes (arraySuffix_gives _ brackets (by omega) bracket same)
    | reference named =>
      rw [named.starts]
      have follows : Stops [.less, .dot] (more ++ rest) := by
        cases brackets with
        | nil => exact fun mark member => stops mark (.tail _ member)
        | cons opens => simp [Stops, opens]
      refine .bind (below.reference named (by omega) follows) fun core same => ?_
      exact arraySuffix_gives _ brackets (by omega) bracket same

private theorem reference_gives : ReadsBack reference TypeExpr.bare ReferenceText
    (Stops [.less, .dot]) 1 (n + 1) := by
  intro type tokens rest met written enough stops
  unfold reference
  refine .current fun _ _ => ?_
  cases written with
  | name names =>
    refine .bind (path_gives ident_takes names (by omega)
      fun mark member => stops mark (.tail _ member)) fun path same => ?_
    refine .leave (stops _ (by simp)) (.spanFrom fun _ => ?_)
    exact .done (by simp [TypeExpr.bare, TypeExpr.allBare, same])
  | applied names opens inner closes =>
    simp only [List.cons_append, List.append_assoc, List.length_cons, List.length_append] at enough ⊢
    refine .bind (path_gives ident_takes names (by omega) (by simp [Stops, opens]))
      fun path same => .take opens ?_
    refine .bind (below.typeArgs inner (by omega) (by simp [closes])) fun args given => ?_
    exact .expect closes (.spanFrom fun _ => .done (by simp [TypeExpr.bare, same, given]))

private theorem typeArgs_gives :
    ReadsBack typeArgs TypeExpr.allBare TypesText (Before .greater) 4 (n + 1) := by
  intro args tokens rest met written enough closed
  unfold Before at closed
  unfold typeArgs
  refine .check ?_
  cases written with
  | nil =>
    rw [if_pos (by simp [closed])]
    exact .done rfl
  | last head =>
    rw [if_neg (by simpa using ne_of_starts (head.starts rest) rfl)]
    refine .bind (below.typeExpr head (by omega) (by simp [Stops, closed])) fun first same => ?_
    exact .leave (by simp [closed]) (.done (by simp [TypeExpr.allBare, same]))
  | cons head comma tail =>
    simp only [List.append_assoc, List.cons_append, List.length_append, List.length_cons] at enough ⊢
    rw [if_neg (by simpa using ne_of_starts (head.starts _) rfl)]
    refine .bind (below.typeExpr head (by omega) (by simp [Stops, comma])) fun first same => ?_
    refine .take comma (.bind (below.typeArgs tail (by omega) closed) fun others also => ?_)
    exact .done (by simp [TypeExpr.allBare, same, also])

private theorem members_gives (closes : ClosesMembers close) :
    ReadsBack (members close) Member.allBare MembersText (Before close) 2 (n + 1) := by
  intro list tokens rest met written enough closed
  unfold Before at closed
  have other : startsMember (.mark close) = false := by
    rcases closes with rfl | rfl <;> rfl
  unfold members
  intro s faces
  rw [run_update]
  refine Gives.kind ?_ _ ⟨faces.silent, faces.clean, faces.left, faces.met⟩
  cases written with
  | nil =>
    rw [if_pos (by simp [closed])]
    exact .done rfl
  | last head =>
    have inside := head.starts rest
    have one := length_pos_of_starts (head.starts []) rfl
    rw [if_neg (not_or.mpr ⟨ne_of_starts inside other, ne_of_starts inside rfl⟩)]
    refine .attempt (below.member closes head (by omega) (.missing closed)) fun first same => ?_
    refine .bind (below.members closes .nil (by simp; omega) closed) fun others also => ?_
    exact .done (by simp [Member.allBare, same, also])
  | cons head separates tail =>
    simp only [List.append_assoc, List.cons_append, List.length_append, List.length_cons] at enough ⊢
    rw [if_neg (not_or.mpr ⟨ne_of_starts (head.starts _) other, ne_of_starts (head.starts _) rfl⟩)]
    refine .attempt (below.member closes head (by omega) (.separator separates))
      fun first same => ?_
    refine .bind (below.members closes tail (by omega) closed) fun others also => ?_
    exact .done (by simp [Member.allBare, same, also])

private theorem member_gives (closes : ClosesMembers close) (written : MemberText one tokens)
    (enough : 8 * tokens.length + 1 ≤ n + 1) (ends : EndingText close rest ending) :
    (member close (n + 1)).Gives met met (tokens ++ (ending ++ rest)) rest fun found =>
      found.bare = one := by
  have follows : Stops [.bar, .openBracket, .less, .dot] (ending ++ rest) := by
    cases ends with
    | separator separates => rcases separates with is | is <;> simp [Stops, is]
    | missing closed => rcases closes with rfl | rfl <;> simp [Stops, closed]
  unfold member
  refine .current fun _ _ => ?_
  cases written with
  | spread dots inner =>
    simp only [List.length_cons] at enough
    refine .take dots (.bind (below.typeExpr inner (by omega) follows) fun target same => ?_)
    exact .spanFrom fun _ => endMember_gives closes ends (by simp [Member.bare, same])
  | property decorated names question colon inner =>
    simp only [List.cons_append, List.append_assoc, List.length_cons, List.length_append] at enough ⊢
    refine .leave (ne_of_starts (decorated.starts_property _ names) rfl) ?_
    refine .bind (below.decorators decorated (by omega)
      fun mark _ => ne_of_starts (names.starts _) rfl) fun decorators list => ?_
    refine .bind (propertyName_gives names) fun name called => ?_
    refine .maybe question (by simp [colon]) (.expect colon ?_)
    refine .bind (below.typeExpr inner (by omega) follows) fun type same => .spanFrom fun _ => ?_
    exact endMember_gives closes ends (by simp [Member.bare, list, called, same])

private theorem decorators_gives : ReadsBack decorators DecoratorExpr.allBare
    DecoratorsText (Stops [.atSign, .openParen, .dot]) 1 (n + 1) := by
  intro list tokens rest met written enough stops
  unfold decorators
  refine .current fun _ _ => ?_
  cases written with
  | nil => exact .leave (stops _ (by simp)) (.done rfl)
  | @cons _ _ _ _ _ _ more sign names given tail =>
    simp only [List.cons_append, List.append_assoc, List.length_cons, List.length_append] at enough ⊢
    have follows : Stops [.openParen, .dot] (more ++ rest) := by
      cases tail with
      | nil => exact fun mark member => stops mark (.tail _ member)
      | cons next => simp [Stops, next]
    refine .take sign ?_
    cases given with
    | missing =>
      rw [List.nil_append]
      refine .bind (path_gives anyName_takes names (by omega)
        fun mark member => follows mark (.tail _ member)) fun path same => ?_
      refine .leave (follows _ (by simp)) (.pure_bind (.spanFrom fun _ => ?_))
      refine .bind (below.decorators tail (by omega) stops) fun others also => ?_
      exact .done
        (by simp [DecoratorExpr.allBare, DecoratorExpr.bare, DecoratorArg.allBare, same, also])
    | present opens inner closes =>
      simp only [List.cons_append, List.append_assoc, List.nil_append, List.length_cons,
        List.length_append] at enough ⊢
      refine .bind (path_gives anyName_takes names (by omega) (by simp [Stops, opens]))
        fun path same => .take opens ?_
      refine .bind (below.decoratorArgs inner (by omega) (by simp [closes])) fun args given => ?_
      refine .expect closes (.pure_bind (.spanFrom fun _ => ?_))
      refine .bind (below.decorators tail (by omega) stops) fun others also => ?_
      exact .done (by simp [DecoratorExpr.allBare, DecoratorExpr.bare, same, given, also])

private theorem decoratorArgs_gives :
    ReadsBack decoratorArgs DecoratorArg.allBare ArgsText (Before .closeParen) 5 (n + 1) := by
  intro args tokens rest met written enough closed
  unfold Before at closed
  unfold decoratorArgs
  refine .check ?_
  cases written with
  | nil =>
    rw [if_pos (by simp [closed])]
    exact .done rfl
  | last head =>
    rw [if_neg (by simpa using ne_of_starts (head.starts rest) rfl)]
    refine .bind (below.decoratorArg head (by omega) (by simp [Stops, closed])) fun first same => ?_
    exact .leave (by simp [closed]) (.done (by simp [DecoratorArg.allBare, same]))
  | cons head comma tail =>
    simp only [List.append_assoc, List.cons_append, List.length_append, List.length_cons] at enough ⊢
    rw [if_neg (by simpa using ne_of_starts (head.starts _) rfl)]
    refine .bind (below.decoratorArg head (by omega) (by simp [Stops, comma])) fun first same => ?_
    refine .take comma (.bind (below.decoratorArgs tail (by omega) closed) fun others also => ?_)
    exact .done (by simp [DecoratorArg.allBare, same, also])

private theorem decoratorArg_gives : ReadsBack decoratorArg DecoratorArg.bare
    ArgText (Stops [.bar, .openBracket, .less, .dot]) 4 (n + 1) := by
  intro arg tokens rest met written enough stops
  unfold decoratorArg
  cases written with
  | string is =>
    refine .current_cons ?_
    rw [is]
    exact .advance (.done rfl)
  | number is value =>
    refine .current_cons ?_
    rw [is]
    dsimp only
    rw [value]
    exact .advance (.done rfl)
  | yes is | no is =>
    refine .current_cons ?_
    rw [is]
    exact .advance (.done rfl)
  | type inner =>
    refine .current fun token first => ?_
    have head := inner.starts rest
    rw [← first] at head
    revert head
    generalize token.kind = kind
    intro head
    split
    iterate 4 cases head
    refine .bind (below.typeExpr inner (by omega) stops) fun found same => ?_
    exact .done (by simp [DecoratorArg.bare, same])

end

/-- Steps enough for the length of a text are enough to read it. -/
theorem complete (n : Nat) : Complete n := by
  induction n with
  | zero => constructor <;> (try unfold ReadsBack) <;> intros <;> omega
  | succ n below =>
    exact ⟨typeExpr_gives below, options_gives below, primary_gives below, reference_gives below,
      typeArgs_gives below, members_gives below, member_gives below, decorators_gives below,
      decoratorArgs_gives below, decoratorArg_gives below⟩

end Parser

end Idl.Syntax
