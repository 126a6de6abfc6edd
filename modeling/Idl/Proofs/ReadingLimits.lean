import Idl.Proofs.ReadingSteps

/-! How many steps reading needs, and what is read. Every reader comes to a token after
at most eight steps, so eight for each token suffice, unless a list of members meets a
closing mark of another list: there the reader of a member breaks off without taking a
token and skipping stops before the mark, so the list is tried again at the same place.
What is read without a finding is a text of what it was read as. -/
namespace Idl.Syntax.Parser
variable {m : Nat}

/-! ### Names, paths and brackets -/

/-- The text of a name that is such a word. -/
def NameText (word : Token → Prop) (name : Ident) (tokens : List Token) : Prop :=
  ∃ token, word token ∧ name.bare = ⟨token.lexeme, .nowhere⟩ ∧ tokens = [token]

theorem ident_reads (budget : Int) : Reads source pre (fun name => Word source name.name)
    (Plainly (NameText IsIdent)) 1 budget ident ident :=
  .expect (by simp) fun inside is => .pure (inside.word is) fun _ => ⟨rfl, _, is, rfl, rfl⟩

theorem anyName_reads (budget : Int) :
    Reads source pre Any (Plainly (NameText IsName)) 1 budget anyName anyName := by
  refine .kind fun token _ => .ite (fun keyword => ?_) fun _ => ?_
  · refine .advance ?_ fun here => .pure trivial fun _ => ⟨rfl, _, .inl (here ▸ keyword), rfl, rfl⟩
    rintro _ rfl last
    simp [last, TokenKind.isKeyword] at keyword
  · refine (ident_reads budget).weaken (fun _ _ => trivial) (Nat.le_refl 1) (Int.le_refl budget) ?_
    rintro _ name _ _ _ ⟨none, token, is, same, only⟩
    exact ⟨none, token, .inr is, same, only⟩

theorem propertyName_reads (budget : Int) : Reads source pre Any
    (Plainly fun name tokens => PropertyNameText name.bare tokens) 1 budget propertyName
      propertyName := by
  refine .check ?_ ((anyName_reads budget).weaken (fun _ _ => trivial) (Nat.le_refl 1)
    (Int.le_refl budget) ?_)
  · exact .advance (by simp +contextual) fun is => .pure trivial fun _ => ⟨rfl, .quoted is⟩
  · rintro _ name _ _ _ ⟨none, token, is, same, rfl⟩
    refine ⟨none, ?_⟩
    show PropertyNameText name.bare [token]
    rw [same]
    exact .word is

theorem pathTail_reads
    (reads : ∀ budget, Reads source Any post (Plainly (NameText word)) 1 budget name name)
    (le : n ≤ m) :
    Reads source Any (fun rest => ∀ word ∈ rest, post word)
      (Plainly fun rest tokens => PathTailText word (rest.map Ident.bare) tokens) 0 (n - 1)
      (pathTail name n) (pathTail name m) := by
  induction n, m, le using steps_induction with
  | start => exact .exhausted (by omega)
  | none n m _ ih => exact ih.starved (by omega)
  | step n m _ ih =>
    refine .eat (by simp) (fun _ dot => ?_) (.pure (by simp) fun _ => ⟨rfl, .nil⟩)
    refine .bind_plain (reads _) (Int.le_refl _) fun head _ fine => ?_
    refine .bind_plain ih (by omega) fun tail _ rest => .pure (by simpa using ⟨fine, rest⟩) fun _ => ?_
    rintro tokens more _ ⟨token, is, same, rfl⟩
    refine ⟨rfl, ?_⟩
    simpa [same] using PathTailText.cons dot is more

theorem path_reads
    (reads : ∀ budget, Reads source pre post (Plainly (NameText word)) 1 budget name name)
    (further : ∀ budget, Reads source Any post (Plainly (NameText word)) 1 budget name name)
    (le : n ≤ m) :
    Reads source pre (fun path => ∀ word ∈ path.segments, post word)
      (Plainly fun path tokens => PathText word path.bare tokens) 1 (n + 7) (path name n)
      (path name m) := by
  refine .bind_plain (reads _) (Int.le_refl _) fun head _ fine => ?_
  refine .bind_plain (pathTail_reads further le) (by omega) fun tail _ rest =>
    .pure (by simpa [DottedName.segments] using ⟨fine, rest⟩) fun _ => ?_
  rintro tokens more _ ⟨token, is, same, rfl⟩
  refine ⟨rfl, ?_⟩
  simpa [DottedName.bare, same] using PathText.intro is more

theorem arraySuffix_reads (start : Span) (type : TypeExpr) (le : n ≤ m) :
    Reads source Any Any (Plainly fun whole tokens => BracketsText type.bare whole.bare tokens) 0
      (n - 1) (arraySuffix start n type) (arraySuffix start m type) := by
  induction n, m, le using steps_induction generalizing type with
  | start => exact .exhausted (by omega)
  | none n m _ ih => exact (ih type).starved (by omega)
  | step n m _ ih =>
    refine .eat (by simp) (fun _ left => ?_) (.pure trivial fun _ => ⟨rfl, .nil⟩)
    refine .expect (by simp) fun _ right => .spanFrom fun span => ?_
    refine (ih (.array type span)).weaken (fun _ _ => trivial) (by omega) (by omega) ?_
    rintro _ whole _ _ tokens ⟨rfl, more⟩
    exact ⟨rfl, .cons left right more⟩

/-- A member with what ends it: a separator, or the closing mark, which stays. -/
def EndedMember (close : Mark) : Text Member := fun _ member last imports tokens => imports = [] ∧
  ((MemberText member.bare tokens ∧ last.current.kind = .mark close) ∨
    ∃ inner ending, tokens = inner ++ [ending] ∧ MemberText member.bare inner ∧
      (ending.kind = .mark .semicolon ∨ ending.kind = .mark .comma))

theorem endMember_reads (close : Mark) (found : Member) (budget : Int) :
    Reads source Any Any (fun s member last imports tokens => ∀ inner, MemberText found.bare inner →
      EndedMember close s member last imports (inner ++ tokens)) 0 budget
      (endMember close found) (endMember close found) := by
  refine .eat (by simp) (fun _ is => .pure trivial fun _ => ?_)
    (.eat (by simp) (fun _ is => .pure trivial fun _ => ?_) (.check (.pure trivial fun is => ?_)
      (.expected _)))
  · exact fun inner written => ⟨rfl, .inr ⟨inner, _, rfl, written, .inl is⟩⟩
  · exact fun inner written => ⟨rfl, .inr ⟨inner, _, rfl, written, .inr is⟩⟩
  · exact fun inner written => ⟨rfl, .inl ⟨by simpa using written, is⟩⟩

/-! ### Skipping -/

theorem skipMember_reads (close : Mark) (depth : Nat) (le : n ≤ m) :
    Reads source Any Any AnyText 0 (n - 1) (skipMember close n depth) (skipMember close m depth) := by
  induction n, m, le using steps_induction generalizing depth with
  | start => exact .exhausted (by omega)
  | none n m _ ih => exact (ih depth).starved (by omega)
  | step n m _ ih =>
    refine .kind fun token _ => .ite (fun _ => .stop) fun more => ?_
    have further (depth : Nat) : Reads source (· = token) Any AnyText 0 ((n + 1 : Nat) - 1)
        (advance >>= fun _ => skipMember close n depth)
        (advance >>= fun _ => skipMember close m depth) :=
      .advance (fun _ is => is ▸ more) fun _ => (ih depth).last (by omega) (by omega)
    refine .ite (fun _ => .stop) fun _ => ?_
    refine .ite (fun _ => .advance (fun _ is => is ▸ more) fun _ => .stop) fun _ => ?_
    refine .ite (fun _ => further _) fun _ => ?_
    exact .ite (fun _ => .ite (fun _ => .stop) fun _ => further _) fun _ => further _

/-- A token that closes no other list. -/
def Own (close : Mark) (token : Token) : Prop := ¬ Foreign close token.kind

/-- A token at which a list of members goes on. -/
structure Inner (close : Mark) (token : Token) : Prop where
  more : token.kind ≠ .endOfFile
  other : token.kind ≠ .mark close
  own : Own close token

/-- A token of the list that stands first is skipped. -/
theorem skipMember_takes (close : Mark) (le : n ≤ m) :
    Reads source (Inner close) Any AnyText 1 (n - 1) (skipMember close n 0) (skipMember close m 0) := by
  induction n, m, le using steps_induction with
  | start => exact .exhausted (by omega)
  | none n m _ ih => exact ih.starved (by omega)
  | step n m le _ =>
    refine .kind fun token inner => .ite (fun last => absurd last inner.more) fun more => ?_
    have further (depth : Nat) : Reads source (· = token) Any AnyText 1 ((n + 1 : Nat) - 1)
        (advance >>= fun _ => skipMember close n depth)
        (advance >>= fun _ => skipMember close m depth) :=
      .advance (fun _ is => is ▸ more) fun _ =>
        (skipMember_reads close depth le).last (by omega) (by omega)
    refine .ite (fun closes => absurd closes.1 inner.other) fun _ => ?_
    refine .ite (fun _ => .advance (fun _ is => is ▸ more) fun _ => .stop) fun _ => ?_
    refine .ite (fun _ => further _) fun _ => ?_
    exact .ite (fun closes => absurd ⟨closes, inner.other⟩ inner.own) fun _ => further _

/-! ### Closing marks of other lists -/

section
variable {s : State}

theorem foreign_startRound (foreign : Foreign close s.current.kind) :
    ¬ ((s.startRound close).current.kind = .mark close ∨
      (s.startRound close).current.kind = .endOfFile) := by
  show ¬ (s.current.kind = .mark close ∨ s.current.kind = .endOfFile)
  rintro (own | last)
  · exact foreign.2 own
  · rcases foreign.1 with is | is <;> simp [last] at is

/-- No member starts with a closing mark. -/
theorem propertyName_closing (closing : s.current.kind = .mark .closeBrace ∨
    s.current.kind = .mark .closeParen) :
    propertyName s = .broken (s.expected (TokenKind.describe .identifier)) := by
  rcases closing with is | is
  · simp [propertyName, anyName, ident, run_check, run_kind, run_expect, is, TokenKind.isKeyword]
  · simp [propertyName, anyName, ident, run_check, run_kind, run_expect, is, TokenKind.isKeyword]

theorem member_closing (close : Mark) (n : Nat) (closing : s.current.kind = .mark .closeBrace ∨
    s.current.kind = .mark .closeParen) :
    member close (n + 2) s = .broken (s.expected (TokenKind.describe .identifier)) := by
  have undecorated : decorators (n + 1) s = .done [] s := by
    rcases closing with is | is
    · simp [decorators, run_current, run_eat, is]
      rfl
    · simp [decorators, run_current, run_eat, is]
      rfl
  have plain : s.current.kind ≠ .mark .ellipsis := by
    rcases closing with is | is <;> simp [is]
  simp only [member]
  rw [run_current, run_eat, if_neg plain]
  simp only [Bool.false_eq_true, if_false]
  rw [run_of_done undecorated, run_of_broken (propertyName_closing closing)]

/-- Without the steps for decorators no member is read. -/
theorem member_one (close : Mark) (closing : s.current.kind = .mark .closeBrace ∨
    s.current.kind = .mark .closeParen) : member close 1 s = .exhausted s := by
  have plain : s.current.kind ≠ .mark .ellipsis := by
    rcases closing with is | is <;> simp [is]
  simp only [member]
  rw [run_current, run_eat, if_neg plain]
  rfl

theorem skipMember_foreign (n : Nat) (foreign : Foreign close s.current.kind) :
    skipMember close (n + 1) 0 s = .done () s := by
  rcases foreign.1 with is | is
  · have other := foreign.2
    rw [is] at other
    simp [skipMember, run_kind, is, other]
    rfl
  · have other := foreign.2
    rw [is] at other
    simp [skipMember, run_kind, is, other]
    rfl

/-- The state in which a list is tried again at a closing mark of another list. -/
def stuck (close : Mark) (s : State) : State :=
  (s.startRound close).expected (TokenKind.describe .identifier)

theorem current_stuck (close : Mark) (s : State) : (stuck close s).current = s.current := by
  rw [State.current, State.current, stuck, State.upcoming_expected]
  rfl

section
variable (n : Nat) (foreign : Foreign close s.current.kind)
include foreign

theorem attempt_foreign :
    attempt (member close (n + 2)) (s.startRound close) = .done none (stuck close s) :=
  attempt_of_broken (member_closing (s := s.startRound close) close n foreign.1)

theorem skipMember_stuck :
    skipMember close (n + 1) 0 (stuck close s) = .done () (stuck close s) := by
  refine skipMember_foreign n ?_
  rw [current_stuck]
  exact foreign

/-- A list at a closing mark of another list starts again at the same place. -/
theorem members_foreign :
    members close (n + 3) s = members close (n + 2) (stuck close s) := by
  rw [members, run_update, run_kind, if_neg (foreign_startRound foreign),
    run_of_done (attempt_foreign n foreign)]
  exact run_of_done (skipMember_stuck (n + 1) foreign)

end

/-- With one or two steps the member is not even refused. -/
theorem members_short (foreign : Foreign close s.current.kind)
    (few : member close n (s.startRound close) = .exhausted (s.startRound close)) :
    members close (n + 1) s = .exhausted (s.startRound close) := by
  rw [members, run_update, run_kind, if_neg (foreign_startRound foreign)]
  exact run_of_exhausted (attempt_of_exhausted few)

theorem startRound_spoils (opened : close = .closeBrace ∨ Occurs source (.mark .openParen))
    (foreign : Foreign close s.current.kind) :
    s.Reaches source (s.startRound close) ∧ ¬ (s.startRound close).Free :=
  ⟨.single (.startRound opened), fun free =>
    free (close, s.current.kind) (List.mem_cons_self ..) foreign⟩

/-- A list that has come to a closing mark of another list never ends. -/
theorem members_endless (n : Nat) (inside : s.Within source)
    (opened : close = .closeBrace ∨ Occurs source (.mark .openParen))
    (foreign : Foreign close s.current.kind) :
    ∃ t, members close (n + 1) s = .exhausted t ∧ s.Reaches source t ∧ ¬ t.Free := by
  induction n generalizing s with
  | zero =>
    obtain ⟨started, spoilt⟩ := startRound_spoils opened foreign
    exact ⟨_, members_short foreign rfl, started, spoilt⟩
  | succ n ih =>
    obtain ⟨started, spoilt⟩ := startRound_spoils opened foreign
    cases n with
    | zero => exact ⟨_, members_short foreign (member_one close foreign.1), started, spoilt⟩
    | succ n =>
      have again : s.Reaches source (stuck close s) := started.trans (State.Reaches.expected _ _)
      obtain ⟨t, out, reaches, bad⟩ := ih (again.within inside) (by rw [current_stuck]; exact foreign)
      exact ⟨t, (members_foreign n foreign).trans out, again.trans reaches, bad⟩

/-- A round that starts at a token of the list. -/
theorem startRound_reads (inside : s.Within source)
    (opened : close = .closeBrace ∨ Occurs source (.mark .openParen)) (own : Own close s.current)
    (rest : Reads source (Own close) post text taken budget (f ()) (g ())) :
    Reply.Fits source post taken budget s ((update (·.startRound close) >>= f) s)
        ((update (·.startRound close) >>= g) s) ∧
      (update (·.startRound close) >>= g).Impartial s ∧
      (s.Proper → ((update (·.startRound close) >>= g) s).Ends s (text (s.startRound close))) := by
  have started : s.Move source (s.startRound close) := .startRound opened
  obtain ⟨fits, impartial, ends⟩ := rest _ (started.within inside) own
  have passes (silent : (s.startRound close).Silent) : s.Passes (s.startRound close) [] [] :=
    ⟨silent, ⟨[], rfl, rfl, by simp⟩, (List.append_nil _).symm⟩
  refine ⟨.notes (.single started) (fun unspoilt round member => ?_) fits, impartial,
    fun proper => .after passes (ends (started.proper proper))⟩
  rcases List.mem_cons.mp member with rfl | member
  · exact own
  · exact unspoilt round member

theorem members_impartial (foreign : Foreign close s.current.kind) (n : Nat) :
    (members close (n + 1)).Impartial s := by
  induction n generalizing s with
  | zero =>
    intro file
    rw [members_short foreign rfl, members_short (s := s.renumber file) foreign rfl]
    rfl
  | succ n ih =>
    intro file
    cases n with
    | zero =>
      rw [members_short foreign (member_one close foreign.1),
        members_short (s := s.renumber file) foreign (member_one close foreign.1)]
      rfl
    | succ n =>
      have same : stuck close (s.renumber file) = (stuck close s).renumber file :=
        State.expected_renumber (s := s.startRound close) _
      rw [members_foreign n foreign, members_foreign (s := s.renumber file) n foreign, same]
      exact ih (by rwa [current_stuck]) file

end

/-! ### Types, members and decorators -/

/-- Options of a union after the first one. There are some if a bar stands here. -/
def OptionsRead : Text (List TypeExpr) := fun s rest _ imports tokens => imports = [] ∧
  OptionsText (TypeExpr.allBare rest) tokens ∧ (s.current.kind = .mark .bar → rest ≠ [])

/-- Members up to the closing mark. There are none if it stands here. -/
def MembersRead (close : Mark) : Text (List Member) := fun s list _ imports tokens => imports = [] ∧
  MembersText (Member.allBare list) tokens ∧ (s.current.kind = .mark close → list = [])

/-- What is known of the readers that may nest so many steps. -/
structure Reading (source : List Scanned) (n m : Nat) : Prop where
  typeExpr : Reads source Any Any (Plainly fun type tokens => TypeText type.bare tokens) 1 (n - 3)
    (typeExpr n) (typeExpr m)
  options : Reads source Any Any OptionsRead 0 (n - 1) (options n) (options m)
  primary : Reads source Any Any (Plainly fun type tokens => PrimaryText type.bare tokens) 1 (n - 2)
    (primary n) (primary m)
  reference : Reads source Any Any (Plainly fun type tokens => ReferenceText type.bare tokens) 1
    (n - 1) (reference n) (reference m)
  typeArgs : Reads source Any Any
    (Plainly fun args tokens => TypesText (TypeExpr.allBare args) tokens) 0 (n - 4) (typeArgs n)
    (typeArgs m)
  members : ∀ close, close = .closeBrace ∨ Occurs source (.mark .openParen) →
    Reads source Any Any (MembersRead close) 0 (n - 3) (members close n) (members close m)
  member : ∀ close,
    Reads source Any Any (EndedMember close) 1 (n - 2) (member close n) (member close m)
  decorators : Reads source Any Any
    (Plainly fun list tokens => DecoratorsText (DecoratorExpr.allBare list) tokens) 0 (n - 1)
    (decorators n) (decorators m)
  decoratorArgs : Reads source Any Any
    (Plainly fun args tokens => ArgsText (DecoratorArg.allBare args) tokens) 0 (n - 5)
    (decoratorArgs n) (decoratorArgs m)
  decoratorArg : Reads source Any Any (Plainly fun arg tokens => ArgText arg.bare tokens) 1 (n - 4)
    (decoratorArg n) (decoratorArg m)

section
variable (ih : Reading source n m)
include ih

theorem typeExpr_reads : Reads source Any Any (Plainly fun type tokens => TypeText type.bare tokens)
    1 ((n + 1 : Nat) - 3) (typeExpr (n + 1)) (typeExpr (m + 1)) := by
  refine .current fun token _ => .maybe (by simp) fun led => ?_
  refine .bind_plain ih.primary (by omega) fun first _ _ => .check ?_ (.pure trivial fun _ => ?_)
  · refine .bind ih.options.here (by omega) fun rest several _ => .spanFrom fun _ => .pure trivial fun _ => ?_
    rintro _ more ⟨rfl, options, others⟩ tokens head lead leading
    cases rest with
    | nil => exact absurd rfl (others several)
    | cons second rest =>
      refine ⟨rfl, ?_⟩
      simpa [TypeExpr.bare, TypeExpr.allBare] using TypeText.union leading head options
  · rintro tokens head lead leading
    refine ⟨rfl, ?_⟩
    simpa using TypeText.single leading head

theorem options_reads : Reads source Any Any OptionsRead 0 ((n + 1 : Nat) - 1) (options (n + 1))
    (options (m + 1)) := by
  refine .eat (by simp) (fun _ bar => ?_) (.pure trivial fun other => ?_)
  · refine .bind_plain ih.primary (by omega) fun head _ _ => ?_
    refine .bind ih.options (by omega) fun tail _ _ => .pure trivial fun _ => ?_
    rintro _ more ⟨rfl, rest, _⟩ tokens first
    refine ⟨rfl, ?_, by simp⟩
    simpa [TypeExpr.allBare] using OptionsText.cons bar first rest
  · exact ⟨rfl, .nil, fun is => absurd is other.2⟩

theorem primary_reads (le : n ≤ m) : Reads source Any Any
    (Plainly fun type tokens => PrimaryText type.bare tokens) 1 ((n + 1 : Nat) - 2) (primary (n + 1))
    (primary (m + 1)) := by
  -- Brackets may follow a type of any form.
  have suffix (start : Span) (core : TypeExpr) {text : Text TypeExpr} {budget : Int}
      (below : budget ≤ n - 1) (whole : ∀ s type last more, BracketsText core.bare type.bare more →
        text s type last [] more) :
      Reads source Any Any text 0 budget (arraySuffix start n core) (arraySuffix start m core) := by
    refine (arraySuffix_reads start core le).weaken (fun _ _ => trivial) (by omega) below ?_
    rintro s type last _ more ⟨rfl, brackets⟩
    exact whole s type last more brackets
  refine .current fun token _ => .kind fun token _ => ?_
  generalize stands : token.kind = kind
  split
  · refine .advance (by simp [stands]) fun here => .given (suffix _ _ (by omega) ?_)
    exact fun _ type last more brackets => ⟨rfl, .intro (.void (here ▸ stands)) brackets⟩
  · refine .advance (by simp [stands]) fun here => .given (suffix _ _ (by omega) ?_)
    exact fun _ type last more brackets => ⟨rfl, .intro (.never (here ▸ stands)) brackets⟩
  · refine .advance (by simp [stands]) fun here => ?_
    refine .bind (ih.members .closeBrace (.inl rfl)) (by omega) fun members _ _ => ?_
    refine .expect (by simp) fun _ closes => .spanFrom fun span => .given (suffix _ _ (by omega) ?_)
    rintro _ type last more brackets _ tokens ⟨rfl, inner, _⟩
    refine ⟨rfl, ?_⟩
    simpa using PrimaryText.intro (.model (here ▸ stands) inner closes) brackets
  · refine .advance (by simp [stands]) fun here => ?_
    refine .bind_plain ih.typeExpr (by omega) fun inside _ _ => .expect (by simp) fun _ closes => ?_
    refine .given (suffix _ _ (by omega) ?_)
    rintro _ type last more brackets tokens inner
    refine ⟨rfl, ?_⟩
    simpa using PrimaryText.intro (.group (here ▸ stands) inner closes) brackets
  · refine .bind_plain ih.reference.here (by omega) fun core _ _ => suffix _ _ (by omega) ?_
    rintro _ type last more brackets tokens inner
    exact ⟨rfl, .intro (.reference inner) brackets⟩
  · exact .expected _

theorem reference_reads (le : n ≤ m) : Reads source Any Any
    (Plainly fun type tokens => ReferenceText type.bare tokens) 1 ((n + 1 : Nat) - 1)
    (reference (n + 1)) (reference (m + 1)) := by
  refine .current fun token _ => ?_
  refine .bind_plain (path_reads ident_reads ident_reads le) (by omega) fun path _ _ => ?_
  refine .eat (by simp) (fun _ opens => ?_) (.spanFrom fun _ => .pure trivial fun _ => ?_)
  · refine .bind_plain ih.typeArgs (by omega) fun args _ _ => .expect (by simp) fun _ closes => ?_
    refine .spanFrom fun _ => .pure trivial fun _ => ?_
    rintro more inner tokens names
    exact ⟨rfl, .applied names opens inner closes⟩
  · rintro tokens names
    refine ⟨rfl, ?_⟩
    simpa [TypeExpr.bare, TypeExpr.allBare] using ReferenceText.name names

theorem typeArgs_reads : Reads source Any Any
    (Plainly fun args tokens => TypesText (TypeExpr.allBare args) tokens) 0 ((n + 1 : Nat) - 4)
    (typeArgs (n + 1)) (typeArgs (m + 1)) := by
  refine .check (.pure trivial fun _ => ⟨rfl, .nil⟩) (.bind_plain ih.typeExpr (by omega) fun head _ _ => ?_)
  refine .eat (by simp) (fun _ comma => ?_) (.pure trivial fun _ => ?_)
  · refine .bind_plain ih.typeArgs (by omega) fun tail _ _ => .pure trivial fun _ => ?_
    rintro more rest tokens first
    refine ⟨rfl, ?_⟩
    simpa [TypeExpr.allBare] using TypesText.cons first comma rest
  · rintro tokens first
    refine ⟨rfl, ?_⟩
    simpa [TypeExpr.allBare] using TypesText.last first

theorem member_reads (close : Mark) : Reads source Any Any (EndedMember close) 1
    ((n + 1 : Nat) - 2) (member close (n + 1)) (member close (m + 1)) := by
  refine .current fun token _ => .eat (by simp) (fun _ dots => ?_) ?_
  · refine .bind_plain ih.typeExpr (by omega) fun target _ _ => .spanFrom fun _ => .given ?_
    refine (endMember_reads close _ _).weaken (fun _ _ => trivial) (by omega) (Int.le_refl _) ?_
    intro _ found last imports more ended tokens inner
    exact ended _ (by simpa [Member.bare] using MemberText.spread dots inner)
  · refine .bind_plain ih.decorators.here (by omega) fun decorators _ _ => ?_
    refine .bind_plain (propertyName_reads _) (Int.le_refl _) fun name _ _ => ?_
    refine .maybe (by simp) fun optional => .expect (by simp) fun _ colon => ?_
    refine .bind_plain ih.typeExpr (by omega) fun type _ _ => .spanFrom fun _ => .given ?_
    refine (endMember_reads close _ _).weaken (fun _ _ => trivial) (by omega) (Int.le_refl _) ?_
    intro _ found last imports more ended tokens inner mark question named names before decorated
    have written := MemberText.property decorated names question colon inner
    have whole := ended _ (by simpa [Member.bare] using written)
    simpa [EndedMember] using whole

theorem decorators_reads (le : n ≤ m) : Reads source Any Any
    (Plainly fun list tokens => DecoratorsText (DecoratorExpr.allBare list) tokens) 0
    ((n + 1 : Nat) - 1) (decorators (n + 1)) (decorators (m + 1)) := by
  refine .current fun token _ => .eat (by simp) (fun _ sign => ?_) (.pure trivial fun _ => ⟨rfl, .nil⟩)
  refine .bind_plain (path_reads anyName_reads anyName_reads le) (by omega) fun path _ _ => ?_
  refine .eat (by simp) (fun _ opens => ?_) (.given (.spanFrom fun _ => ?_))
  · refine .bind_plain ih.decoratorArgs (by omega) fun args _ _ => .expect (by simp) fun _ closes => ?_
    refine .given (.spanFrom fun _ => .bind_plain ih.decorators (by omega) fun rest _ _ => ?_)
    refine .pure trivial fun _ => ?_
    rintro more tail inside inner tokens names
    refine ⟨rfl, ?_⟩
    simpa [DecoratorExpr.allBare, DecoratorExpr.bare] using
      DecoratorsText.cons sign names (.present opens inner closes) tail
  · refine .bind_plain ih.decorators.here (by omega) fun rest _ _ => .pure trivial fun _ => ?_
    rintro more tail tokens names
    refine ⟨rfl, ?_⟩
    simpa [DecoratorExpr.allBare, DecoratorExpr.bare, DecoratorArg.allBare] using
      DecoratorsText.cons sign names .missing tail

theorem decoratorArgs_reads : Reads source Any Any
    (Plainly fun args tokens => ArgsText (DecoratorArg.allBare args) tokens) 0 ((n + 1 : Nat) - 5)
    (decoratorArgs (n + 1)) (decoratorArgs (m + 1)) := by
  refine .check (.pure trivial fun _ => ⟨rfl, .nil⟩)
    (.bind_plain ih.decoratorArg (by omega) fun head _ _ => ?_)
  refine .eat (by simp) (fun _ comma => ?_) (.pure trivial fun _ => ?_)
  · refine .bind_plain ih.decoratorArgs (by omega) fun tail _ _ => .pure trivial fun _ => ?_
    rintro more rest tokens first
    refine ⟨rfl, ?_⟩
    simpa [DecoratorArg.allBare] using ArgsText.cons first comma rest
  · rintro tokens first
    refine ⟨rfl, ?_⟩
    simpa [DecoratorArg.allBare] using ArgsText.last first

theorem decoratorArg_reads : Reads source Any Any
    (Plainly fun arg tokens => ArgText arg.bare tokens) 1 ((n + 1 : Nat) - 4) (decoratorArg (n + 1))
    (decoratorArg (m + 1)) := by
  refine .current fun token _ => ?_
  generalize stands : token.kind = kind
  split
  · refine .advance (by simp [stands]) fun here => ?_
    subst here
    exact .pure trivial fun _ => ⟨rfl, .string stands⟩
  · generalize value : Decimal.ofChars? token.lexeme.toList = decimal
    split
    · refine .advance (by simp [stands]) fun here => ?_
      subst here
      exact .pure trivial fun _ => ⟨rfl, .number stands value⟩
    · refine .complain ?_
      rintro s rfl
      exact .report (.inr (.inr ⟨stands, value⟩))
  · refine .advance (by simp [stands]) fun here => ?_
    subst here
    exact .pure trivial fun _ => ⟨rfl, .yes stands⟩
  · refine .advance (by simp [stands]) fun here => ?_
    subst here
    exact .pure trivial fun _ => ⟨rfl, .no stands⟩
  · refine .bind_plain ih.typeExpr.here (by omega) fun type _ _ => .pure trivial fun _ => ?_
    rintro tokens inner
    refine ⟨rfl, ?_⟩
    simpa [DecoratorArg.bare] using ArgText.type inner

theorem members_reads (close : Mark) (le : n ≤ m)
    (opened : close = .closeBrace ∨ Occurs source (.mark .openParen)) :
    Reads source Any Any (MembersRead close) 0 ((n + 1 : Nat) - 3) (members close (n + 1))
      (members close (m + 1)) := by
  intro s inside _
  by_cases foreign : Foreign close s.current.kind
  · obtain ⟨t, out, _, bad⟩ := members_endless n inside opened foreign
    obtain ⟨u, more, reaches, spoilt⟩ := members_endless m inside opened foreign
    refine ⟨?_, members_impartial foreign m, fun _ => by rw [more]; trivial⟩
    rw [out, more]
    refine ⟨⟨reaches, False.elim, by simp⟩, False.elim, ?_⟩
    rintro _ ⟨⟩
    exact ⟨fun free => absurd free spoilt, fun _ => bad⟩
  · have further := ih.members close opened
    rw [members, members]
    show _ ∧ _ ∧ (_ → Reply.Ends _ s (MembersRead close (s.startRound close)))
    refine startRound_reads inside opened foreign (.kind fun token own => ?_)
    refine .ite (fun _ => .pure trivial fun _ => ⟨rfl, .nil, fun _ => rfl⟩) fun going => ?_
    rw [not_or] at going
    refine .recover (ih.member close).here (by omega) (fun head here _ => ?_) rfl rfl
      (skipMember_reads close 0 le) ?_ (by omega) (further.last (by omega) (by omega))
    · refine .bind further (by omega) fun tail _ _ => .pure trivial fun _ => ?_
      rintro _ more ⟨rfl, rest, empty⟩ _ tokens ⟨rfl, ended⟩
      refine ⟨rfl, ?_, fun is => absurd (here ▸ is) going.1⟩
      rcases ended with ⟨first, closed⟩ | ⟨inner, ending, rfl, first, separates⟩
      · obtain rfl := empty closed
        cases rest
        simpa [Member.allBare] using MembersText.last first
      · simpa [Member.allBare] using MembersText.cons first separates rest
    · refine (skipMember_takes close le).narrow ?_
      rintro _ rfl
      exact ⟨going.2, going.1, own⟩

end

theorem Reading.step (ih : Reading source n m) (le : n ≤ m) : Reading source (n + 1) (m + 1) where
  typeExpr := typeExpr_reads ih
  options := options_reads ih
  primary := primary_reads ih le
  reference := reference_reads ih le
  typeArgs := typeArgs_reads ih
  members := fun close opened => members_reads ih close le opened
  member := member_reads ih
  decorators := decorators_reads ih le
  decoratorArgs := decoratorArgs_reads ih
  decoratorArg := decoratorArg_reads ih

theorem reading (source : List Scanned) (le : n ≤ m) : Reading source n m := by
  induction n, m, le using steps_induction with
  | start =>
    exact ⟨.exhausted (by omega), .exhausted (by omega), .exhausted (by omega), .exhausted (by omega),
      .exhausted (by omega), fun _ _ => .exhausted (by omega), fun _ => .exhausted (by omega),
      .exhausted (by omega), .exhausted (by omega), .exhausted (by omega)⟩
  | none n m _ ih =>
    exact ⟨ih.typeExpr.starved (by omega), ih.options.starved (by omega),
      ih.primary.starved (by omega), ih.reference.starved (by omega), ih.typeArgs.starved (by omega),
      fun close opened => (ih.members close opened).starved (by omega),
      fun close => (ih.member close).starved (by omega), ih.decorators.starved (by omega),
      ih.decoratorArgs.starved (by omega), ih.decoratorArg.starved (by omega)⟩
  | step n m le ih => exact ih.step le

end Idl.Syntax.Parser
