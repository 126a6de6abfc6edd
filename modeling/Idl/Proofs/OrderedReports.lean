import Idl.Proofs.LosslessTokens
import Idl.Proofs.ReadingRounds
import Mathlib.Data.List.Nodup
import Mathlib.Data.Prod.Lex

/-! What reading finds wrong is told in the order of the text. The scanner is one token
ahead of the reader and its faults are held back until the next report, so before every
report the faults up to the current token are told, and the report stands at that
token. Every step keeps it so: what was found stands at the current token or before it, and the
faults that are not among it are those of the tokens to come. Reading ends only at the
end of the file, where the last faults are told. -/
namespace Idl

/-! ### The order of places -/

namespace Position

/-- By line, and within a line by column. -/
instance : Preorder Position := .lift fun p => toLex (p.line, p.col)

theorem lt_iff {q : Position} : p < q ↔ p.line < q.line ∨ p.line = q.line ∧ p.col < q.col :=
  Prod.Lex.toLex_lt_toLex

theorem lt_next (p : Position) (c : Char) : p < p.next c := by
  have size := c.utf8Size_pos
  rw [lt_iff, next]
  split
  · exact .inl (Nat.lt_succ_self _)
  · exact .inr ⟨rfl, Nat.lt_add_of_pos_right size⟩

theorem le_after (p : Position) (text : List Char) : p ≤ p.after text := by
  induction text generalizing p with
  | nil => exact le_rfl
  | cons c text ih => exact ((p.lt_next c).trans_le (ih _)).le

theorem counted_le (before text : List Char) : counted before ≤ counted (before ++ text) := by
  rw [← counted_after]
  exact le_after _ text

theorem counted_lt (before : List Char) (more : text ≠ []) :
    counted before < counted (before ++ text) := by
  obtain ⟨c, text, rfl⟩ := List.exists_cons_of_ne_nil more
  rw [← counted_after]
  exact (lt_next _ c).trans_le (le_after _ text)

end Position

/-- Where a span starts. -/
def Span.start (span : Span) : Position := ⟨span.line, span.col⟩

@[simp] theorem Span.start_counted (before : List Char) (lexeme : String) :
    (Span.counted before lexeme).start = .counted before := rfl

/-- The place of a finding, if it has one. -/
def Diagnostic.place? (d : Diagnostic) : Option Position :=
  d.location.map fun location => location.span.start

/-- The one finding does not stand after the other. -/
def Diagnostic.NotAfter (d e : Diagnostic) : Prop := ∀ p ∈ d.place?, ∀ q ∈ e.place?, p ≤ q

/-! ### Places in a text -/

/-- The text up to here is nothing, or ends with a token. -/
def EndsToken (text : String) (front : List Char) : Prop :=
  front = [] ∨ ∃ scanned ∈ tokenize text, ∃ before,
    front = before ++ scanned.token.lexeme.toList ∧
      scanned.token.span = .counted before scanned.token.lexeme

/-- A place of a text at which a token or a comment starts, or at which the text ends. A comment
starts only between tokens, after other comments and white space. -/
inductive Landmark (text : String) : Position → Prop where
  | token {scanned} (is : scanned ∈ tokenize text) (more : scanned.token.kind ≠ .endOfFile) :
      Landmark text scanned.token.span.start
  | comment {front inner after} (whole : text.toList = front ++ inner ++ after)
      (between : EndsToken text front) (passed : Gap after inner none)
      (opens : ['/', '/'] <+: after ∨ ['/', '*'] <+: after) :
      Landmark text (.counted (front ++ inner))
  | finish : Landmark text (.counted text.toList)

/-- What stands in a gap before a comment that is never closed. -/
theorem Gap.unclosed_eq {inner : List Char} (gap : Gap after text (some inner)) : after = [] ∧
    ∃ comment, text = inner ++ '/' :: '*' :: comment ∧ Gap ('/' :: '*' :: comment) inner none := by
  generalize is : some inner = opened at gap
  induction gap generalizing inner with
  | nil => cases is
  | @cons piece gap opened head more ih =>
    obtain ⟨deeper, rfl, rfl⟩ := Option.map_eq_some_iff.mp is.symm
    obtain ⟨ended, comment, rfl, passed⟩ := ih rfl
    refine ⟨ended, comment, by simp, ?_⟩
    rw [ended, List.append_nil] at head
    exact .cons head passed
  | @unclosed comment never last =>
    cases is
    exact ⟨last, comment, rfl, .nil⟩

theorem Faults.length_le (faults : Faults after token list) : list.length ≤ 1 := by
  cases faults <;> simp

/-- The end of the file has no faults of its own. -/
theorem Faults.eq_nil (faults : Faults after token list) (ended : token.kind = .endOfFile) :
    list = [] := by
  cases faults with
  | character is | number is | ranOut is => simp [is] at ended
  | closed | other => rfl

namespace Piece
variable {piece : Piece}

/-- At most one thing is wrong with a token and what stands before it. It is told at the token, or
at a comment before it. -/
theorem Exact.errors_eq (exact : piece.Exact before after) :
    piece.errors = [] ∨ ∃ e, piece.errors = [e] ∧ (e.span = piece.token.span ∨
      ∃ inner comment, piece.gap = inner ++ '/' :: '*' :: comment ∧
        Gap ('/' :: '*' :: comment) inner none ∧ after = [] ∧ piece.token.lexeme = "" ∧
        e.span = .counted (before ++ inner) "/*") := by
  obtain ⟨opened, faults, gap, wrong, told⟩ := exact.told
  cases opened with
  | none =>
    have short := wrong.length_le
    rcases faults with _ | ⟨fault, _ | _⟩
    · exact .inl (by simpa using told)
    · exact .inr ⟨⟨fault, piece.token.span⟩, by simpa using told, .inl rfl⟩
    · simp at short
  | some inner =>
    obtain ⟨ended, comment, split, passed⟩ := gap.unclosed_eq
    obtain ⟨lexeme, nothing⟩ := List.append_eq_nil_iff.mp ended
    have lexeme : piece.token.lexeme = "" := by simpa using lexeme
    have none := wrong.eq_nil (exact.empty.mp lexeme)
    refine .inr ⟨_, by simpa [none] using told, .inr ⟨inner, comment, split, ?_⟩⟩
    exact ⟨passed, nothing, lexeme, rfl⟩

theorem Exact.start_eq (exact : piece.Exact before after) :
    piece.token.span.start = .counted (before ++ piece.gap) := by
  rw [exact.span, Span.start_counted]

end Piece

/-! ### Tokens in their order -/

/-- A token stands at its place in a text, and it is a number only if it can be read as one. -/
structure Token.Stands (text : String) (token : Token) : Prop where
  place : Landmark text token.span.start
  numeral : token.kind = .number → Decimal.ofChars? token.lexeme.toList ≠ none

/-- A token stands after a place. At most one thing is wrong with it, which is told after that
place and up to the token. -/
structure Scanned.Follows (text : String) (p : Position) (scanned : Scanned) : Prop where
  stands : scanned.token.Stands text
  after : p < scanned.token.span.start
  faults : scanned.errors = [] ∨ ∃ e, scanned.errors = [e] ∧ Landmark text e.span.start ∧
    p < e.span.start ∧ e.span.start ≤ scanned.token.span.start

/-- Tokens that follow a place and each other. -/
inductive InLine (text : String) : Position → List Scanned → Prop where
  | nil {p} : InLine text p []
  | cons {p scanned rest} (first : scanned.Follows text p)
      (more : InLine text scanned.token.span.start rest) : InLine text p (scanned :: rest)

namespace Source
variable {s : Source}

theorem scan_numeral (s : Source) : s.scan.1.token.kind = .number →
    Decimal.ofChars? s.scan.1.token.lexeme.toList ≠ none := by
  unfold scan
  split
  split
  · simp
  · simpa using (FirstLexeme.of_kind_spec ..).2.2

theorem scan_follows (here : s.position = .counted before) (whole : text.toList = before ++ s.rest)
    (is : s.scan.1 ∈ tokenize text) (between : EndsToken text before) (less : p < .counted before) :
    s.scan.1.Follows text p := by
  obtain ⟨piece, scanned, rest, _, exact⟩ := s.scan_exact here
  have numeral := s.scan_numeral
  rw [scanned] at is numeral ⊢
  have place : Landmark text piece.token.span.start := by
    by_cases ended : piece.token.kind = .endOfFile
    · rw [exact.start_eq, show before ++ piece.gap = text.toList by
        simp [whole, rest, Piece.chars, exact.empty.mpr ended, exact.last ended]]
      exact .finish
    · exact .token is ended
  have after : p < piece.token.span.start := by
    rw [exact.start_eq]
    exact less.trans_le (Position.counted_le ..)
  refine ⟨⟨place, numeral⟩, after, exact.errors_eq.imp id ?_⟩
  rintro ⟨e, one, same | ⟨inner, comment, gap, passed, ended, empty, same⟩⟩
  · exact ⟨e, one, same ▸ place, same ▸ after, same ▸ le_rfl⟩
  · rw [exact.start_eq, gap]
    refine ⟨e, one, ?_⟩
    rw [same, Span.start_counted, ← List.append_assoc]
    refine ⟨.comment ?_ between passed (.inr ⟨comment, rfl⟩), less.trans_le (Position.counted_le ..),
      Position.counted_le ..⟩
    simp [whole, rest, Piece.chars, gap, ended, empty]

theorem tokens_inLine (s : Source) : ∀ before passed p, s.position = .counted before →
    text.toList = before ++ s.rest → tokenize text = passed ++ s.tokens → EndsToken text before →
      p < .counted before → InLine text p s.tokens := by
  fun_induction tokens s with
  | case1 s ended =>
    intro before passed p here whole split between less
    exact .cons (scan_follows here whole (by simp [split]) between less) .nil
  | case2 s more ih =>
    intro before passed p here whole split between less
    obtain ⟨piece, scanned, rest, next, exact⟩ := s.scan_exact here
    have is : s.scan.1 ∈ tokenize text := by simp [split]
    refine .cons (scan_follows here whole is between less) ?_
    refine ih (before ++ piece.chars) (passed ++ [s.scan.1]) _ next ?_ (by simp [split]) ?_ ?_
    · rw [whole, rest, List.append_assoc]
    · rw [scanned] at is
      exact .inr ⟨_, is, before ++ piece.gap, by simp [Piece.chars], exact.span⟩
    · have some : piece.token.lexeme.toList ≠ [] := by
        rw [scanned] at more
        simpa using mt exact.empty.mp more
      rw [scanned]
      simpa [exact.start_eq, Piece.chars] using Position.counted_lt (before ++ piece.gap) some

end Source

/-- Lines are counted from one. -/
theorem tokenize_inLine (text : String) : InLine text ⟨0, 0⟩ (tokenize text) :=
  (Source.ofString text).tokens_inLine [] [] _ rfl rfl rfl (.inl rfl)
    (Position.lt_iff.mpr (.inl Nat.one_pos))

/-! ### What is found, in order -/

/-- The code of a report of the reader, and of no fault of the scanner. -/
def Code.reports (code : Code) : Bool := code = .tokenExpected ∨ code = .unexpectedToken

theorem LexFault.code_reports (fault : LexFault) : fault.code.reports = false := by
  cases fault <;> rfl

/-- The second letter tells the messages of faults from the reports of what is misplaced. -/
theorem LexFault.message_second (fault : LexFault) : fault.message.toList[1]? = some 'n' := by
  have within (start rest : String) (second : start.toList[1]? = some 'n') :
      (start ++ rest).toList[1]? = some 'n' := by
    rw [String.toList_append, List.getElem?_append_left (List.getElem?_eq_some_iff.mp second).1,
      second]
  cases fault with
  | invalidCharacter c => exact within _ "'." (within "Invalid character '" (toString c) (by decide))
  | unterminatedString => decide
  | unterminatedComment => decide
  | invalidNumber text => exact within _ "'." (within "Invalid number literal '" text (by decide))

namespace Syntax

/-- Whether the finding is no report of what stands where it may not stand. -/
def isPlain (d : Diagnostic) : Bool := d.message ∉ misplacements

/-- The findings without those reports. -/
def plain (found : List Diagnostic) : List Diagnostic := found.filter isPlain

theorem isPlain_fault (file : FileId) (e : LexError) : isPlain (e.diagnostic file) = true := by
  have other : ∀ message ∈ misplacements, message.toList[1]? ≠ some 'n' := by decide
  refine decide_eq_true fun misplaced => ?_
  exact other _ misplaced e.fault.message_second

@[simp] theorem plain_append (found more : List Diagnostic) :
    plain (found ++ more) = plain found ++ plain more :=
  List.filter_append ..

@[simp] theorem plain_faults (file : FileId) (faults : List LexError) :
    plain (faults.map (·.diagnostic file)) = faults.map (·.diagnostic file) :=
  List.filter_eq_self.mpr fun d mem => by
    obtain ⟨e, _, rfl⟩ := List.mem_map.mp mem
    exact isPlain_fault file e

theorem filter_faults (file : FileId) (faults : List LexError) :
    (faults.map (·.diagnostic file)).filter (fun d => !d.code.reports) =
      faults.map (·.diagnostic file) :=
  List.filter_eq_self.mpr fun d mem => by
    obtain ⟨e, _, rfl⟩ := List.mem_map.mp mem
    simp [LexError.diagnostic, Diagnostic.report, e.fault.code_reports]

/-- The one finding does not stand after the other, and before it if that is a fault. -/
def Leads (d e : Diagnostic) : Prop :=
  ∀ p ∈ d.place?, ∀ q ∈ e.place?, p ≤ q ∧ (e.code.reports = false → p < q)

/-- What is found up to a place, in order. -/
structure Told (file : FileId) (text : String) (bound : Position) (found : List Diagnostic) :
    Prop where
  ordered : found.Pairwise Leads
  placed : ∀ d ∈ found, ∃ span, d.location = some ⟨file, span⟩ ∧ Landmark text span.start ∧
    span.start ≤ bound

namespace Told
variable (told : Told file text bound found)
include told

theorem later (le : bound ≤ limit) : Told file text limit found := by
  refine ⟨told.ordered, fun d mem => ?_⟩
  obtain ⟨span, place, mark, upTo⟩ := told.placed d mem
  exact ⟨span, place, mark, upTo.trans le⟩

/-- One more finding. -/
theorem concat (place : d.location = some ⟨file, span⟩) (mark : Landmark text span.start)
    (after : bound ≤ span.start) (fault : d.code.reports = false → bound < span.start) :
    Told file text span.start (found ++ [d]) := by
  constructor
  · refine List.pairwise_append.mpr ⟨told.ordered, List.pairwise_singleton .., ?_⟩
    intro e mem last only p here q there
    obtain ⟨early, placed, _, upTo⟩ := told.placed e mem
    rw [Diagnostic.place?, placed] at here
    rw [List.mem_singleton.mp only, Diagnostic.place?, place] at there
    cases here
    cases there
    rw [List.mem_singleton.mp only]
    exact ⟨upTo.trans after, fun is => upTo.trans_lt (fault is)⟩
  · rw [List.forall_mem_append, List.forall_mem_singleton]
    exact ⟨(told.later after).placed, span, place, mark, le_rfl⟩

/-- What is wrong with one more token. -/
theorem token {scanned : Scanned} (follows : scanned.Follows text bound) :
    Told file text scanned.token.span.start (found ++ scanned.errors.map (·.diagnostic file)) := by
  rcases follows.faults with none | ⟨e, one, mark, less, upTo⟩
  · simpa [none] using told.later follows.after.le
  · rw [one]
    exact (told.concat rfl mark less.le fun _ => less).later upTo

/-- Nothing but a report is found twice. -/
theorem nodup : (found.filter fun d => !d.code.reports).Nodup := by
  refine (told.ordered.filter _).imp_of_mem fun {d e} first second leads same => ?_
  subst same
  obtain ⟨mem, fault⟩ := List.mem_filter.mp first
  obtain ⟨span, place, _⟩ := told.placed d mem
  have here : span.start ∈ d.place? := by simp [Diagnostic.place?, place]
  exact lt_irrefl _ ((leads _ here _ here).2 (by simpa using fault))

end Told

namespace State
variable {file : FileId} {s : State}

/-- What was found up to the current token, told or held back. -/
def findings (s : State) : List Diagnostic :=
  s.diagnostics ++ s.pending.map (·.diagnostic s.file)

theorem findings_flush (s : State) : s.flush.diagnostics = s.findings := rfl

theorem findings_report (s : State) (code : Code) (message : String) (span : Span) :
    (s.report code message span).findings =
      s.findings ++ [.report code message (some ⟨s.file, span⟩)] := by
  simp [findings, report, flush]

/-- What was found up to the current token is in order, and so are the tokens that follow it. The
faults that were not found are those of these tokens. -/
structure InOrder (file : FileId) (text : String) (s : State) : Prop where
  same : s.file = file
  here : s.current.Stands text
  told : Told file text s.current.span.start (plain s.findings)
  ahead : InLine text s.current.span.start s.upcoming.tail
  faults : ((tokenize text).flatMap Scanned.errors).map (·.diagnostic file) =
    (plain s.findings).filter (fun d => !d.code.reports) ++
      (s.upcoming.tail.flatMap Scanned.errors).map (·.diagnostic file)

theorem InOrder.start (file : FileId) (text : String) :
    (State.start file (tokenize text)).InOrder file text := by
  have terminated : Terminated (tokenize text) := Source.terminated_tokens _
  have inLine := tokenize_inLine text
  cases coming : tokenize text with
  | nil =>
    rw [coming] at terminated
    cases terminated
  | cons first rest =>
    rw [coming] at inLine
    cases inLine with
    | cons follows more =>
      have none : Told file text ⟨0, 0⟩ [] := ⟨.nil, by simp⟩
      refine ⟨rfl, follows.stands, ?_, more, ?_⟩
      · simpa [findings, State.start, current] using none.token follows
      · simp [coming, findings, State.start, filter_faults]

variable (fine : s.InOrder file text)
include fine

theorem InOrder.misplaced (code : Code) (span : Span) (is : message ∈ misplacements) :
    (s.report code message span).InOrder file text := by
  have same : plain (s.report code message span).findings = plain s.findings := by
    simp [findings_report, plain, isPlain, Diagnostic.report, is]
  refine ⟨fine.same, fine.here, ?_, fine.ahead, ?_⟩
  · rw [same]
    exact fine.told
  · rw [same]
    exact fine.faults

/-- A report of the current token. -/
theorem InOrder.report (message : String) (reports : code.reports = true) :
    (s.report code message s.current.span).InOrder file text := by
  by_cases known : message ∈ misplacements
  · exact fine.misplaced code _ known
  · have more : plain (s.report code message s.current.span).findings =
        plain s.findings ++ [.report code message (some ⟨file, s.current.span⟩)] := by
      simp [findings_report, plain, isPlain, Diagnostic.report, known, fine.same]
    refine ⟨fine.same, fine.here, ?_, fine.ahead, ?_⟩
    · rw [more]
      exact fine.told.concat rfl fine.here.place le_rfl (by simp [Diagnostic.report, reports])
    · rw [more, fine.faults]
      simp [Diagnostic.report, reports]
      rfl

theorem InOrder.advance (terminated : Terminated s.upcoming) (more : s.current.kind ≠ .endOfFile) :
    s.advance.InOrder file text := by
  obtain ⟨first, second, later, coming, _, moved⟩ := advance_eq terminated more
  obtain ⟨rfl, here, told, ahead, faults⟩ := fine
  have found : plain s.advance.findings =
      plain s.findings ++ second.errors.map (·.diagnostic s.file) := by simp [moved, findings]
  rw [coming] at ahead
  cases ahead with
  | cons follows ahead =>
    refine ⟨by rw [moved], ?_, ?_, ?_, ?_⟩
    · rw [moved]
      exact follows.stands
    · rw [found, moved]
      exact told.token follows
    · rw [moved]
      exact ahead
    · rw [found, faults, coming, moved]
      simp [filter_faults]

/-- One step of a reader keeps the findings in order. -/
theorem Move.inOrder (inside : s.Within source) (move : Move source s t) :
    t.InOrder file text := by
  cases move with
  | advance more => exact fine.advance inside.terminated more
  | startRound | imported => exact ⟨fine.same, fine.here, fine.told, fine.ahead, fine.faults⟩
  | report stands =>
    refine fine.report _ ?_
    rcases stands with rfl | rfl | ⟨number, wrong⟩
    · rfl
    · rfl
    · exact absurd wrong (fine.here.numeral number)
  | ended =>
    refine InOrder.report (s := { s with endReported := true }) ?_ _ rfl
    exact ⟨fine.same, fine.here, fine.told, fine.ahead, fine.faults⟩
  | misplaced is => exact fine.misplaced _ _ is

theorem Reaches.inOrder (inside : s.Within source) (reaches : s.Reaches source t) :
    t.InOrder file text := by
  induction reaches with
  | refl => exact fine
  | tail reached move ih => exact move.inOrder ih (Reaches.within reached inside)

end State

/-! ### Reading ends at the end of the file -/

/-- Reading that ended with a value left what is asked for, and it broke off only if it may. -/
def Reply.Meets {α : Type} (breaks : Prop) (post : α → State → Prop) : Reply α → Prop
  | .done value t => post value t
  | .broken _ => breaks
  | .exhausted _ => True

namespace Reply.Meets
variable {f : α → Parser β}

theorem bind (begun : (p s).Meets breaks first)
    (rest : ∀ value t, first value t → (f value t).Meets breaks post) :
    ((p >>= f) s).Meets breaks post := by
  cases ran : p s with
  | done value t =>
    rw [ran] at begun
    rw [Parser.run_of_done ran]
    exact rest value t begun
  | broken t =>
    rw [ran] at begun
    rw [Parser.run_of_broken ran]
    exact begun
  | exhausted t =>
    rw [Parser.run_of_exhausted ran]
    trivial

theorem weaken {reply : Reply α} (left : reply.Meets False first) : reply.Meets True first := by
  cases reply with
  | done value t => exact left
  | broken t | exhausted t => trivial

theorem after (rest : ∀ value t, (f value t).Meets True post) : ((p >>= f) s).Meets True post := by
  have begun : (p s).Meets True fun _ _ => True := by
    cases p s <;> trivial
  exact bind begun fun value t _ => rest value t

theorem attempt (begun : (p s).Meets True first) :
    (Parser.attempt p s).Meets False fun found t => ∀ value ∈ found, first value t := by
  cases ran : p s with
  | done value t =>
    rw [ran] at begun
    rw [Parser.attempt_of_done ran]
    rintro _ ⟨⟩
    exact begun
  | broken t =>
    rw [Parser.attempt_of_broken ran]
    rintro _ ⟨⟩
  | exhausted t =>
    rw [Parser.attempt_of_exhausted ran]
    trivial

end Reply.Meets

namespace Parser

theorem skipStatement_meets (topLevel : Bool) (n depth : Nat) (skipped : Bool) (s : State) :
    (skipStatement topLevel n depth skipped s).Meets False fun _ _ => True := by
  induction n generalizing depth skipped s with
  | zero => trivial
  | succ n ih =>
    unfold skipStatement
    rw [run_kind]
    generalize s.current.kind = kind
    split
    · trivial
    · rw [run_advance]
      split
      · trivial
      · exact ih ..
    · exact ih ..
    · split
      · split <;> trivial
      · rw [run_advance]
        split
        · trivial
        · exact ih ..
    iterate 7
      split
      · trivial
      · exact ih ..
    · exact ih ..

/-- An item that takes all that follows is read up to the end of the file. -/
def Ends (found : Item) (t : State) : Prop := takesRest found = true → t.current.kind = .endOfFile

/-- What the readers outside of any block leave is the end of the file. -/
structure Exhaustive (n : Nat) : Prop where
  items : ∀ s, (items true n s).Meets False fun _ t => t.current.kind = .endOfFile
  item : ∀ s, (item true n s).Meets True fun found t => ∀ one ∈ found, Ends one t
  space : ∀ decorators start s, (space decorators start true n s).Meets True Ends

section
variable (ih : Exhaustive n)
include ih

theorem items_exhaustive (s : State) :
    (items true (n + 1) s).Meets False fun _ t => t.current.kind = .endOfFile := by
  unfold items
  rw [run_kind]
  split
  · rename_i stops
    show s.current.kind = .endOfFile
    simpa using stops
  · refine .bind (.attempt (ih.item s)) fun found t left => ?_
    split
    · exact .bind (skipStatement_meets true n 0 false t) fun _ u _ => ih.items u
    · exact ih.items t
    · split
      · -- an item that takes the rest is the last one
        exact left _ rfl _ rfl rfl
      · exact .bind (ih.items t) fun _ u ended => ended

theorem declaration_exhaustive (decorators : List DecoratorExpr) (start : Span) (m : Nat)
    (s : State) :
    (declaration (space decorators start true n) decorators start m s).Meets True Ends := by
  unfold declaration
  rw [run_kind]
  generalize s.current.kind = kind
  split
  · exact ih.space ..
  · exact .after fun _ _ rest => absurd rest Bool.false_ne_true
  · exact .after fun _ _ => .after fun _ _ rest => absurd rest Bool.false_ne_true
  · exact .after fun _ _ rest => absurd rest Bool.false_ne_true
  · trivial
  · trivial

theorem item_exhaustive (s : State) :
    (item true (n + 1) s).Meets True fun found t => ∀ one ∈ found, Ends one t := by
  unfold item
  rw [run_current, run_kind]
  generalize s.current.kind = kind
  split
  · refine .after fun _ _ => ?_
    rintro _ ⟨⟩
  · refine .after fun _ _ => ?_
    rintro _ ⟨⟩ rest
    cases rest
  · refine .after fun _ _ => ?_
    rintro _ ⟨⟩
  · refine .after fun _ t => .bind (declaration_exhaustive ih _ _ _ t) fun declared u ends => ?_
    rintro _ ⟨⟩
    exact ends

theorem space_exhaustive (decorators : List DecoratorExpr) (start : Span) (s : State) :
    (space decorators start true (n + 1) s).Meets True Ends := by
  unfold space
  refine .after fun _ _ => .after fun _ _ => .after fun semicolon t => ?_
  split
  · refine .after fun span u => ?_
    rw [if_neg (by simp)]
    exact .bind (ih.items u).weaken fun _ v ended _ => ended
  · refine .after fun _ _ => .after fun _ _ => .after fun _ _ => .after fun _ _ rest => ?_
    cases rest

end

theorem exhaustive (n : Nat) : Exhaustive n := by
  induction n with
  | zero => exact ⟨fun _ => trivial, fun _ => trivial, fun _ _ _ => trivial⟩
  | succ n ih => exact ⟨items_exhaustive ih, item_exhaustive ih, space_exhaustive ih⟩

end Parser

/-! ### Whole files -/

/-- A file is read up to its last token, and all that was found is told. -/
theorem exists_inOrder (read : Script.read file text = some (script, found)) :
    ∃ s : State, s.InOrder file text ∧ s.upcoming.tail = [] ∧ found = s.findings := by
  have start := State.start_within file text
  have fits := Reply.ofFile_fits file text (Nat.le_refl (Script.stepLimit (tokenize text).length))
  have reaches := fits.lands.reaches
  have left := (Parser.exhaustive (Script.stepLimit (tokenize text).length)).items
    (.start file (tokenize text))
  unfold Reply.ofFile at reaches
  unfold Script.read Script.readWith at read
  dsimp only at read
  split at read
  · rename_i items state reply
    rw [reply] at reaches left
    have reaches : (State.start file (tokenize text)).Reaches (tokenize text) state := reaches
    obtain ⟨last, coming⟩ :=
      (reaches.proper (State.start_proper file text)).upcoming_of_endOfFile left
    cases read
    exact ⟨state, State.Reaches.inOrder (.start file text) start reaches, by rw [coming]; rfl,
      state.findings_flush⟩
  · rename_i state reply
    rw [reply] at left
    exact left.elim
  · cases read

end Syntax

open Syntax

/-- Wherever reading a text ends, the findings other than the reports of what is misplaced come in
the order of the text. Each of them stands where a token or a comment starts, or at the end of the
text. Every fault of the scanner is among them exactly once, and those that are no reports of the
reader are these faults in their order. -/
theorem Script.read_reports_in_order {file : FileId} {text : String} {script : Script}
    {found : List Diagnostic} (read : Script.read file text = some (script, found)) :
    let kept := found.filter fun d => d.message ∉ misplacements
    kept.Pairwise Diagnostic.NotAfter ∧
    (∀ d ∈ kept, ∃ span, d.location = some ⟨file, span⟩ ∧ Landmark text span.start) ∧
    (∀ e ∈ (tokenize text).flatMap Scanned.errors, kept.count (e.diagnostic file) = 1) ∧
    kept.filter (fun d => !d.code.reports) =
      ((tokenize text).flatMap Scanned.errors).map (·.diagnostic file) := by
  intro kept
  obtain ⟨s, ⟨_, _, told, _, faults⟩, ended, rfl⟩ := exists_inOrder read
  rw [ended] at faults
  have same : ((tokenize text).flatMap Scanned.errors).map (·.diagnostic file) =
      kept.filter fun d => !d.code.reports := faults.trans (List.append_nil _)
  refine ⟨told.ordered.imp fun leads p here q there => (leads p here q there).1, fun d mem => ?_,
    fun e wrong => ?_, same.symm⟩
  · obtain ⟨span, place, mark, _⟩ := told.placed d mem
    exact ⟨span, place, mark⟩
  · have fault : (!(e.diagnostic file).code.reports) = true := by
      simp [LexError.diagnostic, Diagnostic.report, e.fault.code_reports]
    rw [← List.count_filter (p := fun d => !d.code.reports) (l := kept) fault]
    refine List.count_eq_one_of_mem told.nodup ?_
    rw [← same]
    exact List.mem_map_of_mem wrong

/-- An import in a block is reported after the fault behind it. Without that report the findings are
in order, and the comment that is never closed is told once. -/
theorem Script.read_reports_in_order_misplaced :
    ∃ script found, Script.read ⟨1⟩ "namespace A \x7b\n import \"x\"; # \x7d\nmodel 1;\n/*" =
      some (script, found) ∧
    found.map (fun d => (d.code, d.place?)) = [(.invalidCharacter, some ⟨2, 14⟩),
      (.unexpectedToken, some ⟨2, 2⟩), (.tokenExpected, some ⟨3, 7⟩),
      (.unterminatedComment, some ⟨4, 1⟩)] ∧
    (found.filter fun d => d.message ∉ misplacements).Pairwise Diagnostic.NotAfter ∧
    (found.filter fun d => d.message ∉ misplacements).count
      (LexError.diagnostic ⟨1⟩ ⟨.unterminatedComment, ⟨4, 1, 2⟩⟩) = 1 := by
  have ran : (Script.read ⟨1⟩ "namespace A \x7b\n import \"x\"; # \x7d\nmodel 1;\n/*").map
        (fun result => result.2.map fun d => (d.code, d.place?)) =
      some [(.invalidCharacter, some ⟨2, 14⟩), (.unexpectedToken, some ⟨2, 2⟩),
        (.tokenExpected, some ⟨3, 7⟩), (.unterminatedComment, some ⟨4, 1⟩)] ∧
      ⟨.unterminatedComment, ⟨4, 1, 2⟩⟩ ∈ (tokenize
        "namespace A \x7b\n import \"x\"; # \x7d\nmodel 1;\n/*").flatMap Scanned.errors := by
    decide +kernel
  obtain ⟨⟨script, found⟩, read, told⟩ := Option.map_eq_some_iff.mp ran.1
  obtain ⟨ordered, _, once, _⟩ := read_reports_in_order read
  exact ⟨script, found, read, told, ordered, once _ ran.2⟩

end Idl
