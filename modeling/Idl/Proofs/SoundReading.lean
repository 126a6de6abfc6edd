import Idl.Proofs.Grammar
import Mathlib.Logic.Relation

/-! What reading makes of the state, one step at a time, and where it finds nothing
wrong. Every way in which reading breaks off leaves a finding behind, also the silent
ones: a token that the scanner refused has a fault of its own, and the end of the
file is passed over in silence only after it has been reported once. So in a state
with nothing found so far, every token that was taken belongs to a production. -/
namespace Idl.Syntax

/-! Readers step by step. -/

namespace Parser
variable {p : Parser α}

theorem run_current (f : Token → Parser β) : (current >>= f) s = f s.current s := rfl

theorem run_kind (f : TokenKind → Parser β) : (kind >>= f) s = f s.current.kind s := rfl

theorem run_advance (f : Token → Parser β) : (advance >>= f) s = f s.current s.advance := rfl

theorem run_check (kind : TokenKind) (f : Bool → Parser β) :
    (check kind >>= f) s = f (s.current.kind == kind) s := rfl

theorem run_update (change : State → State) (f : Unit → Parser β) :
    (update change >>= f) s = f () (change s) := rfl

theorem run_spanFrom (first : Span) (f : Span → Parser β) :
    (spanFrom first >>= f) s = f (s.spanFrom first) s := rfl

theorem run_report (code : Code) (message : String) (span : Span) (f : Unit → Parser β) :
    (report code message span >>= f) s = f () (s.report code message span) := rfl

theorem run_eat (kind : TokenKind) (f : Bool → Parser β) :
    (eat kind >>= f) s = if s.current.kind = kind then f true s.advance else f false s := by
  show Parser.bind (eat kind) f s = _
  by_cases is : s.current.kind = kind
  · simp [Parser.bind, eat, is]
  · simp [Parser.bind, eat, is]

theorem run_expect (kind : TokenKind) (f : Token → Parser β) :
    (expect kind >>= f) s =
      if s.current.kind = kind then f s.current s.advance
      else .broken (s.expected kind.describe) := by
  show Parser.bind (expect kind) f s = _
  by_cases is : s.current.kind = kind
  · simp [Parser.bind, expect, is]
  · simp [Parser.bind, expect, is]

theorem run_of_done (ran : p s = .done value t) : (p >>= f) s = f value t := by
  show Parser.bind p f s = _
  rw [Parser.bind, ran]

theorem run_of_broken (ran : p s = .broken t) : (p >>= f) s = .broken t := by
  show Parser.bind p f s = _
  rw [Parser.bind, ran]

theorem run_of_exhausted (ran : p s = .exhausted t) : (p >>= f) s = .exhausted t := by
  show Parser.bind p f s = _
  rw [Parser.bind, ran]

theorem attempt_of_done (ran : p s = .done value t) : attempt p s = .done (some value) t := by
  rw [attempt, ran]

theorem attempt_of_broken (ran : p s = .broken t) : attempt p s = .done none t := by
  rw [attempt, ran]

theorem attempt_of_exhausted (ran : p s = .exhausted t) : attempt p s = .exhausted t := by
  rw [attempt, ran]

end Parser

/-- Tokens that end with the end of the file, which stands nowhere else among them. -/
def Terminated : List Scanned → Prop
  | [] => False
  | [last] => last.token.kind = .endOfFile
  | first :: second :: rest => first.token.kind ≠ .endOfFile ∧ Terminated (second :: rest)

/-- A token of some kind stands in a text. -/
def Occurs (source : List Scanned) (kind : TokenKind) : Prop :=
  ∃ scanned ∈ source, scanned.token.kind = kind

/-- The reports of what stands where it may not stand. -/
def misplacements : List String :=
  ["Imports are only allowed at the top level of a file.",
    "Blockless namespaces are only allowed at the top level of a file."]

namespace State

/-- One step of a reader. Parameters are read only behind a parenthesis. -/
inductive Move (source : List Scanned) : State → State → Prop where
  | advance {s : State} (more : s.current.kind ≠ .endOfFile) : Move source s s.advance
  | startRound {s : State} {close : Mark}
      (opened : close = .closeBrace ∨ Occurs source (.mark .openParen)) :
      Move source s (s.startRound close)
  | imported {s : State} (decl : ImportDecl) :
      Move source s { s with imports := s.imports ++ [decl] }
  /-- The current token is reported. -/
  | report {s : State} {code : Code} {message : String}
      (stands : code = .tokenExpected ∨ code = .unexpectedToken ∨
        s.current.kind = .number ∧ Decimal.ofChars? s.current.lexeme.toList = none) :
      Move source s (s.report code message s.current.span)
  | ended {s : State} {message : String} : Move source s
      ({ s with endReported := true }.report .tokenExpected message s.current.span)
  | misplaced {s : State} {message : String} {span : Span} (is : message ∈ misplacements) :
      Move source s (s.report .unexpectedToken message span)

/-- Reading from one state came to another. -/
def Reaches (source : List Scanned) (s t : State) : Prop :=
  Relation.ReflTransGen (Move source) s t

/-- Nothing wrong has been found up to the current token. -/
def Silent (s : State) : Prop := s.diagnostics = [] ∧ s.pending = []

/-- A state that reading can come to. -/
structure Proper (s : State) : Prop where
  terminated : Terminated s.upcoming
  refused : ∀ scanned ∈ s.upcoming, scanned.token.kind = .invalid → scanned.errors ≠ []
  heard : s.Silent → ∀ scanned ∈ s.upcoming.head?, scanned.errors = []
  ended : s.endReported = true → ¬ s.Silent

/-- Some tokens without faults were taken, and some imports were met. -/
structure Passes (s after : State) (tokens : List Token) (imports : List ImportDecl) : Prop where
  silent : s.Silent
  taken : ∃ scanned, s.upcoming = scanned ++ after.upcoming ∧ scanned.map Scanned.token = tokens ∧
    ∀ one ∈ scanned, one.errors = []
  met : after.imports.map ImportDecl.bare = s.imports.map ImportDecl.bare ++ imports

variable {s : State}

/-- What follows a token other than the end of the file. -/
theorem advance_eq (terminated : Terminated s.upcoming) (more : s.current.kind ≠ .endOfFile) :
    ∃ first second rest, s.upcoming = first :: second :: rest ∧ Terminated (second :: rest) ∧
      s.advance = { s with
        upcoming := second :: rest
        previous := first.token.span
        pending := s.pending ++ second.errors } := by
  unfold current at more
  rcases coming : s.upcoming with _ | ⟨first, _ | ⟨second, rest⟩⟩
  · rw [coming] at terminated
    cases terminated
  · rw [coming] at terminated more
    exact absurd terminated more
  · rw [coming] at terminated
    exact ⟨first, second, rest, rfl, terminated.2, by rw [advance, coming]⟩

/-- What should have stood here is reported, now or already. -/
theorem Reaches.expected (s : State) (what : String) : s.Reaches source (s.expected what) := by
  unfold State.expected
  split
  · exact .refl
  · split
    · exact .refl
    · exact .single .ended
  · exact .single (.report (.inl rfl))

theorem Passes.trans {imports : List ImportDecl} (one : s.Passes after tokens imports)
    (two : after.Passes last more others) : s.Passes last (tokens ++ more) (imports ++ others) := by
  obtain ⟨first, begun, same, clean⟩ := one.taken
  obtain ⟨second, ended, also, clear⟩ := two.taken
  refine ⟨one.silent, ⟨first ++ second, by rw [begun, ended, List.append_assoc],
    by rw [List.map_append, same, also], ?_⟩, by rw [two.met, one.met, List.append_assoc]⟩
  exact List.forall_mem_append.mpr ⟨clean, clear⟩

theorem Proper.current_invalid (proper : s.Proper) (invalid : s.current.kind = .invalid) :
    ¬ s.Silent := by
  intro silent
  unfold current at invalid
  split at invalid
  · rename_i scanned rest coming
    have wrong := proper.refused scanned (by simp [coming]) invalid
    exact wrong (proper.heard silent scanned (by simp [coming]))
  · cases invalid

theorem not_silent_report : ¬ (s.report code message span).Silent := by
  simp [Silent, report]

/-- What should have stood here is reported, now or already. -/
theorem Proper.expected (proper : s.Proper) (what : String) : ¬ (s.expected what).Silent := by
  unfold State.expected
  split
  · rename_i invalid
    exact proper.current_invalid invalid
  · split
    · rename_i reported
      exact proper.ended reported
    · exact not_silent_report
  · exact not_silent_report

theorem silent_of_advance (terminated : Terminated s.upcoming) (more : s.current.kind ≠ .endOfFile)
    (silent : s.advance.Silent) :
    s.Silent ∧ ∀ scanned ∈ s.advance.upcoming.head?, scanned.errors = [] := by
  obtain ⟨first, second, rest, _, _, moved⟩ := advance_eq terminated more
  rw [moved] at silent ⊢
  obtain ⟨found, held⟩ := silent
  obtain ⟨held, clean⟩ := List.append_eq_nil_iff.mp held
  exact ⟨⟨found, held⟩, by simpa using clean⟩

theorem Move.proper (move : Move source s t) (proper : s.Proper) : t.Proper := by
  cases move with
  | advance more =>
    have quiet := silent_of_advance proper.terminated more
    obtain ⟨first, second, rest, coming, terminated, moved⟩ := advance_eq proper.terminated more
    refine ⟨by rw [moved]; exact terminated, ?_, fun silent => (quiet silent).2, ?_⟩
    · intro scanned member
      rw [moved] at member
      exact proper.refused scanned (by rw [coming]; exact List.mem_cons_of_mem _ member)
    · intro reported silent
      rw [moved] at reported
      exact proper.ended reported (quiet silent).1
  | startRound | imported => exact ⟨proper.terminated, proper.refused, proper.heard, proper.ended⟩
  | report | misplaced | ended =>
    exact ⟨proper.terminated, proper.refused, fun silent => absurd silent not_silent_report,
      fun _ => not_silent_report⟩

theorem Reaches.proper (reaches : s.Reaches source t) (proper : s.Proper) : t.Proper := by
  induction reaches with
  | refl => exact proper
  | tail _ move ih => exact move.proper ih

/-- Taking a token other than the end of the file. -/
theorem Proper.advance (proper : s.Proper) (more : s.current.kind ≠ .endOfFile)
    (silent : s.advance.Silent) : s.Passes s.advance [s.current] [] := by
  have quiet := (silent_of_advance proper.terminated more silent).1
  obtain ⟨first, second, rest, coming, _, moved⟩ := advance_eq proper.terminated more
  refine ⟨quiet, ⟨[first], by rw [coming, moved]; rfl, by simp [current, coming], ?_⟩, by simp [moved]⟩
  intro one member
  rw [List.mem_singleton.mp member]
  exact proper.heard quiet first (by simp [coming])

end State

/-- What a reader may have read between two states: its value, the imports and the tokens. -/
abbrev Text (α : Type) := State → α → State → List ImportDecl → List Token → Prop

/-- A text that holds no imports. -/
def Plainly {α : Type} (text : α → List Token → Prop) : Text α :=
  fun _ value _ imports tokens => imports = [] ∧ text value tokens

/-- Any text at all. -/
def AnyText {α : Type} : Text α := fun _ _ _ _ _ => True

/-- How reading from a state may end. What was taken without a finding is a text of the value, and
where reading broke off something was found. -/
def Reply.Ends {α : Type} (reply : Reply α) (s : State)
    (text : α → State → List ImportDecl → List Token → Prop) : Prop :=
  match reply with
  | .done value after =>
    after.Silent → ∃ tokens imports, s.Passes after tokens imports ∧ text value after imports tokens
  | .broken after => ¬ after.Silent
  | .exhausted _ => True

namespace Reply.Ends
variable {reply : Reply α}

theorem done (empty : text value s [] []) : (Reply.done value s).Ends s text :=
  fun silent => ⟨[], [], ⟨silent, ⟨[], rfl, rfl, by simp⟩, by simp⟩, empty⟩

theorem weaken (ends : reply.Ends s other) (follows : ∀ value after imports tokens,
    other value after imports tokens → text value after imports tokens) : reply.Ends s text := by
  cases reply with
  | done value after =>
    intro silent
    obtain ⟨tokens, imports, passes, is⟩ := ends silent
    exact ⟨tokens, imports, passes, follows _ _ _ _ is⟩
  | broken after => exact ends
  | exhausted => trivial

/-- After a finding anything may follow. -/
theorem of_loud (loud : ¬ s.Silent) (ends : reply.Ends s other) : reply.Ends first text := by
  cases reply with
  | done value after =>
    intro silent
    obtain ⟨_, _, passes, _⟩ := ends silent
    exact absurd passes.silent loud
  | broken after => exact ends
  | exhausted => trivial

/-- The rest of reading, after some tokens. -/
theorem after (passes : s.Silent → first.Passes s tokens imports)
    (rest : reply.Ends s fun value last others more =>
      text value last (imports ++ others) (tokens ++ more)) : reply.Ends first text := by
  cases reply with
  | done value after =>
    intro silent
    obtain ⟨more, others, further, is⟩ := rest silent
    exact ⟨_, _, (passes further.silent).trans further, is⟩
  | broken after => exact rest
  | exhausted => trivial

variable {p : Parser α} {text : β → State → List ImportDecl → List Token → Prop}
  (begun : (p s).Ends s other)
include begun

/-- Two readers in a row. -/
theorem bind (rest : ∀ value after, p s = .done value after →
      (f value after).Ends after fun result last others more => ∀ imports tokens,
        other value after imports tokens → text result last (imports ++ others) (tokens ++ more)) :
    ((p >>= f) s).Ends s text := by
  show (Parser.bind p f s).Ends s text
  unfold Parser.bind
  cases reply : p s with
  | done value middle =>
    rw [reply] at begun
    have ends := rest value middle reply
    by_cases quiet : middle.Silent
    · obtain ⟨tokens, imports, passes, is⟩ := begun quiet
      exact after (fun _ => passes) (ends.weaken fun _ _ _ _ held => held _ _ is)
    · exact of_loud quiet ends
  | broken middle =>
    rw [reply] at begun
    exact begun
  | exhausted => trivial

/-- A reader whose breaking off is caught. -/
theorem attempt (kept : ∀ value after, p s = .done value after →
      (f (some value) after).Ends after fun result last others more => ∀ imports tokens,
        other value after imports tokens → text result last (imports ++ others) (tokens ++ more))
    (lost : ∀ after, p s = .broken after → (f none after).Ends after fun _ _ _ _ => True) :
    ((Parser.attempt p >>= f) s).Ends s text := by
  show (Parser.bind (Parser.attempt p) f s).Ends s text
  have whole := bind begun kept
  unfold Parser.bind Parser.attempt
  change (Parser.bind p (fun value => f (some value)) s).Ends s text at whole
  unfold Parser.bind at whole
  cases reply : p s with
  | done value middle =>
    rw [reply] at whole
    exact whole
  | broken middle =>
    rw [reply] at begun
    exact of_loud begun (lost middle reply)
  | exhausted => trivial

end Reply.Ends

end Idl.Syntax
