import Idl.Syntax
import Idl.Token.Source

/-!
The state of reading declarations from tokens, and the steps on it.

A `Parser` works on the tokens that are left. It finishes with a value, or breaks off after it has
reported what is wrong, or uses up the steps that it was allowed. Breaking off keeps the state, so
that its caller can skip to a place from which reading goes on.

Faults of the scanner are held back until the next report or the end of the file, so that reports
come in the order of the text.
-/

namespace Idl

namespace Syntax

structure State where
  file : FileId
  /-- What is left. The first token is the current one; the last is the end of the file. -/
  upcoming : List Scanned
  /-- The span of the token before the current one. -/
  previous : Span
  /-- Faults of the tokens up to the current one that are not reported yet. -/
  pending : List LexError
  imports : List ImportDecl
  diagnostics : List Diagnostic
  /-- Whether the end of the file has been reported as unexpected. -/
  endReported : Bool
  /-- The rounds of reading members that were started, latest first: the mark that closes the list,
  and what stood there. Nothing reads them. -/
  rounds : List (Mark × TokenKind)

namespace State

def start (file : FileId) (tokens : List Scanned) : State where
  file
  upcoming := tokens
  previous := .point 1 1
  pending := (tokens.head?.map Scanned.errors).getD []
  imports := []
  diagnostics := []
  endReported := false
  rounds := []

def current (s : State) : Token :=
  match s.upcoming with
  | scanned :: _ => scanned.token
  | [] => ⟨.endOfFile, "", .point 1 1⟩

/-- Moves to the next token. There is none after the end of the file. -/
def advance (s : State) : State :=
  match s.upcoming with
  | scanned :: next :: rest =>
    { s with
      upcoming := next :: rest
      previous := scanned.token.span
      pending := s.pending ++ next.errors }
  | _ => { s with previous := s.current.span }

/-- Reports the faults of the scanner that are held back. -/
def flush (s : State) : State :=
  { s with
    diagnostics := s.diagnostics ++ s.pending.map (·.diagnostic s.file)
    pending := [] }

def report (s : State) (code : Code) (message : String) (span : Span) : State :=
  let s := s.flush
  { s with diagnostics := s.diagnostics ++ [.report code message (some ⟨s.file, span⟩)] }

/-- Reports that something else was expected than the current token. A token that the scanner
refused is not reported again, and the end of the file only once. -/
def expected (s : State) (what : String) : State :=
  match s.current.kind with
  | .invalid => s
  | .endOfFile =>
    if s.endReported then s
    else
      { s with endReported := true }.report .tokenExpected
        s!"{what} expected, found end of file." s.current.span
  | _ => s.report .tokenExpected s!"{what} expected, found '{s.current.lexeme}'." s.current.span

/-- Notes that a round of reading members starts here. -/
def startRound (s : State) (close : Mark) : State :=
  { s with rounds := (close, s.current.kind) :: s.rounds }

def spanFrom (s : State) (first : Span) : Span := first.merge s.previous

end State

inductive Reply (α : Type) where
  | done (value : α) (state : State)
  | broken (state : State)
  /-- The number of steps allowed was too small; this is where they ran out. -/
  | exhausted (state : State)

def Parser (α : Type) : Type := State → Reply α

namespace Parser

def pure {α : Type} (value : α) : Parser α := fun s => .done value s

def bind {α β : Type} (p : Parser α) (f : α → Parser β) : Parser β := fun s =>
  match p s with
  | .done value s => f value s
  | .broken s => .broken s
  | .exhausted s => .exhausted s

instance : Monad Parser where
  pure := Parser.pure
  bind := Parser.bind

def giveUp {α : Type} : Parser α := fun s => .broken s

def exhausted {α : Type} : Parser α := fun s => .exhausted s

/-- Reads, and says `none` where reading broke off. -/
def attempt {α : Type} (p : Parser α) : Parser (Option α) := fun s =>
  match p s with
  | .done value s => .done (some value) s
  | .broken s => .done none s
  | .exhausted s => .exhausted s

def update (f : State → State) : Parser Unit := fun s => .done () (f s)

def current : Parser Token := fun s => .done s.current s

def kind : Parser TokenKind := fun s => .done s.current.kind s

def advance : Parser Token := fun s => .done s.current s.advance

def check (kind : TokenKind) : Parser Bool := fun s => .done (s.current.kind == kind) s

/-- Takes the current token if it is of the given kind. -/
def eat (kind : TokenKind) : Parser Bool := fun s =>
  if s.current.kind = kind then .done true s.advance else .done false s

/-- Reports what should stand here, and gives up. -/
def expected {α : Type} (what : String) : Parser α := fun s => .broken (s.expected what)

/-- Takes a token of the given kind, which must stand here. -/
def expect (kind : TokenKind) : Parser Token := fun s =>
  if s.current.kind = kind then .done s.current s.advance
  else .broken (s.expected kind.describe)

def report (code : Code) (message : String) (span : Span) : Parser Unit :=
  update (·.report code message span)

def spanFrom (first : Span) : Parser Span := fun s => .done (s.spanFrom first) s

end Parser

end Syntax

end Idl
