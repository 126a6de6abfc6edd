import Idl.Token.Lexeme

/-!
Cutting source text into tokens.

Between tokens stands trivia: white space, byte order marks and comments. `Source.skipTrivia`
drops it and `Source.scan` then splits off one token. `Source.scanMany` repeats that a number of
times, `Source.tokens` does it up to and including the end of the file, and `tokenize` for a whole
text. Nothing here fails: faults are recorded beside the token that was being scanned, and
`Source.scan_shorter` says that every token but the last takes some text away.
-/

namespace Idl

/-- What is left of a source text, and where it stands in the whole. -/
structure Source where
  rest : List Char
  position : Position
deriving DecidableEq, Repr

/-- A token with the faults found on the way to it and in it. -/
structure Scanned where
  token : Token
  errors : List LexError
deriving DecidableEq, Repr

namespace Source

def ofString (text : String) : Source := ⟨text.toList, .start⟩

/-- The source after some characters that it starts with, given what follows them. -/
def past (s : Source) (taken rest : List Char) : Source :=
  ⟨rest, s.position.after taken⟩

def skipOrderMark (s : Source) : Source :=
  match s.rest with
  | [] => s
  | c :: cs => if c = '\ufeff' then s.past [c] cs else s

theorem skipOrderMark_length (s : Source) : s.skipOrderMark.rest.length ≤ s.rest.length := by
  unfold skipOrderMark
  split
  · exact Nat.le_refl _
  · split
    · simp_all [past]
    · exact Nat.le_refl _

/-- Drops white space, byte order marks and comments. A block comment that is never closed takes
the rest of the text with it, and is reported at its opening mark. -/
def skipTrivia (s : Source) : List LexError × Source :=
  match split : Lexeme.splitTrivia s.skipOrderMark.rest with
  | none => ([], s.skipOrderMark)
  | some trivia =>
    let start := s.skipOrderMark.position
    let errors := if trivia.closed then [] else [⟨.unterminatedComment, start.line, start.col, 2⟩]
    let later := skipTrivia (s.skipOrderMark.past trivia.chars trivia.rest)
    (errors ++ later.1, later.2)
termination_by s.rest.length
decreasing_by
  have whole := congrArg List.length (Lexeme.splitTrivia_append split)
  have taken := List.length_pos_iff.2 (Lexeme.splitTrivia_chars_ne_nil split)
  have shorter := s.skipOrderMark_length
  simp only [List.length_append] at whole
  simp only [past]
  omega

theorem skipTrivia_length (s : Source) : s.skipTrivia.2.rest.length ≤ s.rest.length := by
  fun_induction skipTrivia s with
  | case1 s split => exact s.skipOrderMark_length
  | case2 s trivia split start errors later ih =>
    have whole := congrArg List.length (Lexeme.splitTrivia_append split)
    have shorter := s.skipOrderMark_length
    simp only [List.length_append] at whole
    have step : later.2.rest.length ≤ trivia.rest.length := ih
    show later.2.rest.length ≤ s.rest.length
    omega

def scan (s : Source) : Scanned × Source :=
  let (errors, s) := s.skipTrivia
  match s.rest with
  | [] => (⟨⟨.endOfFile, "", .point s.position.line s.position.col⟩, errors⟩, s)
  | c :: cs =>
    let first := FirstLexeme.of c cs
    let span := Span.of s.position first.chars
    let faults := first.fault.toList.map (⟨·, span⟩)
    (⟨⟨first.kind, String.ofList first.chars, span⟩, errors ++ faults⟩,
      s.past first.chars first.rest)

theorem scan_shorter {s : Source} (more : s.scan.1.token.kind ≠ .endOfFile) :
    s.scan.2.rest.length < s.rest.length := by
  have shorter := s.skipTrivia_length
  revert more
  unfold scan
  split
  next errors t skipped =>
    rw [skipped] at shorter
    split
    · simp
    · next c cs rest =>
      intro _
      have whole := congrArg List.length (FirstLexeme.append c cs)
      have taken := List.length_pos_iff.2 (FirstLexeme.chars_ne_nil c cs)
      simp only [List.length_append] at whole
      simp only [past]
      rw [rest] at shorter
      omega

/-- The next `n` tokens, and the source after them. There are fewer if the file ends before: the
end of the file is then the last of them, and scanning on from there gives it again. -/
def scanMany : Nat → Source → List Scanned × Source
  | 0, s => ([], s)
  | n + 1, s =>
    let (scanned, s) := s.scan
    if scanned.token.kind = .endOfFile then ([scanned], s)
    else
      let (later, s) := scanMany n s
      (scanned :: later, s)

def tokens (s : Source) : List Scanned :=
  if _last : s.scan.1.token.kind = .endOfFile then [s.scan.1]
  else s.scan.1 :: tokens s.scan.2
termination_by s.rest.length
decreasing_by exact scan_shorter ‹_›

end Source

def tokenize (text : String) : List Scanned := (Source.ofString text).tokens

end Idl
