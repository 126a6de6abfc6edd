import Idl.Proofs.SoundReading
import Idl.Token.Stream

/-! A string literal can stand for any text. A text is written with a backslash before
every backslash and every quote and with `\n` for a newline. Two readers have to agree on
that: the scanner, which looks for the closing quote, and `literalText`, which drops the
quotes and undoes the escapes. What is written like this is one token, whatever follows it,
and is read back as the text wherever a literal may stand. -/
namespace Idl

namespace Syntax

/-- How a character is written inside a string literal. -/
def escapeChar (c : Char) : List Char :=
  if c = '\\' then ['\\', '\\']
  else if c = '"' then ['\\', '"']
  else if c = '\n' then ['\\', 'n']
  else [c]

/-- How a text is written inside a string literal. -/
def escape (text : List Char) : List Char := text.flatMap escapeChar

/-- The string literal that is written for a text. -/
def quote (text : String) : String := String.ofList ('"' :: (escape text.toList ++ ['"']))

/-- A character is escaped by a backslash and one more character, or it stands for itself. -/
theorem escapeChar_cases (c : Char) : (∃ d, escapeChar c = ['\\', d] ∧ unescape ['\\', d] = [c]) ∨
      escapeChar c = [c] ∧ c ≠ '\\' ∧ c ≠ '"' ∧ c ≠ '\n' := by
  unfold escapeChar
  by_cases backslash : c = '\\'
  · exact .inl ⟨'\\', by simp [backslash], by rw [backslash]; decide⟩
  · by_cases mark : c = '"'
    · exact .inl ⟨'"', by simp [mark], by rw [mark]; decide⟩
    · by_cases newline : c = '\n'
      · exact .inl ⟨'n', by simp [newline], by rw [newline]; decide⟩
      · exact .inr ⟨by simp [backslash, mark, newline], backslash, mark, newline⟩

theorem escape_cons (c : Char) (text : List Char) :
    escape (c :: text) = escapeChar c ++ escape text := rfl

theorem unescape_cons_of_ne (plain : c ≠ '\\') (text : List Char) :
    unescape (c :: text) = c :: unescape text := by
  rw [unescape.eq_def]
  split <;> simp_all

theorem unescape_escape (text : List Char) : unescape (escape text) = text := by
  induction text with
  | nil => rfl
  | cons c text ih =>
    rw [escape_cons]
    rcases escapeChar_cases c with ⟨d, escaped, stands⟩ | ⟨plain, notBackslash, _⟩
    · have head : unescape ('\\' :: d :: escape text) = c :: unescape (escape text) := by
        simpa [unescape] using stands
      rw [escaped, List.cons_append, List.cons_append, List.nil_append, head, ih]
    · rw [plain, List.cons_append, List.nil_append, unescape_cons_of_ne notBackslash, ih]

/-- The quotes are dropped and the escapes undone. -/
theorem literalText_quote (text : String) : literalText (quote text) = text := by
  have inner : dropClosingQuote (escape text.toList ++ ['"']) = escape text.toList := by
    simp [dropClosingQuote]
  simp [literalText, quote, dropOpeningQuote, inner, unescape_escape]

end Syntax

/-! ### Scanning -/

namespace Lexeme
open Syntax

theorem splitString_plain (plain : c ≠ '\\') (line : c ≠ '\n') (mark : c ≠ '"') (text : List Char) :
    splitString (c :: text) =
      (c :: (splitString text).1, (splitString text).2.1, (splitString text).2.2) := by
  rw [splitString.eq_def]
  split <;> simp_all

/-- The closing quote of a text that is written with escapes is the one behind it. -/
theorem splitString_escape (text rest : List Char) :
    splitString (escape text ++ '"' :: rest) = (escape text ++ ['"'], rest, true) := by
  induction text with
  | nil => rfl
  | cons c text ih =>
    rw [escape_cons]
    rcases escapeChar_cases c with ⟨d, escaped, _⟩ | ⟨same, plain, mark, line⟩
    · simp [escaped, splitString, ih]
    · simp [same, splitString_plain plain line mark, ih]

end Lexeme

namespace Source

/-- A string literal is no trivia. -/
theorem skipTrivia_of_quote {s : Source} (rest : s.rest = '"' :: cs) : s.skipTrivia = ([], s) := by
  have same : s.skipOrderMark = s := by simp [skipOrderMark, rest]
  unfold skipTrivia
  split
  · rw [same]
  · rename_i trivia split
    rw [same, rest] at split
    cases split

/-- A written text is one token without a fault, whatever follows. -/
theorem scan_quote (text : String) (rest : List Char) (position : Position) :
    (Source.mk ((Syntax.quote text).toList ++ rest) position).scan =
      (⟨⟨.string, Syntax.quote text, .of position (Syntax.quote text).toList⟩, []⟩,
        ⟨rest, position.after (Syntax.quote text).toList⟩) := by
  have whole : (Syntax.quote text).toList ++ rest =
      '"' :: (Syntax.escape text.toList ++ '"' :: rest) := by simp [Syntax.quote]
  rw [whole]
  unfold scan
  rw [skipTrivia_of_quote rfl]
  simp [FirstLexeme.of, FirstLexeme.ofString, Lexeme.splitString_escape, Syntax.quote, past]

end Source

namespace Syntax

namespace Parser

section
variable {s : State} (is : s.current.kind = .string) (written : s.current.lexeme = quote text)
include is written

/-- What is written for a text is read back as the text wherever a literal may stand. -/
theorem propertyName_quote :
    propertyName s = .done ⟨text, s.current.span⟩ s.advance := by
  unfold propertyName
  rw [run_check, if_pos (by simp [is]), run_advance, written, literalText_quote]
  rfl

theorem decoratorArg_quote (n : Nat) :
    decoratorArg (n + 1) s = .done (.literal (.string text) s.current.span) s.advance := by
  unfold decoratorArg
  rw [run_current, is]
  dsimp only
  rw [run_advance, written, literalText_quote]
  rfl

end

theorem importDecl_quote (file : s.advance.current.kind = .string)
    (written : s.advance.current.lexeme = quote text)
    (ends : s.advance.advance.current.kind = .mark .semicolon) :
    importDecl true s = .done () { s.advance.advance.advance with
      imports := s.advance.imports ++ [⟨text, s.advance.advance.advance.spanFrom s.current.span⟩] } := by
  have kept (s : State) : s.advance.imports = s.imports := by
    unfold State.advance
    split <;> rfl
  unfold importDecl
  rw [run_current, run_advance, run_expect, if_pos file, run_expect, if_pos ends, run_spanFrom, written,
    literalText_quote]
  simp [update, kept]

end Parser

/-- What is written for a text is one token without a fault at any place and whatever follows, it
stands for the text, and the text is what a property, an argument of a decorator and an import get
whose reader comes to such a token. -/
theorem quote_reads_back (text : String) : (∀ (rest : List Char) (position : Position),
      (Source.mk ((quote text).toList ++ rest) position).scan =
        (⟨⟨.string, quote text, .of position (quote text).toList⟩, []⟩,
          ⟨rest, position.after (quote text).toList⟩)) ∧
    (∀ rest, (TokenStream.ofString (quote text ++ rest)).next.1.kind = .string ∧
      (TokenStream.ofString (quote text ++ rest)).next.1.lexeme = quote text ∧
      (TokenStream.ofString (quote text ++ rest)).next.2.errors = []) ∧
    literalText (quote text) = text ∧
    ∀ s : State, s.current.kind = .string → s.current.lexeme = quote text →
      Parser.propertyName s = .done ⟨text, s.current.span⟩ s.advance ∧
      (∀ n, Parser.decoratorArg (n + 1) s =
        .done (.literal (.string text) s.current.span) s.advance) ∧
      ∀ before : State, before.advance = s → s.advance.current.kind = .mark .semicolon →
        Parser.importDecl true before = .done () { s.advance.advance with
          imports := s.imports ++ [⟨text, s.advance.advance.spanFrom before.current.span⟩] } := by
  refine ⟨Source.scan_quote text, fun rest => ?_, literalText_quote text, fun s is written => ?_⟩
  · have first := Source.scan_quote text rest.toList .start
    simp only [TokenStream.ofString, TokenStream.next, TokenStream.scan, Source.ofString,
      String.toList_append, first]
    simp
  · refine ⟨Parser.propertyName_quote is written, Parser.decoratorArg_quote is written, ?_⟩
    rintro before rfl ends
    exact Parser.importDecl_quote is written ends

/-- A backslash, a quote and a newline, in front of another literal. -/
theorem quote_reads_back_escaped :
    let s := State.start .library (tokenize "\"\\\\\\\"\\n\"\"x\"")
    s.current.lexeme = quote "\\\"\n" ∧
      Parser.propertyName s = .done ⟨"\\\"\n", s.current.span⟩ s.advance := by
  have stands : let s := State.start .library (tokenize "\"\\\\\\\"\\n\"\"x\"")
      s.current.kind = .string ∧ s.current.lexeme = quote "\\\"\n" := by decide +kernel
  exact ⟨stands.2, ((quote_reads_back _).2.2.2 _ stands.1 stands.2).1⟩

end Syntax

end Idl
