import Idl.Token.Stream
import Mathlib.Data.List.DropRight
import Mathlib.Data.List.Infix

/-! Cutting a text into tokens loses nothing of it. The text is the lexemes in their
order, with gaps of white space, byte order marks and comments between them. Every
token stands where a count over the whole text before it puts it, although the scanner
only ever moves one place on. What is wrong with the text is told once: for every
token that is refused, for every string that runs out, and for a comment that is
never closed. -/
namespace Idl

/-! ### Places, counted from the start of the text -/

/-- The place after a text, by its newlines and by the bytes after the last of them. -/
def Position.counted (before : List Char) : Position where
  line := 1 + before.count '\n'
  col := 1 + (String.ofList (before.rtakeWhile (· != '\n'))).utf8ByteSize

/-- The span of a lexeme that stands after a text. -/
def Span.counted (before : List Char) (lexeme : String) : Span where
  line := (Position.counted before).line
  col := (Position.counted before).col
  len := lexeme.utf8ByteSize

private theorem bytes_concat (text : List Char) (c : Char) :
    (String.ofList (text ++ [c])).utf8ByteSize =
      (String.ofList text).utf8ByteSize + c.utf8Size := by
  rw [String.ofList_append, String.utf8ByteSize_append, ← String.singleton_eq_ofList,
    String.utf8ByteSize_singleton]

theorem byteLength_eq (text : List Char) : byteLength text = (String.ofList text).utf8ByteSize := by
  induction text using List.reverseRecOn with
  | nil => rfl
  | append_singleton text c ih =>
    have step : byteLength (text ++ [c]) = byteLength text + c.utf8Size := by simp [byteLength]
    rw [step, ih, bytes_concat]

theorem Position.counted_concat (text : List Char) (c : Char) :
    counted (text ++ [c]) = (counted text).next c := by
  by_cases newline : c = '\n'
  · subst newline
    unfold counted
    rw [List.rtakeWhile_concat_neg _ _ _ (by simp)]
    simp [next, Nat.add_assoc]
  · unfold counted
    rw [List.rtakeWhile_concat_pos _ _ _ (by simpa using newline), bytes_concat]
    simp [next, newline, Nat.add_assoc]

theorem Position.start_after (text : List Char) : start.after text = counted text := by
  induction text using List.reverseRecOn with
  | nil => rfl
  | append_singleton text c ih =>
    rw [after_append, ih, counted_concat]
    rfl

theorem Position.counted_after (before text : List Char) :
    (counted before).after text = counted (before ++ text) := by
  rw [← start_after, ← after_append, start_after]

/-! ### What stands between tokens -/

/-- A piece of text that is passed over, in front of the text `next`. -/
inductive Filler : List Char → List Char → Prop where
  | blank {c next} (is : Text.isBlank c = true) : Filler [c] next
  | orderMark {next} : Filler ['\ufeff'] next
  /-- A comment up to the end of its line. -/
  | line {text next} (inside : '\n' ∉ text) (ends : ∀ c ∈ next.head?, c = '\n') :
      Filler ('/' :: '/' :: text) next
  /-- A comment up to its closing mark. -/
  | block {text next} (first : ¬ ['*', '/'] <:+: text ++ ['*']) :
      Filler ('/' :: '*' :: (text ++ ['*', '/'])) next

/-- A text that is passed over in front of `after`. Where it ends with a comment that is never
closed, which leaves nothing after it, it is said what stands before that comment. -/
inductive Gap (after : List Char) : List Char → Option (List Char) → Prop where
  | nil : Gap after [] none
  | cons {piece gap opened} (head : Filler piece (gap ++ after)) (more : Gap after gap opened) :
      Gap after (piece ++ gap) (opened.map (piece ++ ·))
  | unclosed {text} (never : ¬ ['*', '/'] <:+: text) (last : after = []) :
      Gap after ('/' :: '*' :: text) (some [])

/-! ### What is wrong with a token -/

/-- The inside of a string literal: no quote and no newline but after a backslash. -/
inductive Unquoted : List Char → Prop where
  | nil : Unquoted []
  | plain {c text} (plain : c ≠ '\\' ∧ c ≠ '\n' ∧ c ≠ '"') (more : Unquoted text) :
      Unquoted (c :: text)
  | escaped {c text} (more : Unquoted text) : Unquoted ('\\' :: c :: text)

/-- A string literal with its closing quote. -/
def Quoted (lexeme : List Char) : Prop :=
  ∃ text, Unquoted text ∧ lexeme = '"' :: (text ++ ['"'])

/-- A string literal that meets a newline or the end of the text, there also right after a
backslash, before it is closed. -/
def RanOut (lexeme after : List Char) : Prop :=
  ∃ text, Unquoted text ∧
    (lexeme = '"' :: text ∧ (after = [] ∨ after.head? = some '\n') ∨
      lexeme = '"' :: (text ++ ['\\']) ∧ after = [])

theorem Unquoted.not_closed (inside : Unquoted text) : ¬ Unquoted (text ++ ['"']) := by
  induction inside with
  | nil =>
    rintro (_ | ⟨plain, _⟩)
    exact plain.2.2 rfl
  | @plain c text plain _ ih =>
    intro longer
    rw [List.cons_append] at longer
    generalize text ++ ['"'] = whole at longer ih
    cases longer with
    | plain _ more => exact ih more
    | escaped => exact plain.1 rfl
  | escaped _ ih =>
    intro longer
    rw [List.cons_append, List.cons_append] at longer
    cases longer with
    | plain plain => exact plain.1 rfl
    | escaped more => exact ih more

/-- A string literal that is closed did not run out. -/
theorem Quoted.not_ranOut (quoted : Quoted lexeme) : ¬ RanOut lexeme after := by
  obtain ⟨text, inside, rfl⟩ := quoted
  rintro ⟨other, longer, ⟨same, _⟩ | ⟨same, _⟩⟩
  · obtain rfl : text ++ ['"'] = other := by simpa using same
    exact inside.not_closed longer
  · simp at same

/-- The faults of a token in front of the text `after`. -/
inductive Faults (after : List Char) (token : Token) : List LexFault → Prop where
  | character {c} (is : token.kind = .invalid) (only : token.lexeme.toList = [c])
      (other : c.isDigit = false) : Faults after token [.invalidCharacter c]
  | number (is : token.kind = .invalid) (digits : ∃ c ∈ token.lexeme.toList, c.isDigit = true)
      (wrong : Decimal.ofChars? token.lexeme.toList = none) :
      Faults after token [.invalidNumber token.lexeme]
  | ranOut (is : token.kind = .string) (out : RanOut token.lexeme.toList after) :
      Faults after token [.unterminatedString]
  | closed (is : token.kind = .string) (quoted : ¬ RanOut token.lexeme.toList after) :
      Faults after token []
  | other (valid : token.kind ≠ .invalid) (unquoted : token.kind ≠ .string) :
      Faults after token []

/-! ### Pieces of a text -/

/-- A token, with what stands before it and what was found on the way to it and in it. -/
structure Piece where
  gap : List Char
  token : Token
  errors : List LexError

namespace Piece

/-- The text of a piece. -/
def chars (piece : Piece) : List Char := piece.gap ++ piece.token.lexeme.toList

/-- The piece is right between the two parts of the text around it. -/
structure Exact (before after : List Char) (piece : Piece) : Prop where
  empty : piece.token.lexeme = "" ↔ piece.token.kind = .endOfFile
  last : piece.token.kind = .endOfFile → after = []
  span : piece.token.span = .counted (before ++ piece.gap) piece.token.lexeme
  told : ∃ opened faults, Gap (piece.token.lexeme.toList ++ after) piece.gap opened ∧
    Faults after piece.token faults ∧
    piece.errors =
      opened.toList.map (fun inner => ⟨.unterminatedComment, .counted (before ++ inner) "/*"⟩) ++
        faults.map (⟨·, piece.token.span⟩)

end Piece

/-! ### Passing over a gap -/

namespace Lexeme

theorem not_mem_splitWhile (fails : p c = false) (cs : List Char) : c ∉ (splitWhile p cs).1 := by
  induction cs with
  | nil => simp [splitWhile]
  | cons first rest ih =>
    simp only [splitWhile]
    split
    · rename_i passes
      have other : c ≠ first := by
        rintro rfl
        cases passes.symm.trans fails
      simp [other, ih]
    · simp

theorem head?_splitWhile (cs : List Char) : ∀ c ∈ (splitWhile p cs).2.head?, p c = false := by
  induction cs with
  | nil => simp [splitWhile]
  | cons first rest ih =>
    simp only [splitWhile]
    split
    · exact ih
    · rename_i fails
      simpa using fails

/-- A closing mark over the front of a text is there from the start or comes later. -/
private theorem closing_cons (here : ¬ (c = '*' ∧ cs.head? = some '/'))
    (later : ¬ ['*', '/'] <:+: cs) : ¬ ['*', '/'] <:+: c :: cs := by
  rw [List.infix_cons_iff]
  rintro (front | inside)
  · rcases cs with _ | ⟨next, rest⟩
    · simp at front
    · simp only [List.cons_prefix_cons, List.nil_prefix, and_true] at front
      exact here ⟨front.1.symm, by simp [front.2.symm]⟩
  · exact later inside

theorem splitComment_closed (split : splitComment cs = some (taken, rest)) :
    ∃ text, taken = text ++ ['*', '/'] ∧ ¬ ['*', '/'] <:+: text ++ ['*'] := by
  induction cs generalizing taken with
  | nil => simp [splitComment] at split
  | cons c cs ih =>
    simp only [splitComment] at split
    split at split
    · cases split
      exact ⟨[], rfl, by decide⟩
    · rename_i unclosed
      obtain ⟨⟨inner, after⟩, found, same⟩ := Option.map_eq_some_iff.mp split
      cases same
      obtain ⟨text, rfl, first⟩ := ih found
      refine ⟨c :: text, rfl, closing_cons ?_ first⟩
      rintro ⟨rfl, slash⟩
      have whole := splitComment_append found
      rcases text with _ | ⟨next, text⟩
      · simp at slash
      · obtain rfl : next = '/' := by simpa using slash
        exact unclosed _ rfl whole.symm

theorem splitComment_unclosed (split : splitComment cs = none) : ¬ ['*', '/'] <:+: cs := by
  induction cs with
  | nil => decide
  | cons c cs ih =>
    simp only [splitComment] at split
    split at split
    · cases split
    · rename_i unclosed
      refine closing_cons ?_ (ih (Option.map_eq_none_iff.mp split))
      rintro ⟨rfl, slash⟩
      obtain ⟨rest, rfl⟩ := List.head?_eq_some_iff.mp slash
      exact unclosed rest rfl rfl

/-- Trivia that is closed is a piece of a gap; a comment that is not takes all that is left. -/
theorem splitTrivia_spec (split : splitTrivia cs = some trivia) :
    trivia.closed = true ∧ Filler trivia.chars trivia.rest ∨
      trivia.closed = false ∧ trivia.rest = [] ∧
        ∃ text, trivia.chars = '/' :: '*' :: text ∧ ¬ ['*', '/'] <:+: text := by
  revert split
  fun_cases splitTrivia cs with
  | case1 => simp
  | case2 c cs blank =>
    rintro ⟨⟩
    exact .inl ⟨rfl, .blank blank⟩
  | case3 line taken rest split notBlank =>
    rintro ⟨⟩
    have inside := not_mem_splitWhile (p := (· != '\n')) (c := '\n') (by simp) line
    have ends := head?_splitWhile (p := (· != '\n')) line
    rw [split] at inside ends
    exact .inl ⟨rfl, .line inside fun c here => by simpa using ends c here⟩
  | case4 body taken rest split notBlank =>
    rintro ⟨⟩
    obtain ⟨text, rfl, first⟩ := splitComment_closed split
    exact .inl ⟨rfl, .block first⟩
  | case5 body split notBlank =>
    rintro ⟨⟩
    exact .inr ⟨rfl, rfl, body, rfl, splitComment_unclosed split⟩
  | case6 => simp

/-- What may stand first inside a string literal changes nothing about how it ends. -/
private theorem ends_of_leads (front : List Char) {closed : Bool}
    (leads : ∀ text, Unquoted text → Unquoted (front ++ text))
    (ends : if closed then Quoted ('"' :: taken) else RanOut ('"' :: taken) rest) :
    if closed then Quoted ('"' :: (front ++ taken)) else RanOut ('"' :: (front ++ taken)) rest := by
  cases closed with
  | true =>
    obtain ⟨text, inside, same⟩ := ends
    obtain rfl : taken = text ++ ['"'] := by simpa using same
    exact ⟨front ++ text, leads text inside, by simp⟩
  | false =>
    obtain ⟨text, inside, ⟨same, out⟩ | ⟨same, out⟩⟩ := ends
    · obtain rfl : taken = text := by simpa using same
      exact ⟨front ++ taken, leads taken inside, .inl ⟨rfl, out⟩⟩
    · obtain rfl : taken = text ++ ['\\'] := by simpa using same
      exact ⟨front ++ text, leads text inside, .inr ⟨by simp, out⟩⟩

/-- A string literal is closed, or it ran out. -/
theorem splitString_spec (cs : List Char) :
    if (splitString cs).2.2 then Quoted ('"' :: (splitString cs).1)
    else RanOut ('"' :: (splitString cs).1) (splitString cs).2.1 := by
  fun_induction splitString cs with
  | case1 => exact ⟨[], .nil, .inl ⟨rfl, .inl rfl⟩⟩
  | case2 => exact ⟨[], .nil, .inr ⟨rfl, rfl⟩⟩
  | case3 c cs taken rest closed split ih =>
    rw [split] at ih
    exact ends_of_leads ['\\', c] (fun _ => .escaped) ih
  | case4 cs => exact ⟨[], .nil, .inl ⟨rfl, .inr rfl⟩⟩
  | case5 cs => exact ⟨[], .nil, rfl⟩
  | case6 c cs alone paired newline quote taken rest closed split ih =>
    rw [split] at ih
    have plain : c ≠ '\\' := by
      rintro rfl
      rcases cs with _ | ⟨next, cs⟩
      · exact alone rfl rfl
      · exact paired next cs rfl rfl
    exact ends_of_leads [c] (fun _ => .plain ⟨plain, newline, quote⟩) ih

end Lexeme

theorem Gap.lead (is : mark = [] ∨ mark = ['\ufeff']) (more : Gap after gap opened) :
    Gap after (mark ++ gap) (opened.map (mark ++ ·)) := by
  rcases is with rfl | rfl
  · simpa using more
  · exact .cons .orderMark more

namespace Source
variable {s : Source}

theorem skipOrderMark_spec (here : s.position = .counted before) :
    ∃ mark, (mark = [] ∨ mark = ['\ufeff']) ∧ s.rest = mark ++ s.skipOrderMark.rest ∧
      s.skipOrderMark.position = .counted (before ++ mark) := by
  unfold skipOrderMark
  split
  · exact ⟨[], .inl rfl, rfl, by simpa using here⟩
  · rename_i c cs rest
    split
    · rename_i is
      refine ⟨[c], .inr (by rw [is]), rest, ?_⟩
      rw [past, here, Position.counted_after]
    · exact ⟨[], .inl rfl, rfl, by simpa using here⟩

theorem skipTrivia_of_nil (ended : s.rest = []) : s.skipTrivia = ([], s) := by
  have same : s.skipOrderMark = s := by simp [skipOrderMark, ended]
  unfold skipTrivia
  split
  · rw [same]
  · rename_i trivia split
    rw [same, ended] at split
    cases split

/-- What is passed over is a gap, and a comment that is never closed is all that is told of it. -/
theorem skipTrivia_spec (s : Source) : ∀ before, s.position = .counted before →
    ∃ gap opened, s.rest = gap ++ s.skipTrivia.2.rest ∧
      s.skipTrivia.2.position = .counted (before ++ gap) ∧ Gap s.skipTrivia.2.rest gap opened ∧
      s.skipTrivia.1 = opened.toList.map fun inner =>
        ⟨.unterminatedComment, .counted (before ++ inner) "/*"⟩ := by
  fun_induction skipTrivia s with
  | case1 s split =>
    intro before here
    obtain ⟨mark, is, rest, position⟩ := skipOrderMark_spec here
    refine ⟨mark, none, rest, position, ?_, rfl⟩
    simpa using Gap.lead is .nil
  | case2 s trivia split start errors later ih =>
    intro before here
    obtain ⟨mark, is, rest, position⟩ := skipOrderMark_spec here
    rw [← Lexeme.splitTrivia_append split] at rest
    have moved : (s.skipOrderMark.past trivia.chars trivia.rest).position =
        .counted (before ++ mark ++ trivia.chars) := by
      rw [past, position, Position.counted_after]
    rcases Lexeme.splitTrivia_spec split with ⟨closed, filler⟩ | ⟨unclosed, ended, text, chars, never⟩
    · obtain ⟨gap, opened, left, place, between, told⟩ := ih _ moved
      replace left : trivia.rest = gap ++ later.2.rest := left
      refine ⟨mark ++ (trivia.chars ++ gap), (opened.map (trivia.chars ++ ·)).map (mark ++ ·),
        ?_, ?_, ?_, ?_⟩
      · simp [rest, left]
      · simpa using place
      · exact .lead is (.cons (left ▸ filler) between)
      · simp only [errors, closed, later, told]
        cases opened <;> simp
    · have done : later = ([], _) := skipTrivia_of_nil ended
      refine ⟨mark ++ trivia.chars, some mark, ?_, ?_, ?_, ?_⟩
      · simp [rest, done, ended, past]
      · rw [done]
        simpa using moved
      · rw [done, chars]
        simpa [past] using Gap.lead is (.unclosed never ended)
      · simp [errors, unclosed, done, start, position, Span.counted]
        rfl

end Source

/-! ### Taking a token -/

namespace FirstLexeme

theorem splitNumber_digit (starts : startsNumber c cs = true) :
    ∃ d ∈ (Lexeme.splitNumber (c :: cs)).1, d.isDigit = true := by
  by_cases minus : c = '-'
  · obtain ⟨d, rest, rfl, digit⟩ : ∃ d rest, cs = d :: rest ∧ d.isDigit = true := by
      rcases cs with _ | ⟨d, rest⟩
      · simp [startsNumber, minus] at starts
      · exact ⟨d, rest, rfl, by simpa [startsNumber, minus] using starts⟩
    exact ⟨d, by simp [Lexeme.splitNumber, Lexeme.splitOne, Lexeme.splitWhile, minus, digit], digit⟩
  · have digit : c.isDigit = true := by simpa [startsNumber, minus] using starts
    exact ⟨c, by simp [Lexeme.splitNumber, Lexeme.splitOne, Lexeme.splitWhile, minus, digit], digit⟩

/-- The fault that is recorded is the one that the token has. -/
theorem of_faults (c : Char) (cs : List Char) (span : Span) :
    Faults (of c cs).rest ⟨(of c cs).kind, String.ofList (of c cs).chars, span⟩
      (of c cs).fault.toList := by
  unfold of
  split
  · have ends := Lexeme.splitString_spec cs
    simp only [ofString]
    split at ends
    · rename_i closed
      rw [if_pos closed]
      exact .closed rfl (by simpa using ends.not_ranOut)
    · rename_i unclosed
      rw [if_neg unclosed]
      exact .ranOut rfl (by simpa using ends)
  · split
    · rename_i starts
      simp only [ofNumber]
      split
      · exact .other (by simp) (by simp)
      · rename_i wrong
        exact .number rfl (by simpa using splitNumber_digit starts) (by simpa using wrong)
    · rename_i other
      split
      · simp only [ofWord]
        split <;> exact .other (by simp) (by simp)
      · unfold ofMark
        split
        · exact .other (by simp) (by simp)
        · split
          · exact .other (by simp) (by simp)
          · refine .character rfl (by simp) (Bool.eq_false_iff.mpr fun digit => other ?_)
            simp [startsNumber, digit]

end FirstLexeme

namespace Source

/-- The next token with what stands before it is right at its place in the text. -/
theorem scan_exact (s : Source) (here : s.position = .counted before) :
    ∃ piece : Piece, s.scan.1 = ⟨piece.token, piece.errors⟩ ∧ s.rest = piece.chars ++ s.scan.2.rest ∧
      s.scan.2.position = .counted (before ++ piece.chars) ∧ piece.Exact before s.scan.2.rest := by
  obtain ⟨gap, opened, whole, place, between, told⟩ := s.skipTrivia_spec before here
  unfold scan
  generalize s.skipTrivia = skipped at whole place between told
  obtain ⟨errors, next⟩ := skipped
  dsimp only at whole place between told ⊢
  split
  · rename_i ended
    refine ⟨⟨gap, ⟨.endOfFile, "", .point next.position.line next.position.col⟩, errors⟩, rfl, ?_, ?_,
      ?_⟩
    · simpa [Piece.chars] using whole
    · simpa [Piece.chars] using place
    · refine ⟨by simp, fun _ => ended, ?_, opened, [], by simpa using between,
        .other (by simp) (by simp), by simpa using told⟩
      simp [place, Span.counted, Span.point]
  · rename_i c cs rest
    have text := FirstLexeme.append c cs
    have some := FirstLexeme.chars_ne_nil c cs
    have span : Span.of next.position (FirstLexeme.of c cs).chars =
        .counted (before ++ gap) (String.ofList (FirstLexeme.of c cs).chars) := by
      simp [Span.of, place, Span.counted, byteLength_eq]
    refine ⟨⟨gap, ⟨(FirstLexeme.of c cs).kind, String.ofList (FirstLexeme.of c cs).chars, _⟩, _⟩,
      rfl, ?_, ?_, ?_⟩
    · simp [Piece.chars, past, text, whole, rest]
    · simp [Piece.chars, past, place, Position.counted_after]
    · refine ⟨?_, fun last => absurd last (FirstLexeme.of_kind_spec c cs).1, span, opened, _, ?_,
        FirstLexeme.of_faults c cs _, by rw [told]⟩
      · have kind := (FirstLexeme.of_kind_spec c cs).1
        simpa [kind] using some
      · simpa [past, text, rest] using between

/-- The tokens of a text, with what stands between them, are pieces of it, each right at its place. -/
theorem tokens_exact (s : Source) : ∀ before, s.position = .counted before →
    ∃ (pieces : List Piece) (last : Piece),
      s.tokens = (pieces ++ [last]).map (fun piece => ⟨piece.token, piece.errors⟩) ∧
      s.rest = (pieces ++ [last]).flatMap Piece.chars ∧
      last.token.kind = .endOfFile ∧ (∀ piece ∈ pieces, piece.token.kind ≠ .endOfFile) ∧
      ∀ front piece back, pieces ++ [last] = front ++ piece :: back →
        piece.Exact (before ++ front.flatMap Piece.chars) (back.flatMap Piece.chars) := by
  fun_induction tokens s with
  | case1 s ended =>
    intro before here
    obtain ⟨piece, scanned, rest, _, exact⟩ := s.scan_exact here
    have kind : piece.token.kind = .endOfFile := by simpa [scanned] using ended
    have left := exact.last kind
    refine ⟨[], piece, by simp [scanned], by simpa [left] using rest, kind, by simp, ?_⟩
    intro front other back same
    obtain ⟨rfl, rfl, rfl⟩ : front = [] ∧ other = piece ∧ back = [] := by
      rcases front with _ | ⟨first, front⟩
      · simpa using same.symm
      · simp at same
    simpa [left] using exact
  | case2 s more ih =>
    intro before here
    obtain ⟨piece, scanned, rest, next, exact⟩ := s.scan_exact here
    obtain ⟨pieces, last, tokens, later, kind, others, all⟩ := ih _ next
    have differs : piece.token.kind ≠ .endOfFile := by simpa [scanned] using more
    refine ⟨piece :: pieces, last, by simp [scanned, tokens], by simp [rest, later], kind,
      by simpa [differs] using others, ?_⟩
    intro front other back same
    rcases front with _ | ⟨first, front⟩
    · obtain ⟨rfl, rfl⟩ : piece = other ∧ pieces ++ [last] = back := by simpa using same
      simpa [later] using exact
    · obtain ⟨rfl, tail⟩ : piece = first ∧ pieces ++ [last] = front ++ other :: back := by
        simpa using same
      simpa using all front other back tail

end Source

/-! ### Tokens handed out one at a time -/

namespace TokenStream

/-- What so many calls of `next` hand out, one after the other. -/
def nextMany : Nat → TokenStream → List Token × TokenStream
  | 0, s => ([], s)
  | n + 1, s =>
    let (token, s) := s.next
    let (more, s) := nextMany n s
    (token :: more, s)

/-- Where nothing was looked at ahead, the tokens are those of the source. -/
theorem nextMany_tokens (source : Source) : ∀ errors, ∃ final,
    nextMany source.tokens.length { source, errors } =
      (source.tokens.map Scanned.token,
        { source := final, errors := errors ++ source.tokens.flatMap Scanned.errors }) := by
  fun_induction Source.tokens source with
  | case1 source ended =>
    intro errors
    exact ⟨source.scan.2, by simp [nextMany, next, scan]⟩
  | case2 source more ih =>
    intro errors
    obtain ⟨final, same⟩ := ih (errors ++ source.scan.1.errors)
    exact ⟨final, by simp [nextMany, next, scan, same]⟩

/-- Cutting a text into tokens loses nothing, and says where each token stands and what is wrong
with the text. The tokens handed out up to the first end of the file, each with the gap before it,
make up the text, and the faults recorded are those of the pieces in their order. -/
theorem next_lossless (text : String) : ∃ (pieces : List Piece) (last : Piece) (final : Source),
    nextMany (pieces.length + 1) (ofString text) =
      ((pieces ++ [last]).map Piece.token,
        { source := final, errors := (pieces ++ [last]).flatMap Piece.errors }) ∧
    last.token.kind = .endOfFile ∧ (∀ piece ∈ pieces, piece.token.kind ≠ .endOfFile) ∧
    text.toList = (pieces ++ [last]).flatMap Piece.chars ∧
    ∀ before piece after, pieces ++ [last] = before ++ piece :: after →
      piece.Exact (before.flatMap Piece.chars) (after.flatMap Piece.chars) := by
  obtain ⟨pieces, last, tokens, whole, kind, others, exact⟩ :=
    (Source.ofString text).tokens_exact [] rfl
  obtain ⟨final, handed⟩ := nextMany_tokens (Source.ofString text) []
  refine ⟨pieces, last, final, ?_, kind, others, whole, by simpa using exact⟩
  rw [tokens] at handed
  simpa [ofString, Function.comp_def, List.flatMap_map] using handed

end TokenStream

end Idl
