import Idl.Proofs.CompleteScripts

/-! A broken statement costs one report and nothing else. Tokens that start no statement,
up to a semicolon, are reported at the first of them and skipped, and reading goes on as
if they had not been there. So what stands before them and after them, in the file or
in a block of any depth, is read as it would be without them. -/
namespace Idl

namespace Syntax

/-- No statement starts or ends with such a token. A text without faults has no invalid token, and
its end comes last. -/
def isFiller : TokenKind → Bool
  | .endOfFile | .invalid | .mark .semicolon | .mark .openBrace | .mark .closeBrace | .mark .atSign
  | .keyword .kwImport | .keyword .kwUsing | .keyword .kwNamespace | .keyword .kwModel
  | .keyword .kwOp | .keyword .kwInterface => false
  | _ => true

/-- `(IMPORT | ITEM)*`, where imports stand only outside of any block. -/
inductive StatementsText (topLevel : Bool) : List ImportDecl → List Item → List Token → Prop where
  | nil : StatementsText topLevel [] [] []
  | skip {semicolon imports items tokens} (is : semicolon.kind = .mark .semicolon)
      (tail : StatementsText topLevel imports items tokens) :
      StatementsText topLevel imports items (semicolon :: tokens)
  | imports {word path semicolon imports items tokens} (outside : topLevel = true)
      (is : word.kind = .keyword .kwImport) (file : path.kind = .string)
      (ends : semicolon.kind = .mark .semicolon)
      (tail : StatementsText topLevel imports items tokens) :
      StatementsText topLevel (⟨literalText path.lexeme, .nowhere⟩ :: imports) items
        (word :: path :: semicolon :: tokens)
  | cons {item tokens imports items more} (head : ItemText item tokens)
      (tail : StatementsText topLevel imports items more) :
      StatementsText topLevel imports (item :: items) (tokens ++ more)

/-- What may follow up to the end of the file, or of the block. -/
def RestText (topLevel : Bool) (imports : List ImportDecl) (items : List Item)
    (tokens : List Token) : Prop :=
  if topLevel then ScriptText imports items tokens else imports = [] ∧ ItemsText items tokens

/-- A file or the inside of a block, and the imports and items in it, with one broken statement
that starts with this token: here, in a block inside or in a namespace without a block. -/
inductive BrokenText (first : Token) : Bool → List ImportDecl → List Item → List Token → Prop where
  | here {topLevel others list tokens more semicolon imports items rest}
      (before : StatementsText topLevel others list tokens)
      (broken : ∀ token ∈ first :: more, isFiller token.kind = true)
      (ends : semicolon.kind = .mark .semicolon) (after : RestText topLevel imports items rest) :
      BrokenText first topLevel (others ++ imports) (list ++ items)
        (tokens ++ first :: (more ++ semicolon :: rest))
  | inside {topLevel others list tokens decorators above word path named left body inner right imports
      items rest} (before : StatementsText topLevel others list tokens)
      (decorated : DecoratorsText decorators above) (is : word.kind = .keyword .kwNamespace)
      (names : PathText IsIdent path named) (opens : left.kind = .mark .openBrace)
      (block : BrokenText first false [] body inner) (closes : right.kind = .mark .closeBrace)
      (after : RestText topLevel imports items rest) :
      BrokenText first topLevel (others ++ imports)
        (list ++ .space ⟨decorators, path.segments, false, .nowhere⟩ body :: items)
        (tokens ++ (above ++ word :: (named ++ left :: (inner ++ right :: rest))))
  | rest {others list tokens decorators above word path named semicolon imports items more}
      (before : StatementsText true others list tokens) (decorated : DecoratorsText decorators above)
      (is : word.kind = .keyword .kwNamespace) (names : PathText IsIdent path named)
      (ends : semicolon.kind = .mark .semicolon) (inner : BrokenText first true imports items more) :
      BrokenText first true (others ++ imports)
        (list ++ [.space ⟨decorators, path.segments, true, .nowhere⟩ items])
        (tokens ++ (above ++ word :: (named ++ semicolon :: more)))

/-- The report of a token with which no statement starts. -/
def unexpected (file : FileId) (token : Token) : Diagnostic :=
  .report .unexpectedToken s!"Statement expected, found '{token.lexeme}'." (some ⟨file, token.span⟩)

/-- With one more report. -/
def Met.tell (met : Met) (token : Token) : Met :=
  { met with told := met.told ++ [unexpected met.file token] }

theorem Met.tell_append (met : Met) (more : List ImportDecl) (token : Token) :
    (met ++ more).tell token = met.tell token ++ more := rfl

namespace Parser

/-! ### The broken statement -/

theorem decorators_none (faces : s.Faces met (first :: rest)) (other : first.kind ≠ .mark .atSign) :
    decorators (n + 1) s = .done [] s := by
  unfold decorators
  rw [run_current, run_eat, if_neg (by rwa [faces.current])]
  rfl

/-- Where no declaration starts, reading breaks off after a report. -/
theorem item_breaks (topLevel : Bool) (n : Nat) (filler : isFiller first.kind = true)
    (faces : s.Faces met (first :: rest)) :
    ∃ after, item topLevel (n + 2) s = .broken after ∧
      after.Faces (met.tell first) (first :: rest) := by
  have none := decorators_none (n := n) faces (ne_of_starts filler rfl)
  have breaks (space : Parser Item) : declaration space [] first.span (n + 1) s = .broken
      (s.report .unexpectedToken s!"Statement expected, found '{first.lexeme}'." first.span) := by
    unfold declaration
    rw [run_kind, faces.current]
    generalize first.kind = kind at filler ⊢
    split
    iterate 5 cases filler
    rw [run_current, faces.current]
    rfl
  refine ⟨s.report .unexpectedToken s!"Statement expected, found '{first.lexeme}'." first.span, ?_,
    rfl, faces.clean, faces.left, ?_⟩
  · unfold item
    rw [run_current, run_kind, faces.current]
    generalize first.kind = kind at filler ⊢
    split
    iterate 3 cases filler
    rw [run_of_done none, run_of_broken (breaks _)]
  · rw [← faces.met]
    simp [State.report, State.flush, faces.silent, Met.tell, unexpected]

/-- The statement is skipped with its semicolon. -/
theorem skipStatement_gives (broken : ∀ token ∈ tokens, isFiller token.kind = true)
    (ends : semicolon.kind = .mark .semicolon) (enough : tokens.length < n) (skipped : Bool) :
    (skipStatement topLevel n 0 skipped).Gives met met (tokens ++ semicolon :: rest) rest
      fun _ => True := by
  induction tokens generalizing n skipped with
  | nil =>
    obtain ⟨n, rfl⟩ : ∃ m, n = m + 1 := ⟨n - 1, by omega⟩
    unfold skipStatement
    refine .kind ?_
    rw [List.nil_append, nextKind_cons, ends]
    exact .advance (.done trivial)
  | cons token tokens ih =>
    obtain ⟨n, rfl⟩ : ∃ m, n = m + 1 := ⟨n - 1, by omega⟩
    have filler := broken token (List.mem_cons_self ..)
    have onward := ih (fun other member => broken other (List.mem_cons_of_mem _ member))
      (by simpa using enough) true
    unfold skipStatement
    refine .kind ?_
    rw [List.cons_append, nextKind_cons]
    generalize token.kind = kind at filler ⊢
    split
    iterate 11 cases filler
    exact .advance onward

theorem items_broken (broken : ∀ token ∈ first :: more, isFiller token.kind = true)
    (ends : semicolon.kind = .mark .semicolon) (enough : 8 * more.length + 8 + m ≤ n)
    (next : ∀ n, m ≤ n → (items topLevel n).Gives (met.tell first) later rest last fun found =>
      Item.allBare found = list) :
    (items topLevel n).Gives met later (first :: (more ++ semicolon :: rest)) last fun found =>
      Item.allBare found = list := by
  obtain ⟨n, rfl⟩ : ∃ m, n = m + 3 := ⟨n - 3, by omega⟩
  have filler := broken first (List.mem_cons_self ..)
  have closes : first.kind ≠ .mark .closeBrace := ne_of_starts filler rfl
  have ended : first.kind ≠ .endOfFile := ne_of_starts filler rfl
  unfold items
  refine .kind ?_
  rw [nextKind_cons, if_neg (by simp [closes, ended])]
  intro s faces
  obtain ⟨after, breaks, told⟩ := item_breaks topLevel n filler faces
  rw [run_of_done (attempt_of_broken breaks)]
  exact Gives.bind (skipStatement_gives broken ends (by simp; omega) false)
    (fun _ _ => next (n + 2) (by omega)) after told

/-! ### What stands around it -/

/-- Statements are read one after the other, whatever follows. -/
theorem items_before (before : StatementsText topLevel others list tokens)
    (enough : 8 * tokens.length + m ≤ n) (least : 3 ≤ m)
    (next : ∀ n, m ≤ n → (items topLevel n).Gives (met ++ others) later rest last fun found =>
      Item.allBare found = onward) :
    (items topLevel n).Gives met later (tokens ++ rest) last fun found =>
      Item.allBare found = list ++ onward := by
  induction before generalizing n met with
  | nil =>
    rw [Met.append_nil] at next
    exact next n (by simpa using enough)
  | skip is tail ih =>
    simp only [List.length_cons] at enough
    obtain ⟨n, rfl⟩ : ∃ m, n = m + 2 := ⟨n - 2, by omega⟩
    exact items_skip (by simp [GoesOn, is]) (semicolon_gives is) (ih (by omega) next)
  | imports outside is file ends tail ih =>
    subst outside
    simp only [List.length_cons] at enough
    obtain ⟨n, rfl⟩ : ∃ m, n = m + 2 := ⟨n - 2, by omega⟩
    refine items_skip (by simp [GoesOn, is]) (import_gives is file ends) (ih (by omega) ?_)
    simpa using next
  | cons head tail ih =>
    have one := length_pos_of_starts (head.starts []) rfl
    rw [List.append_assoc]
    rw [List.length_append] at enough
    obtain ⟨n, rfl⟩ : ∃ m, n = m + 1 := ⟨n - 1, by omega⟩
    exact items_cons (goesOn_item head _) ((completeItems n).item head (by omega))
      (ih (by omega) next)

/-- The list of items ends here. -/
def Closed (topLevel : Bool) (rest : List Token) : Prop :=
  if topLevel then rest = [] else nextKind rest = .mark .closeBrace

theorem items_after (written : RestText topLevel imports list tokens) (closed : Closed topLevel rest)
    (enough : 8 * tokens.length + 3 ≤ n) : (items topLevel n).Gives met (met ++ imports)
      (tokens ++ rest) rest fun found => Item.allBare found = list := by
  cases topLevel with
  | true =>
    obtain rfl : rest = [] := closed
    rw [List.append_nil]
    exact (completeItems n).script written enough
  | false =>
    obtain ⟨rfl, written⟩ := written
    rw [Met.append_nil]
    exact (completeItems n).block written enough closed

theorem brokenText_gives (written : BrokenText first topLevel imports list tokens)
    (closed : Closed topLevel rest) (enough : 8 * tokens.length + 3 ≤ n) :
    (items topLevel n).Gives met (met.tell first ++ imports) (tokens ++ rest) rest fun found =>
      Item.allBare found = list := by
  induction written generalizing n met rest with
  | @here topLevel others list tokens more semicolon imports items tail before broken ends after =>
    rw [← Met.append_append, ← Met.tell_append]
    simp only [List.length_append, List.length_cons, List.append_assoc, List.cons_append]
      at enough ⊢
    apply items_before (m := 8 * (more.length + tail.length + 2) + 3) before (by omega) (by omega)
    intro n enough
    apply items_broken (m := 8 * tail.length + 3) broken ends (by omega)
    exact fun n enough => items_after after closed enough
  | @inside topLevel others list tokens decorators above word path named left body inner right imports
      items tail before decorated is names opens block closes after ih =>
    rw [← Met.append_append, ← Met.tell_append]
    simp only [List.length_append, List.length_cons, List.append_assoc, List.cons_append]
      at enough ⊢
    apply items_before (m := 8 * (above.length + named.length + inner.length + tail.length + 3) + 3)
      before (by omega) (by omega)
    intro n enough
    obtain ⟨n, rfl⟩ : ∃ m, n = m + 3 := ⟨n - 3, by omega⟩
    refine items_cons (goesOn_declaration decorated (by rw [is]; rfl) _)
      (item_of_space decorated is (by omega) ?_) (items_after after closed (by omega))
    rintro list start rfl
    apply space_of_block is names (by omega) opens closes
    rw [← Met.append_nil (Met.tell ..)]
    exact ih closes (by omega)
  | @rest others list tokens decorators above word path named semicolon imports items more before
      decorated is names ends inner ih =>
    obtain rfl : rest = [] := closed
    rw [← Met.append_append, ← Met.tell_append]
    simp only [List.length_append, List.length_cons, List.append_nil] at enough ⊢
    apply items_before (m := 8 * (above.length + named.length + more.length + 2) + 3)
      before (by omega) (by omega)
    intro n enough
    obtain ⟨n, rfl⟩ : ∃ m, n = m + 3 := ⟨n - 3, by omega⟩
    apply items_rest (goesOn_declaration decorated (by rw [is]; rfl) _)
    apply item_of_space decorated is (by omega)
    rintro list start rfl
    apply space_of_rest is names (by omega) ends
    rw [← List.append_nil more]
    exact ih rfl (by omega)

end Parser

end Syntax

/-- A text without faults of the scanner in which one statement is broken is read as if that
statement were not there, and only its first token is reported. -/
theorem Script.read_broken {imports : List ImportDecl} {items : List Item} (file : FileId)
    (text : String) (clean : ∀ scanned ∈ tokenize text, scanned.errors = [])
    (written : Syntax.BrokenText first true imports items
      ((tokenize text).dropLast.map Scanned.token)) :
    ∃ script, read file text = some (script, [.report .unexpectedToken
        s!"Statement expected, found '{first.lexeme}'." (some ⟨file, first.span⟩)]) ∧
      script.bare = ⟨file, imports, items⟩ := by
  have faces : (Syntax.State.start file (tokenize text)).Faces _ _ := Syntax.State.start_faces clean
  rw [← List.append_nil (((tokenize text).dropLast).map _)] at faces
  obtain ⟨found, state, reply, ended, all⟩ := Syntax.Parser.brokenText_gives
    (n := stepLimit (tokenize text).length) written rfl (by simp [stepLimit]; omega) _ faces
  have met : state.imports.map ImportDecl.bare = imports := congrArg Syntax.Met.imports ended.met
  have told : state.diagnostics = [Syntax.unexpected file first] := congrArg Syntax.Met.told ended.met
  refine ⟨⟨file, state.imports, found⟩, ?_, ?_⟩
  · unfold read readWith
    dsimp only
    rw [reply]
    simp [Syntax.State.flush, ended.silent, told, Syntax.unexpected]
  · simp [Script.bare, all, met]

/-- A broken statement between two others in a block. -/
theorem Script.read_broken_nested : ∃ script,
    read ⟨1⟩ "namespace B \x7b using C; ) 1; using D; \x7d" = some (script,
      [.report .unexpectedToken "Statement expected, found ')'." (some ⟨⟨1⟩, ⟨1, 24, 1⟩⟩)]) ∧
    script.bare = ⟨⟨1⟩, [], [.space ⟨[], [⟨"B", .nowhere⟩], false, .nowhere⟩
      [.using ⟨[⟨"C", .nowhere⟩], .nowhere⟩, .using ⟨[⟨"D", .nowhere⟩], .nowhere⟩]]⟩ := by
  have tokens : (tokenize "namespace B \x7b using C; ) 1; using D; \x7d").dropLast.map
      Scanned.token = [⟨.keyword .kwNamespace, "namespace", ⟨1, 1, 9⟩⟩, ⟨.identifier, "B", ⟨1, 11, 1⟩⟩,
        ⟨.mark .openBrace, "\x7b", ⟨1, 13, 1⟩⟩, ⟨.keyword .kwUsing, "using", ⟨1, 15, 5⟩⟩,
        ⟨.identifier, "C", ⟨1, 21, 1⟩⟩, ⟨.mark .semicolon, ";", ⟨1, 22, 1⟩⟩,
        ⟨.mark .closeParen, ")", ⟨1, 24, 1⟩⟩, ⟨.number, "1", ⟨1, 26, 1⟩⟩,
        ⟨.mark .semicolon, ";", ⟨1, 27, 1⟩⟩, ⟨.keyword .kwUsing, "using", ⟨1, 29, 5⟩⟩,
        ⟨.identifier, "D", ⟨1, 35, 1⟩⟩, ⟨.mark .semicolon, ";", ⟨1, 36, 1⟩⟩,
        ⟨.mark .closeBrace, "\x7d", ⟨1, 38, 1⟩⟩] := by decide +kernel
  have single {text : String} {a b c : Token} (named : b.lexeme = text)
      (kinds : [a.kind, b.kind, c.kind] = [.keyword .kwUsing, .identifier, .mark .semicolon]) :
      Syntax.ItemText (.using ⟨[⟨text, .nowhere⟩], .nowhere⟩) [a, b, c] := by
    simp only [List.cons.injEq, and_true] at kinds
    subst named
    exact .using kinds.1 (.intro kinds.2.1 .nil) kinds.2.2
  have block {text : String} {one two : Item} {a b c d e f g h i j k l m : Token}
      (named : b.lexeme = text)
      (kinds : [a.kind, b.kind, c.kind, i.kind, m.kind] = [.keyword .kwNamespace, .identifier,
        .mark .openBrace, .mark .semicolon, .mark .closeBrace])
      (before : Syntax.ItemText one [d, e, f])
      (broken : ∀ token ∈ [g, h], Syntax.isFiller token.kind = true)
      (after : Syntax.ItemText two [j, k, l]) :
      Syntax.BrokenText g true [] [.space ⟨[], [⟨text, .nowhere⟩], false, .nowhere⟩ [one, two]]
        [a, b, c, d, e, f, g, h, i, j, k, l, m] := by
    simp only [List.cons.injEq, and_true] at kinds
    subst named
    exact .inside .nil .nil kinds.1 (.intro kinds.2.1 .nil) kinds.2.2.1 (.here (.cons before .nil)
      broken kinds.2.2.2.1 ⟨rfl, .cons after .nil⟩) kinds.2.2.2.2 Syntax.ScriptText.nil
  apply @read_broken ⟨.mark .closeParen, ")", ⟨1, 24, 1⟩⟩ _ _ ⟨1⟩ _ (by decide +kernel)
  rw [tokens]
  exact block rfl rfl (single rfl rfl) (by decide) (single rfl rfl)

end Idl
