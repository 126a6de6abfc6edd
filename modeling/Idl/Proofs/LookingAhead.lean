import Idl.Proofs.LosslessTokens

/-! Looking ahead changes nothing of what is read. However calls that take a token,
look ahead and take the faults follow each other, the tokens handed out are those of a
stream that is only ever asked for the next token, what is seen ahead is what will be
handed out, and the faults taken are those of the tokens scanned so far, each of them
once. The stream scans several tokens when it looks ahead and stops at the end of the
file; from there scanning gives the same end again and finds nothing. -/
namespace Idl

/-! ### Scanning one token at a time -/

namespace Source

/-- The source after so many tokens. -/
def passing (s : Source) (n : Nat) : Source := (fun s => s.scan.2)^[n] s

/-- The token that comes after so many others. -/
def token (s : Source) (n : Nat) : Token := (s.passing n).scan.1.token

/-- The faults found on the way past so many tokens. -/
def faults (s : Source) (n : Nat) : List LexError :=
  (List.range n).flatMap fun i => (s.passing i).scan.1.errors

section
variable (s : Source)

@[simp] theorem passing_zero : s.passing 0 = s := rfl

theorem passing_succ (n : Nat) : s.passing (n + 1) = (s.passing n).scan.2 :=
  Function.iterate_succ_apply' ..

theorem passing_add (n m : Nat) : s.passing (n + m) = (s.passing n).passing m := by
  rw [Nat.add_comm]
  exact Function.iterate_add_apply ..

theorem token_add (n m : Nat) : s.token (n + m) = (s.passing n).token m := by
  rw [token, passing_add]
  rfl

@[simp] theorem faults_zero : s.faults 0 = [] := rfl

theorem faults_succ (n : Nat) :
    s.faults (n + 1) = s.faults n ++ (s.passing n).scan.1.errors := by
  simp [faults, List.range_succ]

theorem faults_add (n m : Nat) :
    s.faults (n + m) = s.faults n ++ (s.passing n).faults m := by
  induction m with
  | zero => simp
  | succ m ih => rw [← Nat.add_assoc, faults_succ, ih, faults_succ, passing_add, List.append_assoc]

end

/-- At the end of the file nothing is left, and the end is where scanning stays. -/
theorem scan_endOfFile {s : Source} (last : s.scan.1.token.kind = .endOfFile) :
    s.scan.2.rest = [] ∧ s.scan.1.token =
      ⟨.endOfFile, "", .point s.scan.2.position.line s.scan.2.position.col⟩ := by
  unfold scan at last ⊢
  generalize s.skipTrivia = skipped at last ⊢
  obtain ⟨errors, next⟩ := skipped
  dsimp only at last ⊢
  split at last
  · rename_i ended
    simp [ended]
  · exact absurd last (FirstLexeme.of_kind_spec _ _).1

section
variable {s : Source} (ended : s.rest = [])
include ended

theorem scan_of_ended :
    s.scan = (⟨⟨.endOfFile, "", .point s.position.line s.position.col⟩, []⟩, s) := by
  unfold scan
  rw [skipTrivia_of_nil ended]
  simp only [ended]

theorem passing_of_ended (n : Nat) : s.passing n = s := by
  induction n with
  | zero => rfl
  | succ n ih => rw [passing_succ, ih, scan_of_ended ended]

theorem token_of_ended (n : Nat) :
    s.token n = ⟨.endOfFile, "", .point s.position.line s.position.col⟩ := by
  rw [token, passing_of_ended ended, scan_of_ended ended]

end

/-- The end of the file comes again and again. -/
theorem token_of_endOfFile {s : Source} (last : (s.token n).kind = .endOfFile) (m : Nat) :
    s.token (n + m) = s.token n := by
  obtain ⟨ended, token⟩ := scan_endOfFile last
  cases m with
  | zero => rfl
  | succ m =>
    rw [Nat.add_comm m 1, ← Nat.add_assoc, token_add, passing_succ, token_of_ended ended]
    exact token.symm

/-- Scanning several tokens is scanning one after the other, up to the end of the file. -/
theorem scanMany_eq (n : Nat) (s : Source) : ∃ k,
    s.scanMany n = ((List.range k).map fun i => (s.passing i).scan.1, s.passing k) ∧
      (k = n ∨ (s.passing k).rest = []) := by
  induction n generalizing s with
  | zero => exact ⟨0, rfl, .inl rfl⟩
  | succ n ih =>
    by_cases last : s.scan.1.token.kind = .endOfFile
    · refine ⟨1, ?_, .inr (scan_endOfFile last).1⟩
      simp [scanMany, last, passing_succ]
    · obtain ⟨k, scanned, stops⟩ := ih s.scan.2
      have shift (i : Nat) : s.passing (i + 1) = s.scan.2.passing i := by
        rw [Nat.add_comm, passing_add, passing_succ, passing_zero]
      refine ⟨k + 1, ?_, ?_⟩
      · simp [scanMany, last, scanned, List.range_succ_eq_map, shift, Function.comp_def]
      · rw [shift]
        exact stops.imp_left (by omega)

end Source

/-! ### Calls -/

namespace TokenStream

/-- What a user of a stream may ask for. -/
inductive Call where
  | next
  | peek (n : Nat)
  | takeErrors
deriving DecidableEq, Repr

/-- One call: the tokens that it hands out, the faults that it takes, and the stream after it. -/
def answer (s : TokenStream) : Call → List Token × List LexError × TokenStream
  | .next => ([s.next.1], [], s.next.2)
  | .peek n => ([], [], (s.peek n).2)
  | .takeErrors => ([], s.takeErrors)

/-- One call after the other. -/
def answers : List Call → TokenStream → List Token × List LexError × TokenStream
  | [], s => ([], [], s)
  | call :: calls, s =>
    let (tokens, errors, s) := s.answer call
    let (more, others, s) := answers calls s
    (tokens ++ more, errors ++ others, s)

/-- The tokens that some calls hand out. -/
def handedOut (calls : List Call) (s : TokenStream) : List Token := (answers calls s).1

/-- The faults that some calls take, one after the other. -/
def faultsTaken (calls : List Call) (s : TokenStream) : List LexError := (answers calls s).2.1

/-- The stream after some calls. -/
def after (calls : List Call) (s : TokenStream) : TokenStream := (answers calls s).2.2

/-- What is found and not taken yet is taken by asking for it. -/
theorem faultsTaken_takeErrors (calls : List Call) (s : TokenStream) :
    faultsTaken (calls ++ [.takeErrors]) s = faultsTaken calls s ++ (s.after calls).errors := by
  induction calls generalizing s with
  | nil => simp [faultsTaken, after, answers, answer, takeErrors]
  | cons call calls ih =>
    have rest := ih (s.answer call).2.2
    simp only [faultsTaken, after] at rest
    simp [faultsTaken, after, answers, rest]

/-- So many tokens were handed out, and of the faults found these were taken. What is ahead are the
tokens after those handed out, and the text from there on is still to be scanned. -/
structure Keeps (text : Source) (handed : Nat) (taken : List LexError) (s : TokenStream) : Prop where
  source : s.source = text.passing (handed + s.ahead.length)
  ahead : s.ahead = (List.range s.ahead.length).map fun i => text.token (handed + i)
  errors : taken ++ s.errors = text.faults (handed + s.ahead.length)

section

theorem Keeps.next (keeps : Keeps text handed taken s) :
    s.next.1 = text.token handed ∧ Keeps text (handed + 1) taken s.next.2 := by
  obtain ⟨unscanned, ahead, errors⟩ := s
  obtain ⟨source, listed, found⟩ := keeps
  cases ahead with
  | cons first rest =>
    simp only [List.length_cons] at source listed found
    rw [List.range_succ_eq_map, List.map_cons, List.cons.injEq, List.map_map] at listed
    have shift : handed + (rest.length + 1) = handed + 1 + rest.length := by omega
    rw [shift] at source found
    refine ⟨listed.1, source, ?_, found⟩
    simpa [TokenStream.next, Function.comp_def, Nat.add_assoc, Nat.add_comm 1] using listed.2
  | nil =>
    simp only [List.length_nil, Nat.add_zero] at source found
    subst source
    refine ⟨rfl, (Source.passing_succ ..).symm, rfl, ?_⟩
    simp [TokenStream.next, scan, Source.faults_succ, ← found]

variable (keeps : Keeps text handed taken s)
include keeps

/-- Scanning ahead moves the place up to which the text is scanned, and nothing else. -/
theorem Keeps.fetch (n : Nat) :
    Keeps text handed taken (s.fetch n) ∧
      (s.ahead.length + n ≤ (s.fetch n).ahead.length ∨ (s.fetch n).source.rest = []) := by
  obtain ⟨k, scanned, stops⟩ := s.source.scanMany_eq n
  have fetched : s.fetch n = ⟨s.source.passing k, s.ahead ++ (List.range k).map s.source.token,
      s.errors ++ s.source.faults k⟩ := by
    simp [TokenStream.fetch, scanned, Source.faults, Source.token, List.flatMap_map]
  have place : handed + (s.ahead.length + k) = handed + s.ahead.length + k := by omega
  rw [fetched]
  refine ⟨⟨?_, ?_, ?_⟩, ?_⟩
  · simp only [List.length_append, List.length_map, List.length_range]
    rw [place, Source.passing_add, ← keeps.source]
  · simp only [List.length_append, List.length_map, List.length_range]
    rw [List.range_add, List.map_append, ← keeps.ahead, List.map_map]
    simp [keeps.source, ← Source.token_add, Nat.add_assoc]
  · simp only [List.length_append, List.length_map, List.length_range]
    rw [place, Source.faults_add, ← keeps.errors, ← keeps.source, List.append_assoc]
  · exact stops.imp_left fun all => by simp [all]

theorem Keeps.peek (n : Nat) :
    (s.peek n).1 = text.token (handed + n) ∧ Keeps text handed taken (s.peek n).2 := by
  obtain ⟨reached, far⟩ := keeps.fetch (n + 1 - s.ahead.length)
  unfold TokenStream.peek
  dsimp only
  generalize s.fetch (n + 1 - s.ahead.length) = t at reached far ⊢
  split
  · rename_i token found
    refine ⟨?_, reached⟩
    have inside : n < t.ahead.length := (List.getElem?_eq_some_iff.mp found).1
    rw [reached.ahead, List.getElem?_map, List.getElem?_range inside] at found
    exact (Option.some.inj found).symm
  · rename_i missing
    have short : t.ahead.length ≤ n := List.getElem?_eq_none_iff.mp missing
    have ended : t.source.rest = [] := far.resolve_left (by omega)
    have still : t.scan = (⟨.endOfFile, "", .point t.source.position.line t.source.position.col⟩, t) := by
      simp [scan, Source.scan_of_ended ended]
    obtain ⟨more, rfl⟩ := Nat.exists_eq_add_of_le short
    rw [still, ← Nat.add_assoc, Source.token_add, ← reached.source, Source.token_of_ended ended]
    exact ⟨rfl, reached⟩

/-- What one call hands out and takes. -/
theorem Keeps.answer (call : Call) :
    (s.answer call).1 = (List.range ([call].count .next)).map (fun i => text.token (handed + i)) ∧
      Keeps text (handed + [call].count .next) (taken ++ (s.answer call).2.1) (s.answer call).2.2 := by
  cases call with
  | next =>
    obtain ⟨token, further⟩ := keeps.next
    exact ⟨by simp [TokenStream.answer, token], by simpa [TokenStream.answer] using further⟩
  | peek n => exact ⟨rfl, by simpa [TokenStream.answer] using (keeps.peek n).2⟩
  | takeErrors =>
    refine ⟨rfl, keeps.source, keeps.ahead, ?_⟩
    simpa [TokenStream.answer, TokenStream.takeErrors] using keeps.errors

/-- What a whole run of calls hands out and takes. -/
theorem Keeps.answers (calls : List Call) :
    handedOut calls s = (List.range (calls.count .next)).map (fun i => text.token (handed + i)) ∧
      Keeps text (handed + calls.count .next) (taken ++ faultsTaken calls s) (s.after calls) := by
  induction calls generalizing handed taken s with
  | nil => exact ⟨rfl, by simpa [faultsTaken, after, TokenStream.answers] using keeps⟩
  | cons call calls ih =>
    obtain ⟨first, further⟩ := keeps.answer call
    obtain ⟨rest, ends⟩ := ih further
    have counted : (call :: calls).count .next = [call].count .next + calls.count .next := by
      rw [← List.count_append]
      rfl
    rw [counted, ← Nat.add_assoc]
    refine ⟨?_, by simpa [faultsTaken, after, TokenStream.answers] using ends⟩
    rw [List.range_add, List.map_append, ← first, List.map_map]
    simpa [handedOut, TokenStream.answers, Function.comp_def, Nat.add_assoc] using rest

end

/-- A stream that is only asked for the next token scans one after the other. -/
theorem nextMany_eq (n : Nat) (source : Source) (errors : List LexError) :
    nextMany n { source, errors } = ((List.range n).map source.token,
      { source := source.passing n, errors := errors ++ source.faults n }) := by
  induction n generalizing source errors with
  | zero => simp [nextMany]
  | succ n ih =>
    have first : source.passing 1 = source.scan.2 := rfl
    have found : source.faults 1 = source.scan.1.errors := by simp [Source.faults]
    have tokens : (List.range (1 + n)).map source.token =
        source.scan.1.token :: (List.range n).map source.scan.2.token := by
      simp [List.range_add, Source.token, Source.passing_add, first]
    rw [nextMany, Nat.add_comm, tokens, Source.passing_add, Source.faults_add, first, found]
    simp [next, scan, ih]

/-- However the calls follow each other: the tokens handed out are those of a stream that is only
asked for the next one; a token seen ahead is the one that is handed out there, whatever is called
until then; the end of the file, once handed out or seen, is all that comes; and the faults taken,
with those not taken yet, are the ones that a stream finds that is asked for the next token as often
as tokens were scanned, which are those handed out and those ahead. Taking faults once more takes
all of them. -/
theorem lookahead_changes_nothing (text : String) (calls : List Call) :
    let plain (n : Nat) := nextMany n (ofString text)
    let s := (ofString text).after calls
    handedOut calls (ofString text) = (plain (calls.count .next)).1 ∧
    (∀ n, (s.peek n).1 = (plain (calls.count .next + n)).2.next.1 ∧
      ∀ more, ∀ token ∈ (handedOut more (s.peek n).2)[n]?, token = (s.peek n).1) ∧
    (∀ token ∈ handedOut calls (ofString text), token.kind = .endOfFile →
      s.next.1 = token ∧ ∀ n, (s.peek n).1 = token) ∧
    (∀ n m, (s.peek n).1.kind = .endOfFile → (s.peek (n + m)).1 = (s.peek n).1) ∧
    faultsTaken calls (ofString text) ++ s.errors =
      (plain (calls.count .next + s.ahead.length)).2.errors ∧
    faultsTaken (calls ++ [.takeErrors]) (ofString text) =
      (plain (calls.count .next + s.ahead.length)).2.errors := by
  intro plain s
  have alone (n : Nat) : plain n = _ := nextMany_eq n (.ofString text) []
  have start : Keeps (.ofString text) 0 [] (ofString text) := ⟨rfl, rfl, rfl⟩
  obtain ⟨handed, keeps⟩ := start.answers calls
  have seen (n : Nat) := keeps.peek n
  simp only [Nat.zero_add] at keeps handed seen
  have found : faultsTaken calls (ofString text) ++ s.errors =
      (plain (calls.count .next + s.ahead.length)).2.errors := by
    rw [alone]
    simpa using keeps.errors
  refine ⟨?_, fun n => ⟨?_, ?_⟩, ?_, ?_, found, (faultsTaken_takeErrors _ _).trans found⟩
  · rw [alone, handed]
  · rw [alone, (seen n).1]
    rfl
  · intro more token here
    rw [((seen n).2.answers more).1] at here
    obtain ⟨inside, rfl⟩ := List.getElem?_eq_some_iff.mp here
    simp [(seen n).1, s]
  · intro token member last
    rw [handed] at member
    obtain ⟨i, before, rfl⟩ := List.mem_map.mp member
    obtain ⟨more, far⟩ := Nat.exists_eq_add_of_lt (List.mem_range.mp before)
    have stays (m : Nat) := Source.token_of_endOfFile last m
    refine ⟨?_, fun n => ?_⟩
    · rw [keeps.next.1, far, Nat.add_assoc]
      exact stays _
    · rw [(seen n).1, far, Nat.add_assoc, Nat.add_assoc]
      exact stays _
  · intro n m last
    rw [(seen n).1] at last ⊢
    rw [(seen (n + m)).1, ← Nat.add_assoc]
    exact Source.token_of_endOfFile last m

/-- A stream that looks past the end of a text and takes the faults before it is asked for the tokens
has found the one fault of the text, and ends where it saw the end. -/
theorem lookahead_changes_nothing_past_end :
    faultsTaken [.peek 3, .takeErrors, .next, .peek 1, .next, .next] (ofString "a #") =
      [⟨.invalidCharacter '#', ⟨1, 3, 1⟩⟩] ∧
    ⟨.endOfFile, "", ⟨1, 4, 0⟩⟩ ∈
      handedOut [.peek 3, .takeErrors, .next, .peek 1, .next, .next] (ofString "a #") ∧
    ∀ n, (((ofString "a #").after [.peek 3, .takeErrors, .next, .peek 1, .next, .next]).peek n).1 =
      ⟨.endOfFile, "", ⟨1, 4, 0⟩⟩ := by
  obtain ⟨taken, ended⟩ :
      faultsTaken [.peek 3, .takeErrors, .next, .peek 1, .next, .next] (ofString "a #") =
        [⟨.invalidCharacter '#', ⟨1, 3, 1⟩⟩] ∧
      ⟨.endOfFile, "", ⟨1, 4, 0⟩⟩ ∈
        handedOut [.peek 3, .takeErrors, .next, .peek 1, .next, .next] (ofString "a #") := by
    decide +kernel
  exact ⟨taken, ended, ((lookahead_changes_nothing "a #" _).2.2.1 _ ended rfl).2⟩

end TokenStream

end Idl
