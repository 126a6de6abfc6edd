import Idl.Proofs.ReadingScripts

/-! Whole files that are read without a finding are texts of what they were read as. -/
namespace Idl

namespace Source

theorem terminated_tokens (s : Source) : Syntax.Terminated s.tokens := by
  fun_induction tokens s with
  | case1 s last => exact last
  | case2 s more ih =>
    cases later : tokens s.scan.2 with
    | nil =>
      rw [later] at ih
      cases ih
    | cons next rest =>
      rw [later] at ih
      exact ⟨more, ih⟩

/-- What is true of the first token of every text is true of every token. -/
theorem forall_tokens {fine : Scanned → Prop} (each : ∀ s : Source, fine s.scan.1) (s : Source) :
    ∀ scanned ∈ s.tokens, fine scanned := by
  fun_induction tokens s with
  | case1 s last =>
    intro scanned member
    rw [List.mem_singleton.mp member]
    exact each s
  | case2 s more ih =>
    exact List.forall_mem_cons.mpr ⟨each s, ih⟩

theorem tokens_refused (s : Source) :
    ∀ scanned ∈ s.tokens, scanned.token.kind = .invalid → scanned.errors ≠ [] := by
  refine forall_tokens (fun s => ?_) s
  unfold scan
  split
  split
  · simp
  · intro refused
    have fault := (FirstLexeme.of_kind_spec ..).2.1 refused
    simp [fault]

end Source

namespace Syntax

theorem State.start_proper (file : FileId) (text : String) :
    (State.start file (tokenize text)).Proper where
  terminated := Source.terminated_tokens _
  refused := Source.tokens_refused _
  heard := by
    rintro ⟨_, held⟩ scanned first
    simp only [start] at held first
    simpa [Option.mem_def.mp first] using held
  ended := by simp [start]

theorem State.start_within (file : FileId) (text : String) :
    (State.start file (tokenize text)).Within (tokenize text) :=
  ⟨(State.start_proper file text).terminated, List.suffix_rfl⟩

/-- At the end of the file nothing else is left. -/
theorem State.Proper.upcoming_of_endOfFile {s : State} (proper : s.Proper)
    (ended : s.current.kind = .endOfFile) : ∃ last, s.upcoming = [last] := by
  have terminated := proper.terminated
  unfold State.current at ended
  rcases coming : s.upcoming with _ | ⟨first, _ | ⟨second, rest⟩⟩
  · rw [coming] at terminated
    cases terminated
  · exact ⟨first, rfl⟩
  · rw [coming] at terminated ended
    exact absurd ended terminated.1

end Syntax

namespace Script

/-- A file that is read without a finding is a text of what was read. -/
theorem text_of_read {file : FileId} (clean : read file text = some (script, [])) :
    script.file = file ∧ (∀ scanned ∈ tokenize text, scanned.errors = []) ∧
      Syntax.ScriptText script.bare.imports script.bare.items
        ((tokenize text).dropLast.map Scanned.token) := by
  have start := Syntax.State.start_proper file text
  obtain ⟨fits, _, ends⟩ := (Syntax.Parser.readingItems (tokenize text)
    (Nat.le_refl (stepLimit (tokenize text).length))).items true _
      (Syntax.State.start_within file text) trivial
  have lands := fits.lands
  replace ends := ends start
  unfold read readWith at clean
  dsimp only at clean
  split at clean
  · rename_i items state reply
    rw [reply] at ends lands
    have proper : state.Proper := lands.reaches.proper start
    simp only [Option.some.injEq, Prod.mk.injEq, Syntax.State.flush, List.append_eq_nil_iff,
      List.map_eq_nil_iff] at clean
    obtain ⟨rfl, quiet⟩ := clean
    obtain ⟨tokens, imports, passes, written, ended⟩ := ends quiet
    obtain ⟨last, left⟩ := proper.upcoming_of_endOfFile ended
    obtain ⟨taken, whole, same, faultless⟩ := passes.taken
    have whole : tokenize text = taken ++ [last] := by rw [← left]; exact whole
    refine ⟨rfl, fun scanned member => ?_, ?_⟩
    · rw [whole] at member
      rcases List.mem_append.mp member with member | member
      · exact faultless scanned member
      · rw [List.mem_singleton.mp member]
        exact proper.heard quiet last (by simp [left])
    · have met : state.imports.map ImportDecl.bare = imports := by
        simpa [Syntax.State.start] using passes.met
      rw [whole, List.dropLast_concat, same]
      show Syntax.ScriptText (state.imports.map ImportDecl.bare) _ _
      rw [met]
      exact written
  · rename_i state reply
    rw [reply] at ends
    simp only [Option.some.injEq, Prod.mk.injEq, Syntax.State.flush, List.append_eq_nil_iff,
      List.map_eq_nil_iff] at clean
    exact absurd clean.2 ends
  · cases clean

end Script

end Idl
