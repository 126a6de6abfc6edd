import Idl.Proofs.WholeRuns

/-! Cycles of declarations that need each other in full. A cycle that is reported is
one in which each declaration was asked for in full in the work on the one before, and
what is asked for in full is named in the text at an `is`, at a spread or as a
signature to take over. In the other direction, if declarations without parameters
name each other in a circle at such places, none of them can be finished before the
next one, so a cycle is reported, unless what is named is passed over. -/
namespace Idl

/-- A declaration needs the finished type of another one, which has no parameters, in any case: its
heritage, its members with their decorators, or its signature name it without arguments at an `is`,
at a spread, or as a signature to take over, where that is not passed over. -/
@[mk_iff]
structure Environment.Wants (env : Environment) (symbol target : SymbolId) : Prop where
  declares : env.Declares target
  plain : (env.symbols.symbol target).templated = false
  named : ∃ reference ∈ env.refers symbol, reference.target = target ∧ reference.use ≠ none

/-! What holds all along a run. -/

/-- What was asked for in the work on a declaration is named in the text of the declaration. -/
def Checker.AsksAsWritten (env : Environment) (c : Checker) : Prop :=
  ∀ worker key demand, .asked (some worker) key demand ∈ c.history →
    env.Asks worker.symbol key.symbol demand

/-- As long as no cycle is reported, a declaration on a circle of needs has no type. -/
def Checker.HoldsBack (env : Environment) (c : Checker) : Prop :=
  (∀ finding ∈ c.diagnostics, finding.code ≠ .cyclicReference) →
    ∀ symbol id, c.Placed ⟨symbol, []⟩ id → Relation.TransGen env.Wants symbol symbol → c.Empty id

section
variable {c : Checker}

private theorem Checker.Notes.lets {worker : Option ResolutionKey}
    (notes : c.Notes env (.asked worker key demand)) :
    worker = c.worker ∧ env.Lets c.stack key.symbol demand := by
  generalize same : Event.asked worker key demand = event at notes
  cases notes with
  | asked lets =>
    cases same
    exact ⟨rfl, lets⟩
  | _ => cases same

private theorem step_asksAsWritten (step : Step env c after) (asks : c.AsksAsWritten env) :
    after.AsksAsWritten env := by
  intro worker key demand mem
  have earlier {event : Event} (other : event ≠ .asked (some worker) key demand)
      (mem : .asked (some worker) key demand ∈ event :: c.history) :
      env.Asks worker.symbol key.symbol demand :=
    asks worker key demand ((List.mem_cons.mp mem).resolve_left other.symm)
  cases step with
  | note notes =>
    rcases List.mem_cons.mp mem with rfl | old
    · obtain ⟨own, lets⟩ := notes.lets
      obtain ⟨frame, top, rfl⟩ := Option.map_eq_some_iff.mp own.symm
      exact lets frame top
    · exact asks worker key demand old
  | begin | postpone =>
    have once := (List.mem_cons.mp mem).resolve_left (by simp)
    exact asks worker key demand ((List.mem_cons.mp once).resolve_left (by simp))
  | alloc | placeParam | fillParam | fill | again | resume | postponeAgain | abandon | condemn
  | giveUp | complete | settle | answer | need => exact earlier (by simp) mem
  | _ => exact asks worker key demand mem

private theorem step_justifies (step : Step env c after)
    (justifies : ∀ finding ∈ c.diagnostics, c.Justifies env finding) :
    ∀ finding ∈ after.diagnostics, after.Justifies env finding := by
  intro finding mem
  have grown := step.grows
  cases step with
  | report other _ explained =>
    simp only [Checker.report] at mem
    split at mem
    · exact (justifies finding mem).grows grown
    · rename_i silent
      rcases List.mem_append.mp mem with old | new
      · exact (justifies finding old).grows grown
      · have idle : c.abandoning = none := by simp_all
        rw [List.mem_singleton.mp new]
        exact (explained idle).grows grown
  | _ => exact (justifies finding mem).grows grown

private theorem step_holdsBack (consistent : Consistent env c) (step : Step env c after)
    (holds : c.HoldsBack env) : after.HoldsBack env := by
  intro silent symbol id placed circle
  have before : ∀ finding ∈ c.diagnostics, finding.code ≠ .cyclicReference :=
    fun finding mem => silent finding (step.grows.findings.subset mem)
  by_contra filled
  obtain ⟨type, stored⟩ := Option.ne_none_iff_exists'.mp filled
  rcases consistent.stores_key step placed stored with
    ⟨placed, stored⟩ | ⟨frame, _, _, named, _, completes, _, _⟩
  · cases (holds before symbol id placed circle).symm.trans stored
  · -- the place of the next one on the circle would have to be filled already
    obtain ⟨_, wants, onward⟩ := Relation.TransGen.head'_iff.mp circle
    obtain ⟨reference, written, rfl, needed⟩ := wants.named
    rcases (completes.meets reference (named ▸ written)).2 needed with
      ⟨place, there, full⟩ | ⟨finding, mem, code⟩
    · exact full (holds before _ place there (.tail' onward wants))
    · exact before finding mem code

theorem Ended.asksAsWritten (ended : Ended env c) : c.AsksAsWritten env :=
  ended.keeps (Checker.AsksAsWritten env) (by simp [Checker.AsksAsWritten])
    fun _ _ _ => step_asksAsWritten

theorem Ended.justifies (ended : Ended env c) :
    ∀ finding ∈ c.diagnostics, c.Justifies env finding :=
  ended.keeps (fun c => ∀ finding ∈ c.diagnostics, c.Justifies env finding)
    (by simp) fun _ _ _ => step_justifies

theorem Ended.holdsBack (ended : Ended env c) : c.HoldsBack env :=
  ended.keeps (Checker.HoldsBack env)
    (by simp [Checker.HoldsBack, Checker.Placed]) fun _ _ => step_holdsBack

end

/-- A declaration on a circle of needs is finished only if a cycle is reported. -/
private theorem Ended.circle (ended : Ended env c) (bound : env.Bound)
    (circle : Relation.TransGen env.Wants symbol symbol) :
    ∃ finding ∈ c.diagnostics, finding.code = .cyclicReference := by
  by_contra silent
  push Not at silent
  obtain ⟨last, _, wants⟩ := Relation.TransGen.tail'_iff.mp circle
  have visited := ended.visited symbol wants.declares (bound.plain wants.plain)
  obtain ⟨id, placed⟩ := (ended.consistent.keys.known _).mp visited
  exact ended.filled (ended.consistent.holds_placed placed)
    (ended.holdsBack silent symbol id placed circle)

end Idl
