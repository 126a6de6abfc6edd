import Idl.Proofs.ComposedTypes
import Idl.Proofs.DecoratorRuns

/-! Operations that take over the signature of another operation. The other one has a
signature of its own, and the result is the same place. The parameters are a copy:
they have the same properties, at a place that belongs to one operation only. The
decorators are those of the other operation and then those that are written. -/
namespace Idl

section
variable {c : Checker} {id : TypeId}

/-- The place of the parameters was handed out in the work on an operation. -/
theorem Ended.parameters_room (ended : Ended env c)
    (stored : c.types.get? id = some (.operation one)) :
    .nameless (some id) one.parameters ∈ c.history := by
  obtain ⟨⟨key, placed⟩, _⟩ := ended.consistent.holdings.owned id one stored
  exact ended.applied.parameters key id one placed stored

theorem Ended.parameters_not_shared (ended : Ended env c)
    (first : c.types.get? id = some (.operation one))
    (second : c.types.get? other = some (.operation two)) (same : one.parameters = two.parameters) :
    id = other := by
  have early := ended.parameters_room first
  have late := ended.parameters_room second
  rw [← same] at late
  -- a place is handed out once, so both operations are the one that it was handed out for
  have once := ended.applied.rooms.apart _ early _ late one.parameters rfl rfl
  exact Option.some.inj (Event.nameless.inj once).1

/-- An operation that names another one as its source takes over its signature. -/
theorem Checker.Composes.reuses (composes : c.Composes env key (.operation one))
    (given : one.source = some source) : c.Reuses env key one source := by
  cases composes with
  | written _ _ sourceless =>
    cases sourceless.symm.trans given
  | reused own reuses =>
    cases own.symm.trans given
    exact reuses

/-- The other operation does not take over a signature itself, so it is another one. -/
theorem Checker.Reuses.source_ne (reuses : c.Reuses env key one source)
    (given : one.source = some source) (stored : c.types.get? id = some (.operation one)) :
    source ≠ id := by
  obtain ⟨_, _, _, found, original⟩ := reuses
  rintro rfl
  cases stored.symm.trans found
  cases original.symm.trans given

end

/-- In a program on which the check returns, every operation that names a source takes over the
signature of the source as described. No other operation has the place of its parameters, the source
included, which is another operation. -/
theorem check_reuses_signatures (library : Library) (options : Options) (scripts : List Script)
    (rounds : Nat) (final : Checker)
    (checked : check (Environment.ofScripts library options scripts) rounds = some final)
    (id source : TypeId) (operation : OperationType)
    (stored : final.types.get? id = some (.operation operation))
    (given : operation.source = some source) :
    ∃ key, final.Placed key id ∧
      final.Reuses (Environment.ofScripts library options scripts) key operation source ∧
      source ≠ id ∧
      ∀ other another, final.types.get? other = some (.operation another) → other ≠ id →
        another.parameters ≠ operation.parameters := by
  have bound := Environment.ofScripts_bound library options scripts
  have ended := check_ended bound checked
  obtain ⟨⟨key, placed⟩, _⟩ := ended.consistent.holdings.owned id operation stored
  have reuses := (ended.accounted.composed key id _ placed stored).reuses given
  refine ⟨key, placed, reuses, reuses.source_ne given stored, ?_⟩
  intro other another found apart same
  exact apart (ended.parameters_not_shared found stored same)

/-- An operation takes over the signature of an instance of a template. Work on both is given up and
done again, because the parameters of the template lead back to the operation. A third operation
would take over the signature of the first, and a fourth one takes that of the instance as well. -/
private def signatureText : String :=
  "@doc(\"f\") op f<T>(...A, t: T): A; model A \x7b x: g \x7d @tag(\"g\") @doc(\"h\") op g: f<A>; " ++
    "op h: g; op i: f<A>;"

private def signatureScripts : List Script :=
  ((Script.read ⟨1⟩ signatureText).map Prod.fst).toList

/-- An operation that takes over a signature, with three decorators. -/
private def takesSignature : CheckedType → Bool
  | .operation operation => operation.source = some ⟨7⟩ &&
      operation.decorators.map Application.name = ["doc", "tag", "doc"]
  | _ => false

/-- The operation was put off, and so was the instance. -/
private def isSignatureRun (final : Checker) : Bool :=
  final.diagnostics.length = 1 && (final.types.get? ⟨6⟩).any takesSignature &&
    final.history.any (fun | .changed _ (.deferred id) => id = ⟨6⟩ | _ => false) &&
    final.history.any (fun | .changed _ (.deferred id) => id = ⟨7⟩ | _ => false)

theorem check_reuses_signatures_instance :
    ∃ final, check (Environment.ofScripts Builtin.library {} signatureScripts) 8 = some final ∧
      isSignatureRun final ∧ ∃ operation key, final.types.get? ⟨6⟩ = some (.operation operation) ∧
        final.Placed key ⟨6⟩ ∧
        final.Reuses (Environment.ofScripts Builtin.library {} signatureScripts) key operation ⟨7⟩ ∧
        ∀ other another, final.types.get? other = some (.operation another) → other ≠ ⟨6⟩ →
          another.parameters ≠ operation.parameters := by
  have returns : (check (Environment.ofScripts Builtin.library {} signatureScripts) 8).any
      isSignatureRun = true := by
    decide +kernel
  obtain ⟨final, checked, run⟩ := (Option.any_eq_true _ _).mp returns
  have reused : (final.types.get? ⟨6⟩).any takesSignature = true := by
    simp only [isSignatureRun, Bool.and_eq_true] at run
    exact run.1.1.2
  obtain ⟨type, stored, takes⟩ := (Option.any_eq_true _ _).mp reused
  cases type with
  | operation operation =>
    have given : operation.source = some ⟨7⟩ := by
      simp only [takesSignature, Bool.and_eq_true, decide_eq_true_eq] at takes
      exact takes.1
    obtain ⟨key, placed, reuses, _, apart⟩ :=
      check_reuses_signatures Builtin.library {} signatureScripts 8 final checked ⟨6⟩ ⟨7⟩ operation
        stored given
    exact ⟨final, checked, run, operation, key, stored, placed, reuses, apart⟩
  | _ => cases takes

end Idl
