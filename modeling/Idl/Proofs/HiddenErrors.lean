import Idl.Proofs.ClosedTypes

/-! If no error is reported, no type is an error, as far as the declarations
without parameters lead. This holds unless two things come together: the default
of a parameter names a parameter that comes later, so that an instance may be made
with a parameter that nothing stands for, and an operation takes over the signature
of a parameter, which is an error if nothing stands for it. -/
namespace Idl

/-- No declaration without parameters has an error for its type, and it leads to none. -/
def Checker.HidesNoError (env : Environment) (c : Checker) : Prop :=
  ∀ symbol id other, env.Declares symbol → (env.symbols.symbol symbol).templated = false →
    c.symbolTypes.get? symbol = some id →
    Relation.ReflTransGen (c.Links env) id other → c.types.isError other = false

/-- The type of a declaration is the one at its place, unless an error was reported. -/
def AssignsPlaces (c : Checker) : Prop :=
  c.Faultless → ∀ symbol id, c.symbolTypes.get? symbol = some id → ∃ args, c.Placed ⟨symbol, args⟩ id

private theorem step_assignsPlaces (step : Step env c after) (assigns : AssignsPlaces c) :
    AssignsPlaces after := by
  intro faultless symbol id given
  have grown := step.grows
  have old (before : c.symbolTypes.get? symbol = some id) :
      ∃ args, after.Placed ⟨symbol, args⟩ id := by
    obtain ⟨args, placed⟩ := assigns (grown.faultless faultless) symbol id before
    exact ⟨args, grown.placed placed⟩
  cases step with
  | assign other held _ placed =>
    rw [Dictionary.get?_insert] at given
    split at given
    · rename_i same
      subst same
      cases given
      exact placed faultless
    · exact old given
  | _ => exact old given

theorem Ended.assignsPlaces (ended : Ended env c) : AssignsPlaces c :=
  ended.keeps AssignsPlaces (by simp [AssignsPlaces]) fun _ _ _ => step_assignsPlaces

/-- Closed places lead to closed places, any number of times. -/
theorem Sealed.reaches (world : Sealed env loose c) {id : TypeId} (closed : c.Closed loose id)
    (reaches : Relation.ReflTransGen (c.Links env) id other) : c.Closed loose other := by
  induction reaches with
  | refl => exact closed
  | tail _ link ih =>
    obtain ⟨type, found, leads⟩ := link
    exact (world.stored ih found).leads _ leads

/-- If no error is reported, there is none behind a declaration without parameters, provided that
defaults name only parameters before their own, or that no operation takes over the signature of a
template parameter. -/
theorem check_hides_no_error (library : Library) (options : Options) (scripts : List Script)
    (rounds : Nat) (final : Checker)
    (checked : check (Environment.ofScripts library options scripts) rounds = some final)
    (faultless : final.Faultless)
    (guarded : (Environment.ofScripts library options scripts).DefaultsLookBack ∨
      (Environment.ofScripts library options scripts).TakesNoParams) :
    final.HidesNoError (Environment.ofScripts library options scripts) := by
  have bound := Environment.ofScripts_bound library options scripts
  have ended := check_ended bound checked
  have world := ended.isSealed bound guarded id faultless
  intro symbol id other _ plain given reaches
  obtain ⟨args, placed⟩ := ended.assignsPlaces faultless symbol id given
  exact world.not_error (world.reaches (ended.consistent.closed_plain bound placed plain) reaches)

/-- Instances with defaults that look back, and operations that take over a signature. -/
private def guardedText : String :=
  "op get<T, U = T | void>(x: U): U; model N \x7b p: P<N> \x7d model P<T, U = T> \x7b l: T; r: U \x7d " ++
    "interface I \x7b op f: get<N>; \x7d"

/-- Nothing was found, and the operation of the interface has its type. -/
private def isGuarded (final : Checker) : Bool :=
  final.diagnostics = [] && (final.symbolTypes.get? ⟨9⟩).isSome

theorem check_hides_no_error_guarded :
    ∃ final, check (Environment.ofText guardedText) 8 = some final ∧ isGuarded final ∧
      (Environment.ofText guardedText).DefaultsLookBack ∧
      final.HidesNoError (Environment.ofText guardedText) := by
  have returns : (check (Environment.ofText guardedText) 8).any isGuarded = true := by
    decide +kernel
  have back : (Environment.ofText guardedText).DefaultsLookBack := by decide +kernel
  obtain ⟨final, checked, guarded⟩ := (Option.any_eq_true _ _).mp returns
  refine ⟨final, checked, guarded, back, ?_⟩
  simp only [isGuarded, Bool.and_eq_true, decide_eq_true_eq] at guarded
  have faultless : final.Faultless := by simp [Checker.Faultless, guarded.1]
  exact check_hides_no_error _ _ _ _ _ checked faultless (.inl back)

/-- A default that names a parameter which comes later, and an operation that takes over the
signature of a parameter. -/
private def unguardedText : String := "op foo<T, U = V, V = void>: U; op bar: foo<void>;"

/-- Nothing was found, and the type of the last operation is an error. -/
private def isHiding (final : Checker) : Bool :=
  final.diagnostics = [] && (final.symbolTypes.get? ⟨5⟩).any final.types.isError

/-- An operation can be an error without a report. -/
theorem check_hides_error :
    ∃ final, check (Environment.ofText unguardedText) 8 = some final ∧ final.diagnostics = [] ∧
      ¬ final.HidesNoError (Environment.ofText unguardedText) := by
  have returns : (check (Environment.ofText unguardedText) 8).any isHiding = true := by
    decide +kernel
  have plain : ((Environment.ofText unguardedText).symbols.symbol ⟨5⟩).kind = .operation ∧
      ((Environment.ofText unguardedText).symbols.symbol ⟨5⟩).templated = false := by
    decide +kernel
  obtain ⟨final, checked, silent⟩ := (Option.any_eq_true _ _).mp returns
  simp only [isHiding, Bool.and_eq_true, decide_eq_true_eq] at silent
  refine ⟨final, checked, silent.1, fun hides => ?_⟩
  obtain ⟨id, given, wrong⟩ := (Option.any_eq_true _ _).mp silent.2
  cases (hides ⟨5⟩ id id (.inr (.inl plain.1)) plain.2 given .refl).symm.trans wrong

end Idl
