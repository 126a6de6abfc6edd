import Idl.Proofs.HiddenErrors

/-! The type of a declaration without parameters leads to no template parameter,
provided that no error is reported and that the defaults of template parameters
name only parameters before their own. A default that names a later one is filled
in before anything stands for that parameter, and the instance is then made with
the parameter itself as an argument. -/
namespace Idl

/-- No declaration without parameters leads to a template parameter. -/
def Checker.IsConcrete (env : Environment) (c : Checker) : Prop :=
  ∀ symbol id other, env.Declares symbol → (env.symbols.symbol symbol).templated = false →
    c.symbolTypes.get? symbol = some id →
    Relation.ReflTransGen (c.Links env) id other →
    ∀ param, c.types.get? other ≠ some (.templateParameter param)

/-- If no error is reported, and each default names only parameters that come before its own, then
no template parameter is reached from a declaration without parameters. -/
theorem check_is_concrete (library : Library) (options : Options) (scripts : List Script)
    (rounds : Nat) (final : Checker)
    (checked : check (Environment.ofScripts library options scripts) rounds = some final)
    (faultless : final.Faultless)
    (back : (Environment.ofScripts library options scripts).DefaultsLookBack) :
    final.IsConcrete (Environment.ofScripts library options scripts) := by
  have bound := Environment.ofScripts_bound library options scripts
  have ended := check_ended bound checked
  -- nothing may be loose, so a template parameter at a closed place is absurd
  have world : Sealed _ False final := ended.isSealed bound (.inl back) False.elim faultless
  intro symbol id other _ plain given reaches param found
  obtain ⟨args, placed⟩ := ended.assignsPlaces faultless symbol id given
  have closed : final.Closed False id := ended.consistent.closed_plain bound placed plain
  exact world.loose_of_param (world.reaches closed reaches) found

/-- Nested instances with defaults that look back, in properties, in a union, in an array of models
written in place and in a signature that is taken over. -/
private def boundText : String :=
  "model Array<T> \x7b \x7d model P<T, U = T | void> \x7b l: T; r: U \x7d " ++
    "op get<T, U = P<T>>(x: U): \x7b t: T \x7d[]; model N extends P<N> \x7b \x7d op f: get<N>;"

/-- Nothing was found, and the operation has its type. -/
private def isBoundRun (final : Checker) : Bool :=
  final.diagnostics = [] && (final.symbolTypes.get? ⟨10⟩).isSome

theorem check_is_concrete_bound :
    ∃ final, check (Environment.ofText boundText) 8 = some final ∧ isBoundRun final ∧
      (Environment.ofText boundText).DefaultsLookBack ∧
      final.IsConcrete (Environment.ofText boundText) := by
  have returns : (check (Environment.ofText boundText) 8).any isBoundRun = true := by
    decide +kernel
  have back : (Environment.ofText boundText).DefaultsLookBack := by decide +kernel
  obtain ⟨final, checked, run⟩ := (Option.any_eq_true _ _).mp returns
  refine ⟨final, checked, run, back, ?_⟩
  simp only [isBoundRun, Bool.and_eq_true, decide_eq_true_eq] at run
  have faultless : final.Faultless := by simp [Checker.Faultless, run.1]
  exact check_is_concrete _ _ _ _ _ checked faultless back

/-- A default that names a parameter which comes later. -/
private def forwardText : String :=
  "model P<T, U = V, V = void> \x7b u: U \x7d model Q \x7b p: P<void> \x7d"

/-- The properties of the model at a place. -/
private def propertiesAt (final : Checker) (id : TypeId) : List Property :=
  ((final.types.model? id).map ModelType.properties).getD []

private theorem links_property {id : TypeId} (member : property ∈ propertiesAt final id) :
    final.Links env id property.type := by
  obtain ⟨model, found, among⟩ := TypeStore.exists_model_of_mem member
  exact ⟨_, found, .property among⟩

/-- Whether a template parameter is stored at a place. -/
private def isParamAt (final : Checker) (id : TypeId) : Bool :=
  match final.types.get? id with
  | some (.templateParameter _) => true
  | _ => false

/-- Nothing was found, and a property of a property of the last model is a template parameter. -/
private def isForwardRun (final : Checker) : Bool :=
  final.diagnostics = [] && (final.symbolTypes.get? ⟨5⟩).any fun id =>
    (propertiesAt final id).any fun outer =>
      (propertiesAt final outer.type).any fun inner => isParamAt final inner.type

/-- A model without parameters can lead to a template parameter although nothing is reported. -/
theorem check_is_not_concrete :
    ∃ final, check (Environment.ofText forwardText) 8 = some final ∧ final.diagnostics = [] ∧
      ¬ final.IsConcrete (Environment.ofText forwardText) := by
  have returns : (check (Environment.ofText forwardText) 8).any isForwardRun = true := by
    decide +kernel
  have plain : ((Environment.ofText forwardText).symbols.symbol ⟨5⟩).kind = .model ∧
      ((Environment.ofText forwardText).symbols.symbol ⟨5⟩).templated = false := by
    decide +kernel
  obtain ⟨final, checked, run⟩ := (Option.any_eq_true _ _).mp returns
  simp only [isForwardRun, Bool.and_eq_true, decide_eq_true_eq, Option.any_eq_true,
    List.any_eq_true] at run
  obtain ⟨silent, id, given, outer, first, inner, second, isParam⟩ := run
  refine ⟨final, checked, silent, fun concrete => ?_⟩
  have reaches : Relation.ReflTransGen (final.Links (Environment.ofText forwardText)) id inner.type :=
    .tail (.single (links_property first)) (links_property second)
  unfold isParamAt at isParam
  split at isParam
  · rename_i param found
    exact concrete ⟨5⟩ id inner.type (.inl plain.1) plain.2 given reaches param found
  · cases isParam

end Idl
