import Idl.Proofs.CheckerRuns
import Idl.Proofs.Mentions

/-! Which declarations are deprecated, and how that is recorded. A declaration is
deprecated by a decorator with a text, which leaves a mark on the type when the
decorators of the type are applied. No decorator of the library takes a mark away. -/
namespace Idl

/-! Values that are recorded for a target. -/

theorem Target.compare_eq_iff {two : Target} : one.compare two = .eq ↔ one = two := by
  have places (a b : TypeId) : a.index = b.index ↔ a = b := by
    cases a
    cases b
    simp
  cases one with
  | type a =>
    cases two with
    | type b => simp [compare, places]
    | property b y => simp [compare]
  | property a x =>
    cases two with
    | type b => simp [compare]
    | property b y => simp [compare, Ordering.then_eq_eq, places]

theorem TargetValues.find?_update_self (values : TargetValues) :
    ∃ old, (values.update target change).find? (·.1 = target) = some (target, change old) := by
  induction values with
  | nil => exact ⟨[], by simp [update]⟩
  | cons first rest ih =>
    obtain ⟨t, values⟩ := first
    unfold update
    cases order : target.compare t with
    | lt => exact ⟨[], by simp⟩
    | eq =>
      obtain rfl := Target.compare_eq_iff.mp order
      exact ⟨values, by simp⟩
    | gt =>
      obtain ⟨old, found⟩ := ih
      have different : t ≠ target := by
        rintro rfl
        cases (Target.compare_eq_iff.mpr rfl).symm.trans order
      exact ⟨old, by simpa [different] using found⟩

theorem TargetValues.find?_update_of_ne (values : TargetValues) (different : other ≠ target) :
    (values.update target change).find? (·.1 = other) = values.find? (·.1 = other) := by
  induction values with
  | nil => simp [update, different.symm]
  | cons first rest ih =>
    obtain ⟨t, values⟩ := first
    unfold update
    cases order : target.compare t with
    | lt => simp [different.symm]
    | eq =>
      obtain rfl := Target.compare_eq_iff.mp order
      simp [different.symm]
    | gt => simp only [List.find?_cons, ih]

namespace Annotations
variable {annotations : Annotations}

theorem targets_updateAt_self : (annotations.updateAt key target change).targets key =
    (annotations.targets key).update target change := by
  simp [targets, updateAt, Dictionary.getD]

/-- A target is recorded as deprecated. -/
def Marks (annotations : Annotations) (target : Target) : Prop :=
  annotations.get? Builtin.deprecatedKey target ≠ none

theorem marks_iff :
    annotations.Marks target ↔ annotations.all Builtin.deprecatedKey target ≠ [] := by
  simp [Marks, get?]

theorem marks_updateAt_self (some : ∀ values, change values ≠ []) :
    (annotations.updateAt Builtin.deprecatedKey target change).Marks target := by
  rw [marks_iff, all, targets_updateAt_self]
  obtain ⟨old, found⟩ := TargetValues.find?_update_self (annotations.targets Builtin.deprecatedKey)
  rw [found]
  exact some old

/-- Values that are added, or take the place of others, leave every mark. -/
theorem Marks.updateAt (marks : annotations.Marks target) (key : String) (other : Target)
    (some : ∀ values, change values ≠ []) : (annotations.updateAt key other change).Marks target := by
  by_cases named : key = Builtin.deprecatedKey
  · subst named
    by_cases same : target = other
    · subst same
      exact marks_updateAt_self some
    · rw [marks_iff, all, targets_updateAt_self, TargetValues.find?_update_of_ne _ same]
      exact marks_iff.mp marks
  · rw [marks_iff, all, targets, Annotations.updateAt, Dictionary.getD,
      Dictionary.get?_insert_of_ne _ named]
    exact marks_iff.mp marks

end Annotations

/-! Decorators of the library. -/

/-- Work of a handler that takes no mark away. -/
def HandlerM.Keeps {α : Type} (work : HandlerM α) : Prop :=
  ∀ effects target, effects.annotations.Marks target →
    (work.run effects).2.annotations.Marks target

namespace HandlerM

theorem keeps_pure (a : α) : Keeps (pure a) := fun _ _ marks => marks

theorem Keeps.bind (begun : Keeps first) (rest : ∀ a, Keeps (next a)) : Keeps (first >>= next) :=
  fun effects target marks => rest _ _ target (begun effects target marks)

variable (invocation : Invocation)

theorem keeps_report (code : Code) (message : String) : Keeps (invocation.report code message) :=
  fun _ _ marks => marks

theorem keeps_set (key : String) (value : Value) : Keeps (invocation.set key value) :=
  fun _ _ marks => marks.updateAt key invocation.target (by simp)

theorem keeps_push (key : String) (value : Value) : Keeps (invocation.push key value) :=
  fun _ _ marks => marks.updateAt key invocation.target (by simp)

theorem keeps_expectArgCount (least most : Nat) : Keeps (invocation.expectArgCount least most) := by
  unfold Invocation.expectArgCount
  dsimp only
  split
  · exact keeps_pure true
  · exact (keeps_report invocation _ _).bind fun _ => keeps_pure false

theorem keeps_stringArg (index : Nat) : Keeps (invocation.stringArg index) := by
  unfold Invocation.stringArg
  split
  · exact keeps_pure none
  · exact keeps_pure (some _)
  · exact (keeps_report invocation _ _).bind fun _ => keeps_pure none

end HandlerM

namespace Builtin
open HandlerM
variable (invocation : Invocation)

/-- A text that is recorded if it is there. -/
private theorem keeps_text {record : String → HandlerM Unit} (keeps : ∀ text, Keeps (record text)) :
    Keeps (do if let some text ← invocation.stringArg 0 then record text) := by
  refine (keeps_stringArg invocation 0).bind fun text => ?_
  cases text with
  | none => exact keeps_pure ()
  | some text => exact keeps text

theorem keeps_setText (key : String) : Keeps (setText key invocation) := by
  refine (keeps_expectArgCount invocation 1 1).bind fun counted => ?_
  cases counted with
  | false => exact keeps_pure ()
  | true => exact keeps_text invocation fun text => keeps_set invocation key (.string text)

theorem keeps_key : Keeps (key invocation) := by
  refine (keeps_expectArgCount invocation 0 1).bind fun counted => ?_
  cases counted with
  | false => exact keeps_pure ()
  | true =>
    rw [if_pos rfl]
    split
    · exact keeps_pure ()
    · exact keeps_set invocation _ _
    · exact keeps_text invocation fun text => keeps_set invocation _ (.string text)

theorem keeps_tag : Keeps (tag invocation) := by
  refine (keeps_expectArgCount invocation 1 1).bind fun counted => ?_
  cases counted with
  | false => exact keeps_pure ()
  | true => exact keeps_text invocation fun text => keeps_push invocation _ (.string text)

theorem keeps_test : Keeps (test invocation) := by
  refine (keeps_expectArgCount invocation 0 1).bind fun counted => ?_
  cases counted with
  | false => exact keeps_pure ()
  | true =>
    rw [if_pos rfl]
    split
    · split
      · exact keeps_set invocation _ _
      · exact keeps_report invocation _ _
    · exact keeps_text invocation fun text => keeps_set invocation _ (.string text)

/-- No decorator takes a mark away. -/
theorem keeps_handler {id : DecoratorId} (found : library.get? id = some definition) :
    Keeps (definition.handler invocation) := by
  have mem : definition ∈ library.definitions := List.mem_of_getElem? found
  simp only [library, List.mem_cons, List.not_mem_nil, or_false] at mem
  rcases mem with rfl | rfl | rfl | rfl | rfl | rfl | rfl
  · exact keeps_setText invocation _
  · exact keeps_setText invocation _
  · exact keeps_setText invocation _
  · exact keeps_key invocation
  · exact keeps_tag invocation
  · exact keeps_setText invocation _
  · exact keeps_test invocation

theorem marks_setText (given : invocation.args = [.string text]) (effects : Effects) :
    ((setText deprecatedKey invocation).run effects).2.annotations.Marks invocation.target := by
  have recorded : ((setText deprecatedKey invocation).run effects).2.annotations =
      effects.annotations.set deprecatedKey invocation.target (.string text) := by
    simp [setText, Invocation.expectArgCount, Invocation.stringArg, given, Invocation.set]
    rfl
  rw [recorded]
  exact Annotations.marks_updateAt_self (by simp)

/-- A decorator that deprecates what it is applied to: the one of the library, with a text. -/
def Deprecates (application : Application) : Prop :=
  library.find? "deprecated" = some application.decorator ∧
    ∃ text, application.args = [.string text]

/-- Whatever it is applied to, it leaves a mark. -/
theorem Deprecates.definition (deprecates : Deprecates application) :
    library.get? application.decorator = some ⟨"deprecated", .any, setText deprecatedKey⟩ := by
  obtain ⟨found, _⟩ := deprecates
  have fifth : ⟨5⟩ = application.decorator := Option.some.inj found
  rw [← fifth]
  rfl

end Builtin

/-! Declarations that are deprecated. -/

def Definition.decorators : Definition → List DecoratorExpr
  | .model decl => decl.decorators
  | .operation decl => decl.decorators
  | .interface decl => decl.decorators
  | _ => []

/-- A decorator as it is written, which deprecates what it stands at. -/
inductive Environment.Deprecating (env : Environment) (scope : Scope) : DecoratorExpr → Prop where
  | use {path text place span symbol decorator}
      (named : env.symbols.decorator? scope path = some symbol)
      (defined : (env.symbols.symbol symbol).declarations.head?.map Declaration.definition =
        some (.decorator decorator))
      (own : Builtin.library.find? "deprecated" = some decorator) :
      Deprecating env scope (.use path [.literal (.string text) place] span)

def Environment.isDeprecating (env : Environment) (scope : Scope) : DecoratorExpr → Bool
  | .use path [.literal (.string _) _] _ =>
    (env.symbols.decorator? scope path).any fun symbol =>
      match (env.symbols.symbol symbol).declarations.head?.map Declaration.definition with
      | some (.decorator decorator) => Builtin.library.find? "deprecated" = some decorator
      | _ => false
  | _ => false

theorem Environment.isDeprecating_iff {env : Environment} :
    env.isDeprecating scope expr = true ↔ env.Deprecating scope expr := by
  constructor
  · intro test
    unfold isDeprecating at test
    split at test
    · obtain ⟨symbol, named, test⟩ := (Option.any_eq_true _ _).mp test
      split at test
      · rename_i decorator defined
        exact .use named defined (of_decide_eq_true test)
      · cases test
    · cases test
  · rintro ⟨named, defined, own⟩
    simp [isDeprecating, named, defined, own]

instance (env : Environment) (scope : Scope) (expr : DecoratorExpr) :
    Decidable (env.Deprecating scope expr) :=
  decidable_of_iff _ Environment.isDeprecating_iff

/-- A declaration is written with such a decorator. -/
def Environment.Deprecates (env : Environment) (symbol : SymbolId) : Prop :=
  ∃ declaration ∈ (env.symbols.symbol symbol).declarations.head?,
    ∃ expr ∈ declaration.definition.decorators,
      env.Deprecating (env.symbols.symbol symbol).bodyScope expr

instance (env : Environment) (symbol : SymbolId) : Decidable (env.Deprecates symbol) :=
  inferInstanceAs (Decidable (∃ _ ∈ _, ∃ _ ∈ _, _))

/-- The decorators of a type itself. -/
def CheckedType.decorators : CheckedType → List Application
  | .model m => m.decorators
  | .operation o => o.decorators
  | .interface i => i.decorators
  | _ => []

/-- A type has a decorator that deprecates it. -/
def CheckedType.Deprecated (type : CheckedType) : Prop :=
  ∃ application ∈ type.decorators, Builtin.Deprecates application

/-- No mark is taken away. -/
def Checker.KeepsMarks (before after : Checker) : Prop :=
  ∀ target, before.annotations.Marks target → after.annotations.Marks target

namespace CheckM
variable {env : Environment}

private theorem annotations_reports (findings : List Diagnostic) (c : Checker) :
    (findings.foldl Checker.report c).annotations = c.annotations := by
  induction findings generalizing c with
  | nil => rfl
  | cons finding rest ih => exact ih (c.report finding)

variable (builtin : env.library = Builtin.library)
include builtin

theorem invoke_marks (application : Application) (target : Target) (kind : TargetKind) :
    Ensures (invoke env application target kind) c fun _ after => c.KeepsMarks after ∧
      (Builtin.Deprecates application → after.annotations.Marks target) := by
  unfold invoke
  rw [Ensures.bind_iff, Ensures.modify_iff, builtin]
  split
  · rename_i missing
    refine Ensures.modify_iff.mpr ⟨fun _ marks => marks, fun deprecates => ?_⟩
    cases missing.symm.trans deprecates.definition
  · rename_i definition found
    refine Ensures.ite (fun accepted => ?_) fun refused => ?_
    · rw [Ensures.bind_iff, Ensures.get_iff, Ensures.set_iff]
      refine ⟨fun other marks => ?_, fun deprecates => ?_⟩
      · rw [annotations_reports]
        exact Builtin.keeps_handler _ found _ other marks
      · rw [annotations_reports]
        cases found.symm.trans deprecates.definition
        obtain ⟨_, text, given⟩ := deprecates
        exact Builtin.marks_setText _ given _
    · refine Ensures.modify_iff.mpr ⟨fun _ marks => marks, fun deprecates => ?_⟩
      cases found.symm.trans deprecates.definition
      cases kind <;> simp [Targets.any, Targets.accepts] at refused

theorem invokeAll_marks (target : Target) (kind : TargetKind) (applications : List Application) :
    Ensures (invokeAll env target kind applications) c fun _ after => c.KeepsMarks after ∧
      ∀ application ∈ applications, Builtin.Deprecates application →
        after.annotations.Marks target := by
  induction applications generalizing c with
  | nil => exact Ensures.pure_iff.mpr ⟨fun _ marks => marks, by simp⟩
  | cons application rest ih =>
    refine Ensures.bind (invoke_marks builtin application target kind) ?_
    rintro _ middle ⟨kept, marked⟩
    refine Ensures.weaken ih ?_
    rintro _ after ⟨further, others⟩
    refine ⟨fun other marks => further other (kept other marks), fun other mem deprecates => ?_⟩
    rcases List.mem_cons.mp mem with rfl | mem
    · exact further target (marked deprecates)
    · exact others other mem deprecates

/-- Once its decorators have been applied, a type that is deprecated is marked. -/
theorem applyDecorators_marks (id : TypeId)
    (idle : c.abandoning = none) (stored : c.types.get? id = some type)
    (deprecated : type.Deprecated) :
    Ensures (applyDecorators env id) c fun _ after => after.annotations.Marks (.type id) := by
  obtain ⟨application, mem, deprecates⟩ := deprecated
  unfold applyDecorators
  rw [Ensures.bind_iff, Ensures.get_iff]
  simp only [idle, Option.isSome_none, Bool.false_eq_true, if_false, stored]
  cases type with
  | model model =>
    exact Ensures.bind .anything fun _ middle _ =>
      (invokeAll_marks builtin (.type id) .model _).weaken
        fun _ _ ended => ended.2 application mem deprecates
  | operation operation =>
    exact Ensures.bind .anything fun _ middle _ =>
      (invokeAll_marks builtin (.type id) .operation _).weaken
        fun _ _ ended => ended.2 application mem deprecates
  | interface interface =>
    exact (invokeAll_marks builtin (.type id) .interface _).weaken
      fun _ _ ended => ended.2 application mem deprecates
  | _ => cases mem

end CheckM

end Idl
