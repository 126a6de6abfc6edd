import Idl.Checker
import Mathlib.Data.List.Infix

/-! What checking never takes back. Places stay handed out, a filled place
keeps its type, and every table of places only gains entries. Whether a type
mentions a template parameter is settled when its place is handed out. -/
namespace Idl
variable {id : TypeId}

namespace TypeStore
variable {types : TypeStore} {id : TypeId}

theorem get?_of_model? (found : types.model? id = some model) :
    types.get? id = some (.model model) := by
  obtain ⟨type, stored, given⟩ := Option.bind_eq_some_iff.mp found
  cases type <;> cases given
  exact stored

/-- The properties of the model at a place, if a model is there. -/
theorem exists_model_of_mem
    (mem : property ∈ ((types.model? id).map ModelType.properties).getD []) :
    ∃ model, types.get? id = some (.model model) ∧ property ∈ model.properties := by
  cases found : types.model? id with
  | none => simp [found] at mem
  | some model => exact ⟨model, get?_of_model? found, by simpa [found] using mem⟩

end TypeStore

namespace Checker

/-- A place of the store that has been handed out, filled or not. -/
def Holds (c : Checker) (id : TypeId) : Prop := id.index < c.types.size

/-- The place handed out for a key, whatever became of the key since. -/
def Placed (c : Checker) (key : ResolutionKey) (id : TypeId) : Prop :=
  Event.placed key id ∈ c.history

/-- The model or other type under work at a place, not yet stored there. -/
def Empty (c : Checker) (id : TypeId) : Prop := c.types.get? id = none

/-- No error was reported, at most warnings. -/
def Faultless (c : Checker) : Prop := ∀ finding ∈ c.diagnostics, finding.isError = false

end Checker

/-- The second state has everything of the first. -/
structure Grows (before after : Checker) : Prop where
  size : before.types.size ≤ after.types.size
  filled : ∀ id type, before.types.get? id = some type → after.types.get? id = some type
  unions : ∀ options id, before.types.unions.get? options = some id →
    after.types.unions.get? options = some id
  models : ∀ shape id, before.modelExpressions.get? shape = some id →
    after.modelExpressions.get? shape = some id
  params : ∀ param id, before.paramTypes.get? param = some id →
    after.paramTypes.get? param = some id
  dependent : ∀ id, before.Holds id →
    (id ∈ after.dependentTypes ↔ id ∈ before.dependentTypes)
  known : ∀ key, before.resolutions.get? key ≠ none → after.resolutions.get? key ≠ none
  findings : before.diagnostics <+: after.diagnostics
  history : before.history <:+ after.history

namespace Grows

theorem refl (c : Checker) : Grows c c where
  size := Nat.le_refl _
  filled := fun _ _ held => held
  unions := fun _ _ held => held
  models := fun _ _ held => held
  params := fun _ _ held => held
  dependent := fun _ _ => Iff.rfl
  known := fun _ held => held
  findings := List.prefix_rfl
  history := List.suffix_rfl

theorem holds (grown : Grows before after) (held : before.Holds id) : after.Holds id :=
  Nat.lt_of_lt_of_le held grown.size

theorem trans (one : Grows first second) (two : Grows second third) : Grows first third where
  size := Nat.le_trans one.size two.size
  filled := fun id type held => two.filled id type (one.filled id type held)
  unions := fun options id held => two.unions options id (one.unions options id held)
  models := fun shape id held => two.models shape id (one.models shape id held)
  params := fun param id held => two.params param id (one.params param id held)
  dependent := fun id held => (two.dependent id (one.holds held)).trans (one.dependent id held)
  known := fun key held => two.known key (one.known key held)
  findings := one.findings.trans two.findings
  history := one.history.trans two.history

variable (grown : Grows before after)
include grown

theorem placed (held : before.Placed key id) : after.Placed key id :=
  grown.history.subset held

/-- A place that is empty later was empty before. -/
theorem empty_before (empty : after.Empty id) : before.Empty id := by
  unfold Checker.Empty at *
  cases earlier : before.types.get? id with
  | none => rfl
  | some type =>
    cases (grown.filled id type earlier).symm.trans empty

/-- A type found to be an error stays one. -/
theorem isError (wrong : before.types.isError id = true) : after.types.isError id = true := by
  unfold TypeStore.isError at *
  cases slot : before.types.get? id with
  | none =>
    simp only [slot, Option.map_none, Option.getD_none, Bool.or_false] at wrong
    simp [wrong]
  | some type =>
    rw [slot] at wrong
    rw [grown.filled id type slot]
    exact wrong

theorem isDependent (held : before.Holds id) : after.isDependent id = before.isDependent id := by
  unfold Checker.isDependent
  exact decide_eq_decide.mpr (grown.dependent id held)

theorem anyDependent {ids : List TypeId} (held : ∀ id ∈ ids, before.Holds id) :
    ids.any after.isDependent = ids.any before.isDependent := by
  induction ids with
  | nil => rfl
  | cons id rest ih =>
    rw [List.any_cons, List.any_cons, grown.isDependent (held id (by simp)),
      ih fun other mem => held other (by simp [mem])]

/-- What is the view of a template by itself stays one. -/
theorem isDeclarationView (view : before.isDeclarationView symbols key = true) :
    after.isDeclarationView symbols key = true := by
  have owned : (symbols.symbol key.symbol).templateParams.map before.paramTypes.get? =
      key.args.map some := of_decide_eq_true view
  refine decide_eq_true (Eq.trans ?_ owned)
  refine List.map_congr_left fun param mem => ?_
  have listed : before.paramTypes.get? param ∈ key.args.map some := by
    rw [← owned]
    exact List.mem_map_of_mem mem
  obtain ⟨id, _, own⟩ := List.mem_map.mp listed
  rw [← own]
  exact grown.params param id own.symm

/-- No error later means no error before. -/
theorem faultless (clean : after.Faultless) : before.Faultless :=
  fun finding mem => clean finding (grown.findings.subset mem)

end Grows

end Idl
