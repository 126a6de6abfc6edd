import Idl.Proofs.ComposedTypes
import Mathlib.Data.List.Forall2

/-! Types that are given by their structure have one place. A union is found by its
options, and a model that is written in place by its shape, unless it is in a template
or has decorators. So two such models have one place exactly if they have one shape,
however often and wherever they are written, and a template that is applied to them
has one instance. -/
namespace Idl

namespace Checker

/-- A model that was written in place, outside templates and without decorators, has a shape and
was given a place. -/
def ShapedAt (c : Checker) (shape : Shape) (id : TypeId) : Prop :=
  ∃ context members properties, .expressed context members properties id ∈ c.history ∧
    context.dependent = false ∧ (∀ property ∈ properties, property.decorators = []) ∧
    shapeOf properties = shape

/-- Two places are the same, or those of models that are written in place with one shape. -/
def Alike (c : Checker) (id other : TypeId) : Prop :=
  id = other ∨ ∃ shape, c.ShapedAt shape id ∧ c.ShapedAt shape other

/-- What is given by its structure has one place. -/
structure SharesStructure (c : Checker) : Prop where
  union_options : ∀ id options, c.types.get? id = some (.union options) →
    options ≠ [] ∧ options.Nodup
  union_once : ∀ id other options, c.types.get? id = some (.union options) →
    c.types.get? other = some (.union options) → id = other
  /-- A model that is written in place is in a template, has decorators or counts by its shape. -/
  written : ∀ worker members span id, .evaluated worker (.model members span) id ∈ c.history →
    ∃ context properties, .expressed context members properties id ∈ c.history ∧
      (context.dependent = true ∨ (∃ property ∈ properties, property.decorators ≠ []) ∨
        c.ShapedAt (shapeOf properties) id)
  stored : ∀ id shape, c.ShapedAt shape id →
    ∃ properties, c.types.get? id = some (.model { properties }) ∧ shapeOf properties = shape
  shape_once : ∀ id other shape another, c.ShapedAt shape id → c.ShapedAt another other →
    (id = other ↔ shape = another)
  instances : ∀ symbol args others place room, c.Placed ⟨symbol, args⟩ place →
    c.Placed ⟨symbol, others⟩ room → (place = room ↔ List.Forall₂ c.Alike args others)

end Checker

namespace Ended
variable {id : TypeId}

variable (ended : Ended env c)
include ended

/-- A union that is stored is in the table, with options that are there and not repeated. -/
private theorem union_listed : ∀ id options,
    c.types.get? id = some (.union options) →
      c.types.unions.get? options = some id ∧ options ≠ [] ∧ options.Nodup := by
  refine ended.keeps (fun c => ∀ id options,
    c.types.get? id = some (.union options) →
      c.types.unions.get? options = some id ∧ options ≠ [] ∧ options.Nodup) ?_ ?_
  · intro id options stored
    rcases TypeStore.get?_empty stored with ⟨kind, same⟩ | same
    · cases same
    · cases same
  · intro before after consistent step listed id options stored
    cases consistent.stores step stored with
    | kept found =>
      obtain ⟨known, sound⟩ := listed id options found
      exact ⟨step.grows.unions _ _ known, sound⟩
    | union _ _ once some known => exact ⟨known, some, once⟩
    | declared _ _ completes => exact completes.fits.elim

/-- A shape leads to the place of the models that have it. -/
theorem shape_listed (shaped : c.ShapedAt shape id) : c.modelExpressions.get? shape = some id := by
  obtain ⟨context, members, properties, expressed, outside, plain, rfl⟩ := shaped
  have expresses := (ended.accounted.expressed context members properties id expressed).1
  rwa [Checker.Expresses, if_pos ⟨outside, plain⟩] at expresses

/-- The place of models written in place holds a model of their shape. -/
theorem shape_stored (shaped : c.ShapedAt shape id) :
    ∃ properties, c.types.get? id = some (.model { properties }) ∧ shapeOf properties = shape :=
  (ended.consistent.tables.model shape id (ended.shape_listed shaped)).2

theorem shapedAt_eq_iff (first : c.ShapedAt shape id) (second : c.ShapedAt another other) :
    id = other ↔ shape = another := by
  constructor
  · rintro rfl
    obtain ⟨properties, stored, same⟩ := ended.shape_stored first
    obtain ⟨others, found, equal⟩ := ended.shape_stored second
    cases stored.symm.trans found
    exact same.symm.trans equal
  · rintro rfl
    exact Option.some.inj ((ended.shape_listed first).symm.trans (ended.shape_listed second))

/-- A template has one instance for arguments that are alike. -/
theorem instance_eq_iff (first : c.Placed ⟨symbol, args⟩ place)
    (second : c.Placed ⟨symbol, others⟩ room) :
    place = room ↔ List.Forall₂ c.Alike args others := by
  have ledger := ended.consistent.ledger
  have alike : c.Alike = Eq := by
    funext id other
    refine propext ⟨?_, .inl⟩
    rintro (same | ⟨shape, first, second⟩)
    · exact same
    · exact (ended.shapedAt_eq_iff first second).mpr rfl
  rw [alike, List.forall₂_eq_eq_eq]
  constructor
  · rintro rfl
    cases ledger.placed_apart first second
    rfl
  · rintro rfl
    exact ledger.placed_once first second

theorem written (evaluated : .evaluated worker (.model members span) id ∈ c.history) :
    ∃ context properties, .expressed context members properties id ∈ c.history ∧
      (context.dependent = true ∨ (∃ property ∈ properties, property.decorators ≠ []) ∨
        c.ShapedAt (shapeOf properties) id) := by
  obtain ⟨context, properties, expressed⟩ := ended.accounted.evaluated _ _ _ _ evaluated
  refine ⟨context, properties, expressed, ?_⟩
  by_cases inside : context.dependent = true
  · exact .inl inside
  · by_cases plain : ∀ property ∈ properties, property.decorators = []
    · have outside : context.dependent = false := by simpa using inside
      exact .inr (.inr ⟨context, members, properties, expressed, outside, plain, rfl⟩)
    · have decorated : ∃ property ∈ properties, property.decorators ≠ [] := by simpa using plain
      exact .inr (.inl decorated)

end Ended

/-- In a program on which the check returns, types that are given by their structure have one place,
whatever the library and the program. -/
theorem check_shares_structure (library : Library) (options : Options) (scripts : List Script)
    (rounds : Nat) (final : Checker)
    (checked : check (Environment.ofScripts library options scripts) rounds = some final) :
    final.SharesStructure := by
  have bound := Environment.ofScripts_bound library options scripts
  have ended := check_ended bound checked
  constructor
  · intro id options stored
    exact (ended.union_listed id options stored).2
  · intro id other options first second
    have known := (ended.union_listed id options first).1
    exact Option.some.inj (known.symm.trans (ended.union_listed other options second).1)
  · intro worker members span id evaluated
    exact ended.written evaluated
  · intro id shape shaped
    exact ended.shape_stored shaped
  · intro id other shape another first second
    exact ended.shapedAt_eq_iff first second
  · intro symbol args others place room first second
    exact ended.instance_eq_iff first second

/-- A template that is applied to a model written in place with a spread, to the same model written
out, and to the model with its properties in the other order, and a union with an option twice.
Work on the model is given up and done again, because what is spread leads back to it. -/
private def structuralText : String :=
  "model T<X> \x7b ...X \x7d model N \x7b q: M \x7d model M \x7b a: T<\x7b p: void; ...N \x7d>; " ++
    "b: T<\x7b p: void; q: M \x7d>; c: T<\x7b q: M; p: void \x7d>; d: M | void | M; e: M | void \x7d"

private def structuralScripts : List Script :=
  ((Script.read ⟨1⟩ structuralText).map Prod.fst).toList

/-- The models written in place were checked twice, the first of them without what is spread. In the
end the first two instances are one and the third is another, and the unions are one. -/
private def isStructuralRun (final : Checker) : Bool :=
  let places := final.history.filterMap fun
    | .expressed _ _ _ id => some id.index
    | _ => none
  let types := (propertiesIn (final.types.get? ⟨6⟩)).map fun property => property.type.index
  final.diagnostics = [] && places = [11, 9, 9, 11, 9, 7] && types = [10, 10, 12, 13, 13]

theorem check_shares_structure_instances :
    ∃ final, check (Environment.ofScripts {} {} structuralScripts) 8 = some final ∧
      isStructuralRun final ∧ final.SharesStructure := by
  have returns : (check (Environment.ofScripts {} {} structuralScripts) 8).any isStructuralRun =
      true := by
    decide +kernel
  obtain ⟨final, checked, run⟩ := (Option.any_eq_true _ _).mp returns
  exact ⟨final, checked, run, check_shares_structure {} {} structuralScripts 8 final checked⟩

end Idl
