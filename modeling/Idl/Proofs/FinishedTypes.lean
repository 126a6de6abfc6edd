import Idl.Proofs.WholeRuns

/-! The store at the end of a check. Every place that was handed out has been
filled, and was filled once; whatever a type refers to is in the store; and
none of the rules that the checker sets itself was broken. -/
namespace Idl

/-! What a type refers to. -/

def Application.references (application : Application) : List TypeId :=
  application.args.filterMap Value.type?

def Property.references (property : Property) : List TypeId :=
  property.type :: property.decorators.flatMap Application.references

/-- Every place that is written down inside a type. -/
def CheckedType.references : CheckedType → List TypeId
  | .intrinsic _ | .error => []
  | .model m =>
    m.properties.flatMap Property.references ++ m.base.toList ++ m.source.toList ++
      m.template.toList.flatMap (·.arguments) ++ m.decorators.flatMap Application.references
  | .operation o =>
    o.parameters :: o.returns :: o.source.toList ++ o.template.toList.flatMap (·.arguments) ++
      o.decorators.flatMap Application.references
  | .interface i => i.operations.map (·.2) ++ i.decorators.flatMap Application.references
  | .union options => options
  | .templateParameter param => param.default.toList

section
variable {c : Checker}

private theorem references_decorators {decorators : List Application}
    (sound : ∀ application ∈ decorators, application.Sound env c) :
    ∀ id ∈ decorators.flatMap Application.references, c.Holds id := by
  intro id mem
  obtain ⟨application, given, inside⟩ := List.mem_flatMap.mp mem
  obtain ⟨value, passed, type⟩ := List.mem_filterMap.mp inside
  refine (sound application given).2 value passed id ?_
  cases value <;> cases type
  rfl

private theorem references_template {template : Option TemplateInstance}
    (held : ∀ made ∈ template, ∀ id ∈ made.arguments, c.Holds id) :
    ∀ id ∈ template.toList.flatMap (·.arguments), c.Holds id := by
  intro id mem
  obtain ⟨made, given, inside⟩ := List.mem_flatMap.mp mem
  exact held made (Option.mem_toList.mp given) id inside

theorem CheckedType.Sound.references {type : CheckedType} (sound : type.Sound env c) :
    ∀ id ∈ type.references, c.Holds id := by
  intro id mem
  cases type with
  | intrinsic | error => cases mem
  | model m =>
    obtain ⟨properties, base, source, template, decorators⟩ := sound
    simp only [CheckedType.references, List.mem_append, Option.mem_toList] at mem
    rcases mem with (((inside | inside) | inside) | inside) | inside
    · obtain ⟨property, given, inside⟩ := List.mem_flatMap.mp inside
      rcases List.mem_cons.mp inside with rfl | inside
      · exact (properties property given).1
      · exact references_decorators (properties property given).2 id inside
    · exact base id inside
    · exact source id inside
    · exact references_template template id inside
    · exact references_decorators decorators id inside
  | operation o =>
    obtain ⟨parameters, returns, source, template, decorators⟩ := sound
    simp only [CheckedType.references, List.cons_append, List.mem_cons, List.mem_append,
      Option.mem_toList] at mem
    rcases mem with rfl | rfl | (inside | inside) | inside
    · exact parameters
    · exact returns
    · exact source id inside
    · exact references_template template id inside
    · exact references_decorators decorators id inside
  | interface i =>
    obtain ⟨operations, decorators⟩ := sound
    rcases List.mem_append.mp mem with inside | inside
    · obtain ⟨operation, given, rfl⟩ := List.mem_map.mp inside
      exact operations operation given
    · exact references_decorators decorators id inside
  | union options => exact sound id mem
  | templateParameter param => exact sound id (Option.mem_toList.mp mem)

end

/-! How often a place is filled. -/

/-- A place that was handed out has been filled once if it holds a type, and
never otherwise. No other place is filled. -/
structure Fillings (types : TypeStore) (history : List Event) : Prop where
  handed : ∀ event ∈ history, ∀ id, event.place? = some id →
    history.filter (·.fills id) = ((types.get? id).map (.filled id)).toList
  others : ∀ id, (∀ event ∈ history, event.place? ≠ some id) → history.filter (·.fills id) = []

namespace Fillings
variable {id : TypeId}

variable (fillings : Fillings types history)
include fillings

theorem note (place : event.place? = none) (calm : ∀ id, event.fills id = false) :
    Fillings types (event :: history) where
  handed := by
    intro other mem id given
    rw [List.filter_cons_of_neg (by simp [calm])]
    rcases List.mem_cons.mp mem with rfl | earlier
    · cases place.symm.trans given
    · exact fillings.handed other earlier id given
  others := by
    intro id never
    rw [List.filter_cons_of_neg (by simp [calm])]
    exact fillings.others id fun other mem => never other (List.mem_cons_of_mem _ mem)

/-- The store may gain places that were not handed out. -/
theorem store
    (same : ∀ event ∈ history, ∀ id, event.place? = some id → types'.get? id = types.get? id) :
    Fillings types' history where
  handed := by
    intro event mem id given
    rw [same event mem id given]
    exact fillings.handed event mem id given
  others := fillings.others

/-- A place is handed out. -/
theorem hand (place : event.place? = some id) (new : ∀ other ∈ history, other.place? ≠ some id)
    (empty : types.get? id = none) : Fillings types (event :: history) := by
  have calm : ∀ other, event.fills other = false := by
    intro other
    cases event <;> first | rfl | cases place
  refine ⟨?_, ?_⟩
  · intro other mem place' given
    rw [List.filter_cons_of_neg (by simp [calm])]
    rcases List.mem_cons.mp mem with rfl | earlier
    · cases place.symm.trans given
      rw [empty, fillings.others id new]
      rfl
    · exact fillings.handed other earlier place' given
  · intro other never
    rw [List.filter_cons_of_neg (by simp [calm])]
    exact fillings.others other fun event mem => never event (List.mem_cons_of_mem _ mem)

/-- An empty place is filled. -/
theorem fill (mem : event ∈ history) (place : event.place? = some id)
    (held : id.index < types.size) (empty : types.get? id = none) (type : CheckedType) :
    Fillings (types.fill id type) (.filled id type :: history) where
  handed := by
    intro other found place' given
    have earlier : other ∈ history := by
      rcases List.mem_cons.mp found with rfl | earlier
      · cases given
      · exact earlier
    rw [TypeStore.get?_fill held empty]
    by_cases same : place' = id
    · subst same
      rw [if_pos rfl, List.filter_cons_of_pos (by simp [Event.fills]),
        fillings.handed event mem _ place, empty]
      rfl
    · rw [if_neg same, List.filter_cons_of_neg (by simp [Event.fills, Ne.symm same])]
      exact fillings.handed other earlier place' given
  others := by
    intro other never
    have different : id ≠ other := by
      rintro rfl
      exact never event (List.mem_cons_of_mem _ mem) place
    rw [List.filter_cons_of_neg (by simp [Event.fills, different])]
    exact fillings.others other fun event mem => never event (List.mem_cons_of_mem _ mem)

/-- What a place was filled with is what it holds. -/
theorem stored (mem : .filled id type ∈ history) : types.get? id = some type := by
  have among : Event.filled id type ∈ history.filter (·.fills id) :=
    List.mem_filter.mpr ⟨mem, by simp [Event.fills]⟩
  by_cases never : ∀ event ∈ history, event.place? ≠ some id
  · rw [fillings.others id never] at among
    cases among
  · push Not at never
    obtain ⟨event, found, place⟩ := never
    rw [fillings.handed event found id place, Option.mem_toList, Option.map_eq_some_iff] at among
    obtain ⟨held, present, same⟩ := among
    cases same
    exact present

end Fillings

theorem step_fillings (consistent : Consistent env c) (step : Step env c after)
    (fillings : Fillings c.types c.history) : Fillings after.types after.history := by
  have gained (type : CheckedType) : Fillings (c.types.alloc type).2 c.history := by
    refine fillings.store fun event mem id place => ?_
    rw [TypeStore.get?_alloc, if_neg (Nat.ne_of_lt (consistent.ledger.held event mem id place).2)]
  have reserved {event : Event} (place : event.place? = some ⟨c.types.size⟩) :
      Fillings c.types.reserve.2 (event :: c.history) := by
    refine (fillings.store fun _ _ _ _ => TypeStore.get?_reserve ..).hand place ?_
      (TypeStore.vacant_reserve _)
    exact fun other mem same => Nat.lt_irrefl _ (consistent.ledger.held other mem _ same).2
  cases step with
  | alloc => exact (gained _).note rfl fun _ => rfl
  | intern => exact gained _
  | union _ new =>
    simp only [Checker.unionOf, TypeStore.internUnion, new]
    exact (gained (.union _)).store fun _ _ _ _ => rfl
  | placeParam => exact reserved rfl
  | fillParam own empty =>
    exact fillings.fill ((consistent.params.listed _ _).mpr own) rfl (consistent.holds_param own)
      empty _
  | begin | postpone => exact (reserved rfl).note rfl fun _ => rfl
  | fill _ stacked empty =>
    have placed := consistent.top_placed stacked
    exact fillings.fill placed rfl (consistent.holds_placed placed) empty _
  | note notes => exact fillings.note notes.place? notes.fills
  | again | resume | postponeAgain | abandon | condemn | giveUp | complete | settle | answer | need =>
    exact fillings.note rfl fun _ => rfl
  | _ => exact fillings

theorem Ended.fillings (ended : Ended env c) : Fillings c.types c.history :=
  ended.keeps (fun c => Fillings c.types c.history) ⟨by simp, fun _ _ => rfl⟩
    fun _ _ => step_fillings

private theorem step_internalErrors (step : Step env c after) :
    after.internalErrors = c.internalErrors := by
  cases step <;> rfl

theorem TypeStore.unfinished_eq_nil {store : TypeStore}
    (filled : ∀ id, id.index < store.size → store.get? id ≠ none) : store.unfinished = [] := by
  refine List.filterMap_eq_nil_iff.mpr ?_
  rintro ⟨slot, index⟩ mem
  have found := List.mem_zipIdx_iff_getElem?.mp mem
  rw [Array.getElem?_toList] at found
  obtain ⟨inside, _⟩ := Array.getElem?_eq_some_iff.mp found
  have present := filled ⟨index⟩ inside
  cases slot with
  | none => simp [get?, found] at present
  | some type => rfl

/-- No rule of the checker was broken, and no place of the store is empty. A place
that was handed out was filled exactly once, with the type that it holds, and
nothing else was filled. Whatever a type refers to is in the store. -/
structure Checker.Whole (c : Checker) : Prop where
  unbroken : c.internalErrors = []
  finished : c.types.unfinished = []
  filled_once : ∀ event ∈ c.history, ∀ id, event.place? = some id →
    ∃ type, c.types.get? id = some type ∧ c.history.filter (·.fills id) = [.filled id type]
  handed_out : ∀ id type, .filled id type ∈ c.history →
    ∃ event ∈ c.history, event.place? = some id
  references : ∀ id type, c.types.get? id = some type →
    ∀ other ∈ type.references, other.index < c.types.size

/-- Whenever a check returns it leaves a whole store. -/
theorem check_leaves_whole_store (library : Library) (options : Options) (scripts : List Script)
    (rounds : Nat) (final : Checker)
    (checked : check (Environment.ofScripts library options scripts) rounds = some final) :
    final.Whole := by
  have ended := check_ended (Environment.ofScripts_bound library options scripts) checked
  have unbroken : final.internalErrors = [] :=
    (consistent_start _).preserves (·.internalErrors = []) rfl
      (fun _ _ _ step held => (step_internalErrors step).trans held) ended.steps
  have fillings := ended.fillings
  refine ⟨unbroken, TypeStore.unfinished_eq_nil fun id held => ended.filled held, ?_, ?_, ?_⟩
  · intro event mem id place
    have held := (ended.consistent.ledger.held event mem id place).2
    obtain ⟨type, found⟩ := Option.ne_none_iff_exists'.mp (ended.filled held)
    refine ⟨type, found, ?_⟩
    rw [fillings.handed event mem id place, found]
    rfl
  · intro id type mem
    by_contra never
    push Not at never
    have among : Event.filled id type ∈ final.history.filter (·.fills id) :=
      List.mem_filter.mpr ⟨mem, by simp [Event.fills]⟩
    rw [fillings.others id never] at among
    cases among
  · exact fun id type found => (ended.consistent.holdings.sound id type found).references

/-- A model that has to be put off, a template with a default, and two models that need each other
in full. -/
private def entangledText : String :=
  "model A \x7b b: B \x7d model B \x7b ...A; a: Box<A> \x7d " ++
    "model Box<P = string> \x7b value: P \x7d model string \x7b\x7d " ++
    "model L is M \x7b\x7d model M \x7b ...L \x7d"

/-- A key is put off, and a cycle is reported. -/
private def isEntangled (final : Checker) : Bool :=
  final.diagnostics.length = 1 && final.history.any fun event => match event with
    | .changed _ (.deferred _) => true
    | _ => false

theorem check_leaves_whole_store_entangled :
    ∃ final, check (Environment.ofText entangledText) 8 = some final ∧ isEntangled final ∧
      final.Whole := by
  have returns : (check (Environment.ofText entangledText) 8).any isEntangled = true := by
    decide +kernel
  obtain ⟨final, checked, entangled⟩ := (Option.any_eq_true _ _).mp returns
  exact ⟨final, checked, entangled, check_leaves_whole_store _ _ _ _ _ checked⟩

end Idl
