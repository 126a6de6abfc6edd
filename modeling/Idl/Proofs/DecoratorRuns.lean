import Idl.Proofs.WholeRuns

/-! Decorators are applied once. The log of a check is read as the list of the
decorators that were applied, in order. For the type of a declaration that mentions
no template parameter, the part of the log that is about the type, its properties or
its parameters is the list of the decorators that are stored with the type. For a
type that mentions a template parameter that part is empty. -/
namespace Idl

namespace Event

/-- The place that an event hands out, for a key, for a parameter or for a model without a name. -/
def room? : Event → Option TypeId
  | placed _ id | placedParam _ id | nameless _ id => some id
  | _ => none

/-- The place of the declaration for which an event hands out a place. -/
def holder? : Event → Option TypeId
  | placed _ id => some id
  | nameless operation _ => operation
  | _ => none

end Event

/-- Every place is handed out once, those of models without a name included. -/
structure Rooms (types : TypeStore) (history : List Event) : Prop where
  held : ∀ event ∈ history, ∀ id, event.room? = some id → id.index < types.size
  apart : ∀ first ∈ history, ∀ second ∈ history, ∀ id,
    first.room? = some id → second.room? = some id → first = second
  models : ∀ operation id, .nameless operation id ∈ history →
    ∃ model, types.get? id = some (.model model)

namespace Rooms

theorem note (rooms : Rooms types history) (other : event.room? = none) :
    Rooms types (event :: history) where
  held := by
    intro later mem id room
    rcases List.mem_cons.mp mem with rfl | earlier
    · cases other.symm.trans room
    · exact rooms.held later earlier id room
  apart := by grind [rooms.apart]
  models := by
    intro operation id mem
    rcases List.mem_cons.mp mem with rfl | earlier
    · cases other
    · exact rooms.models operation id earlier

/-- The store may gain a place, and keeps what it has. -/
theorem grow (rooms : Rooms types history) (larger : types.size ≤ more.size)
    (kept : ∀ id type, types.get? id = some type → more.get? id = some type) :
    Rooms more history where
  held := fun event mem id room => Nat.lt_of_lt_of_le (rooms.held event mem id room) larger
  apart := rooms.apart
  models := by
    intro operation id mem
    obtain ⟨model, stored⟩ := rooms.models operation id mem
    exact ⟨model, kept id _ stored⟩

/-- A new place is handed out. -/
theorem hand (rooms : Rooms types history) (room : event.room? = some ⟨types.size⟩)
    (larger : types.size < more.size)
    (kept : ∀ id type, types.get? id = some type → more.get? id = some type)
    (model : ∀ operation id, event = .nameless operation id →
      ∃ model, more.get? id = some (.model model)) : Rooms more (event :: history) where
  held := by
    intro other mem id given
    rcases List.mem_cons.mp mem with rfl | earlier
    · cases room.symm.trans given
      exact larger
    · exact Nat.lt_trans (rooms.held other earlier id given) larger
  apart := by
    have fresh : ∀ other ∈ history, other.room? ≠ some ⟨types.size⟩ := by
      intro other mem same
      exact Nat.lt_irrefl _ (rooms.held other mem _ same)
    grind [rooms.apart]
  models := by
    intro operation id mem
    rcases List.mem_cons.mp mem with same | earlier
    · exact model operation id same.symm
    · obtain ⟨found, stored⟩ := rooms.models operation id earlier
      exact ⟨found, kept id _ stored⟩

end Rooms

/-- A place belongs to a key, and if an operation is stored there, the model of its parameters was
stored for it. -/
structure Belongs (history : List Event) (id : TypeId) (type : CheckedType) : Prop where
  placed : ∃ key, .placed key id ∈ history
  parameters : ∀ operation, type = .operation operation →
    .nameless (some id) operation.parameters ∈ history

namespace Belongs
variable {id : TypeId}

/-- What a decorator of a type is applied to has its place from the declaration. -/
theorem room (belongs : Belongs history id type) (own : type.owns id target = true) :
    ∃ event ∈ history, event.room? = some target.typeId ∧ event.holder? = some id := by
  obtain ⟨key, placed⟩ := belongs.placed
  have whole (same : target.typeId = id) :
      ∃ event ∈ history, event.room? = some target.typeId ∧ event.holder? = some id :=
    ⟨_, placed, by rw [same]; rfl, rfl⟩
  cases target with
  | type place => exact whole (of_decide_eq_true own)
  | property place name =>
    cases type with
    | model model => exact whole (of_decide_eq_true own)
    | operation operation =>
      have same : place = operation.parameters := of_decide_eq_true own
      exact ⟨_, belongs.parameters operation rfl, by rw [same]; rfl, rfl⟩
    | _ => cases own

/-- It belongs to no other declaration. -/
theorem unique (rooms : Rooms types history) (first : Belongs history id type)
    (second : Belongs history other found) (own : type.owns id target = true)
    (owned : found.owns other target = true) : id = other := by
  obtain ⟨event, mem, room, holder⟩ := first.room own
  obtain ⟨same, others, otherRoom, otherHolder⟩ := second.room owned
  cases rooms.apart event mem same others _ room otherRoom
  exact Option.some.inj (holder.symm.trans otherHolder)

/-- It is not a model that is written in place. -/
theorem not_nameless (rooms : Rooms types history) (belongs : Belongs history id type)
    (own : type.owns id target = true) : .nameless none target.typeId ∉ history := by
  intro nameless
  obtain ⟨event, mem, room, holder⟩ := belongs.room own
  cases rooms.apart event mem _ nameless _ room rfl
  cases holder

end Belongs

/-! What one step does to the log. -/

/-- A decorator may be applied to something: to the type under work or a part of it, or to a model
that is written in place. -/
inductive Checker.Due (c : Checker) (target : Target) : Prop where
  | declared {frame rest type} (stacked : c.stack = frame :: rest)
      (stored : c.types.get? frame.id = some type) (concrete : frame.id ∉ c.dependentTypes)
      (owned : type.owns frame.id target = true)
  | nameless (mem : .nameless none target.typeId ∈ c.history)

section
variable {c : Checker}

/-- What is written down beside a change hands out no place, not even to a model without a name. -/
private theorem Checker.Notes.room? (notes : c.Notes env event) : event.room? = none := by
  cases notes <;> rfl

/-- A step adds to the log. It applies a decorator only where that is due, and fills only places that
are empty. -/
private theorem Step.logs (step : Step env c after) : ∃ added, after.history = added ++ c.history ∧
    (∀ application target, .invoked application target ∈ added →
      c.Due target ∧ after.stack = c.stack) ∧
    ∀ id type, .filled id type ∈ added → c.Empty id := by
  have one {event : Event} (calm : event.invocation? = none) (open_ : ∀ id, event.fills id = false) :
      ∃ added, event :: c.history = added ++ c.history ∧
        (∀ application target, .invoked application target ∈ added →
          c.Due target ∧ after.stack = c.stack) ∧
        ∀ id type, .filled id type ∈ added → c.Empty id := by
    refine ⟨[event], rfl, ?_, ?_⟩
    · intro application target mem
      cases List.mem_singleton.mp mem
      cases calm
    · intro id type mem
      cases List.mem_singleton.mp mem
      simpa [Event.fills] using open_ id
  cases step with
  | note notes =>
    refine ⟨[_], rfl, ?_, ?_⟩
    · intro application target mem
      cases List.mem_singleton.mp mem
      cases notes with
      | @invoked frame _ _ _ _ _ owes =>
        have listed : (application, target) ∈ c.types.applications frame.id := by
          rw [owes.next]
          simp
        exact ⟨.declared owes.stacked owes.stored owes.concrete
          (TypeStore.owns_of_mem_applications owes.stored listed), rfl⟩
      | invokedNameless owes =>
        exact ⟨.nameless (owes.own _ (List.mem_cons_self ..) ▸ owes.nameless), rfl⟩
    · intro id type mem
      cases List.mem_singleton.mp mem
      cases notes
  | fillParam _ empty | fill _ _ empty =>
    refine ⟨[_], rfl, by simp, ?_⟩
    intro id type mem
    cases List.mem_singleton.mp mem
    exact empty
  | begin | postpone => exact ⟨[_, _], rfl, by simp, by simp⟩
  | alloc | placeParam | again | resume | postponeAgain | abandon | condemn | giveUp | complete | settle
  | answer | need => exact one rfl fun _ => rfl
  | _ => exact ⟨[], rfl, by simp, by simp⟩

/-- A frame that ends with its type stored has had its decorators applied. -/
private theorem Step.ends (step : Step env c after) (mem : frame ∈ c.stack)
    (ended : frame ∉ after.stack) (filled : ¬ c.Empty frame.id) : c.Decorated frame.id := by
  cases step with
  | begin | again | resume => exact absurd (List.mem_cons_of_mem _ mem) ended
  | complete _ stacked _ _ decorated | completeErrored _ stacked _ _ decorated =>
    rw [stacked] at mem
    rcases List.mem_cons.mp mem with rfl | below
    · exact decorated
    · exact absurd below ended
  | giveUp _ stacked _ empty =>
    rw [stacked] at mem
    rcases List.mem_cons.mp mem with rfl | below
    · exact absurd empty filled
    · exact absurd below ended
  | _ => exact absurd mem ended

private theorem step_rooms (step : Step env c after) (rooms : Rooms c.types c.history) :
    Rooms after.types after.history := by
  have grown := step.grows
  have placed (key : ResolutionKey) :
      Rooms c.types.reserve.2 (.placed key ⟨c.types.size⟩ :: c.history) :=
    rooms.hand rfl (by simp) (Grows.place env.symbols key).filled (by simp)
  cases step with
  | note notes => exact rooms.note notes.room?
  | alloc =>
    refine rooms.hand rfl (by simp [Checker.alloc]) grown.filled ?_
    rintro _ _ ⟨⟩
    exact ⟨_, TypeStore.get?_alloc_self ..⟩
  | intern | union => exact rooms.grow grown.size grown.filled
  | placeParam => exact rooms.hand rfl (by simp [Checker.placeParam]) grown.filled (by simp)
  | begin | postpone => exact (placed _).note rfl
  | fillParam | fill => exact (rooms.grow grown.size grown.filled).note rfl
  | again | resume | postponeAgain | abandon | condemn | giveUp | complete | settle | answer | need =>
    exact rooms.note rfl
  | _ => exact rooms

end

/-! What holds all along a run. -/

/-- A decorator is applied only to what belongs to a finished type without parameters, or to a model
that is written in place. The decorators of a declaration are applied after its type is stored, and
all of them before its frame ends. -/
structure Applied (c : Checker) : Prop where
  rooms : Rooms c.types c.history
  parameters : ∀ key id operation, c.Placed key id → c.types.get? id = some (.operation operation) →
    .nameless (some id) operation.parameters ∈ c.history
  owned : ∀ application target, .invoked application target ∈ c.history →
    .nameless none target.typeId ∈ c.history ∨ ∃ key id type, c.Placed key id ∧
      c.types.get? id = some type ∧ id ∉ c.dependentTypes ∧ type.owns id target = true
  late : ∀ key id type, c.Placed key id → c.types.get? id = some type →
    invocations c.history (type.owns id) = invocations (c.sinceFilled id) (type.owns id)
  decorated : ∀ key id, c.Placed key id → (∀ frame ∈ c.stack, frame.id ≠ id) → ¬ c.Empty id →
    c.Decorated id

section
variable {c after : Checker} {id : TypeId}

theorem Applied.belongs (applied : Applied c) (placed : c.Placed key id)
    (stored : c.types.get? id = some type) : Belongs c.history id type where
  placed := ⟨key, placed⟩
  parameters := by
    rintro operation rfl
    exact applied.parameters key id operation placed stored

/-- Nothing that belongs to a declaration is decorated in the name of another one. -/
theorem Applied.not_invoked (applied : Applied c) (belongs : Belongs c.history id type)
    (other : ∀ found, c.types.get? id = some found → id ∈ c.dependentTypes) :
    invocations c.history (type.owns id) = [] := by
  refine List.eq_nil_iff_forall_not_mem.mpr ?_
  rintro ⟨application, target⟩ mem
  obtain ⟨invoked, own⟩ := mem_invocations.mp mem
  rcases applied.owned application target invoked with
    nameless | ⟨otherKey, otherId, found, placed, stored, concrete, owned⟩
  · exact belongs.not_nameless applied.rooms own nameless
  · cases belongs.unique applied.rooms (applied.belongs placed stored) own owned
    exact concrete (other found stored)

/-- Events that do not fill a place have happened since it was filled. -/
private theorem sinceFilled_append (history : after.history = added ++ c.history)
    (calm : ∀ type, .filled id type ∉ added) :
    after.sinceFilled id = added ++ c.sinceFilled id := by
  have kept : ∀ event ∈ added, (!event.fills id) = true := by
    intro event mem
    cases event with
    | filled other type =>
      have different : other ≠ id := by
        rintro rfl
        exact calm type mem
      simp [Event.fills, different]
    | _ => rfl
  rw [Checker.sinceFilled, history, List.takeWhile_append_of_pos kept]
  rfl

/-- The decorators that are stored with a type stay the same. -/
private theorem Rooms.applications (rooms : Rooms c.types c.history) (grown : Grows c after)
    (stored : c.types.get? id = some type) (belongs : Belongs c.history id type) :
    after.types.applications id = c.types.applications id := by
  simp only [TypeStore.applications, stored, grown.filled id type stored]
  cases type with
  | operation operation =>
    obtain ⟨model, found⟩ := rooms.models _ _ (belongs.parameters operation rfl)
    simp [TypeStore.model?, found, grown.filled _ _ found]
  | _ => rfl

section
variable (consistent : Consistent env c) (step : Step env c after) (applied : Applied c)
include consistent step applied

private theorem step_owned (mem : .invoked application target ∈ after.history) :
    .nameless none target.typeId ∈ after.history ∨ ∃ key id type, after.Placed key id ∧
      after.types.get? id = some type ∧ id ∉ after.dependentTypes ∧ type.owns id target = true := by
  have grown := step.grows
  obtain ⟨added, history, dues, _⟩ := step.logs
  have kept {key : ResolutionKey} {id : TypeId} {type : CheckedType} (placed : c.Placed key id)
      (stored : c.types.get? id = some type) (concrete : id ∉ c.dependentTypes)
      (owned : type.owns id target = true) : ∃ key id type, after.Placed key id ∧
        after.types.get? id = some type ∧ id ∉ after.dependentTypes ∧ type.owns id target = true :=
    ⟨key, id, type, grown.placed placed, grown.filled id type stored,
      mt (grown.dependent id (consistent.holds_placed placed)).mp concrete, owned⟩
  rw [history] at mem
  rcases List.mem_append.mp mem with new | old
  · cases (dues application target new).1 with
    | @declared frame rest type stacked stored concrete owned =>
      have top : frame ∈ c.stack := by simp [stacked]
      exact .inr (kept (consistent.keys.frames frame top).1 stored concrete owned)
    | nameless found => exact .inl (grown.history.subset found)
  · rcases applied.owned application target old with
      found | ⟨key, id, type, placed, stored, concrete, owned⟩
    · exact .inl (grown.history.subset found)
    · exact .inr (kept placed stored concrete owned)

private theorem step_late (placed : after.Placed key id)
    (stored : after.types.get? id = some type) :
    invocations after.history (type.owns id) = invocations (after.sinceFilled id) (type.owns id) := by
  rcases consistent.stores_key step placed stored with
    ⟨placed, stored⟩ | ⟨frame, rest, stacked, _, rfl, completes, empty, rfl⟩
  · obtain ⟨added, history, _, fills⟩ := step.logs
    have calm (type : CheckedType) : .filled id type ∉ added := by
      intro mem
      cases (fills id type mem).symm.trans stored
    rw [sinceFilled_append history calm, history, invocations_append, invocations_append,
      applied.late key id type placed stored]
  · -- nothing in the store owns what the type at an empty place will own
    have top : frame ∈ c.stack := by simp [stacked]
    have belongs : Belongs c.history frame.id type :=
      ⟨⟨frame.key, (consistent.keys.frames frame top).1⟩, completes.parameters⟩
    have before : invocations c.history (type.owns frame.id) = [] := by
      refine applied.not_invoked belongs fun found there => ?_
      cases empty.symm.trans there
    have unchanged : invocations (.filled frame.id type :: c.history) (type.owns frame.id) =
        invocations c.history (type.owns frame.id) := by
      simp [invocations, List.filterMap_append, Event.invocation?]
    rw [Checker.sinceFilled_eq_nil rfl]
    exact unchanged.trans before

private theorem step_decorated (placed : after.Placed key id)
    (away : ∀ frame ∈ after.stack, frame.id ≠ id) : after.Decorated id := by
  intro type stored concrete
  have grown := step.grows
  rcases consistent.stores_key step placed stored with
    ⟨placed, stored⟩ | ⟨frame, rest, stacked, _, same, _, _, rfl⟩
  · have filled : ¬ c.Empty id := by
      intro empty
      cases empty.symm.trans stored
    have belongs := applied.belongs placed stored
    have earlier : c.Decorated id := by
      by_cases under : ∃ frame ∈ c.stack, frame.id = id
      · obtain ⟨frame, mem, rfl⟩ := under
        exact step.ends mem (fun still => away frame still rfl) filled
      · refine applied.decorated key id placed (fun frame mem same => ?_) filled
        exact under ⟨frame, mem, same⟩
    obtain ⟨added, history, dues, fills⟩ := step.logs
    have calm (type : CheckedType) : .filled id type ∉ added := by
      intro mem
      cases (fills id type mem).symm.trans stored
    have silent : invocations added (type.owns id) = [] := by
      refine List.eq_nil_iff_forall_not_mem.mpr ?_
      rintro ⟨application, target⟩ mem
      obtain ⟨invoked, own⟩ := mem_invocations.mp mem
      obtain ⟨due, stack⟩ := dues application target invoked
      cases due with
      | @declared frame rest found stacked there _ owned =>
        have top : frame ∈ c.stack := by simp [stacked]
        have other := applied.belongs (consistent.keys.frames frame top).1 there
        exact away frame (stack ▸ top) (other.unique applied.rooms belongs owned own)
      | nameless found => exact belongs.not_nameless applied.rooms own found
    have before : id ∉ c.dependentTypes :=
      mt (grown.dependent id (consistent.holds_placed placed)).mpr concrete
    rw [sinceFilled_append history calm, invocations_append, silent, List.append_nil,
      applied.rooms.applications grown stored belongs]
    exact earlier type stored before
  · have top : frame ∈ c.stack := by simp [stacked]
    exact absurd same (away frame top)

theorem step_applied : Applied after where
  rooms := step_rooms step applied.rooms
  parameters := by
    intro key id operation placed stored
    rcases consistent.stores_key step placed stored with
      ⟨placed, stored⟩ | ⟨frame, rest, _, _, rfl, completes, _⟩
    · exact step.grows.history.subset (applied.parameters key id operation placed stored)
    · exact step.grows.history.subset (completes.parameters operation rfl)
  owned := fun _ _ mem => step_owned consistent step applied mem
  late := fun _ _ _ placed stored => step_late consistent step applied placed stored
  decorated := fun _ _ placed away _ => step_decorated consistent step applied placed away

end

theorem Ended.applied (ended : Ended env c) : Applied c := by
  refine ended.keeps Applied ?_ fun _ _ => step_applied
  refine ⟨⟨?_, ?_, ?_⟩, ?_, ?_, ?_, ?_⟩ <;> simp [Checker.Placed]

end

/-- In the end every key has its type. If the type mentions no template parameter, the decorators
that were applied to it, to its properties or to its parameters are those that are stored with it,
each once and in order. If it mentions one, as the view of a template by itself does, there are
none. -/
structure Checker.DecoratesOnce (symbols : SymbolTable) (c : Checker) : Prop where
  finished : ∀ key id, c.Placed key id →
    (c.resolutions.get? key = some (.resolved id) ∨ c.resolutions.get? key = some .errored) ∧
      ∃ type, c.types.get? id = some type
  concrete : ∀ key id type, c.Placed key id → c.types.get? id = some type →
    id ∉ c.dependentTypes → invocations c.history (type.owns id) = c.types.applications id
  dependent : ∀ key id type, c.Placed key id → c.types.get? id = some type →
    id ∈ c.dependentTypes → invocations c.history (type.owns id) = []
  views : ∀ key id, c.Placed key id → key.args ≠ [] → c.isDeclarationView symbols key = true →
    id ∈ c.dependentTypes

/-- The view of a template by itself mentions a parameter. -/
private theorem Consistent.dependent_view (consistent : Consistent env c) {id : TypeId}
    (placed : c.Placed key id) (templated : key.args ≠ [])
    (view : c.isDeclarationView env.symbols key = true) : id ∈ c.dependentTypes := by
  have own : (env.symbols.symbol key.symbol).templateParams.map c.paramTypes.get? =
      key.args.map some := of_decide_eq_true view
  obtain ⟨arg, mem⟩ := List.exists_mem_of_ne_nil _ templated
  have among : some arg ∈ key.args.map some := List.mem_map_of_mem mem
  rw [← own] at among
  obtain ⟨param, _, stands⟩ := List.mem_map.mp among
  have marked : c.isDependent arg = true :=
    decide_eq_true (consistent.params.dependent param arg stands)
  have dependent := consistent.holdings.dependent key id placed
  rw [List.any_eq_true.mpr ⟨arg, mem, marked⟩] at dependent
  exact of_decide_eq_true dependent

/-- Whatever the library and the program, a check that returns has applied the decorators of each
declaration once. -/
theorem check_decorates_once (library : Library) (options : Options) (scripts : List Script)
    (rounds : Nat) (final : Checker)
    (checked : check (Environment.ofScripts library options scripts) rounds = some final) :
    final.DecoratesOnce (Environment.ofScripts library options scripts).symbols := by
  have bound := Environment.ofScripts_bound library options scripts
  have ended := check_ended bound checked
  have applied := ended.applied
  refine ⟨?_, ?_, ?_, ?_⟩
  · intro key id placed
    have filled := ended.filled (ended.consistent.holds_placed placed)
    exact ⟨ended.settled placed, Option.ne_none_iff_exists'.mp filled⟩
  · intro key id type placed stored concrete
    have away : ∀ frame ∈ final.stack, frame.id ≠ id := by
      rw [ended.stack]
      simp
    have filled := ended.filled (ended.consistent.holds_placed placed)
    rw [applied.late key id type placed stored]
    exact applied.decorated key id placed away filled type stored concrete
  · intro key id type placed stored dependent
    exact applied.not_invoked (applied.belongs placed stored) fun _ _ => dependent
  · intro key id placed templated view
    exact ended.consistent.dependent_view placed templated view

/-- Two models of which the second is given up and done again, a template with an instance, and an
operation that takes over the signature of another one, all with decorators. -/
private def decoratedText : String :=
  "@doc(\"a\") model A \x7b @doc(\"b\") b: B \x7d @test model B \x7b ...A; t: T<void> \x7d " ++
    "@doc(\"t\") model T<X> \x7b @key x: X \x7d @tag(\"f\") op f(@doc(\"q\") q: A): void; " ++
    "@doc(\"g\") op g: f;"

private def decoratedScripts : List Script :=
  ((Script.read ⟨1⟩ decoratedText).map Prod.fst).toList

/-- Nothing was found, eleven decorators were applied, and the template depends on its parameter. -/
private def isDecoratedRun (final : Checker) : Bool :=
  final.diagnostics = [] && (invocations final.history fun _ => true).length = 11 &&
    final.dependentTypes = [⟨7⟩, ⟨6⟩]

theorem check_decorates_once_copied :
    ∃ final, check (Environment.ofScripts Builtin.library {} decoratedScripts) 8 = some final ∧
      isDecoratedRun final ∧
      final.DecoratesOnce (Environment.ofScripts Builtin.library {} decoratedScripts).symbols := by
  have returns : (check (Environment.ofScripts Builtin.library {} decoratedScripts) 8).any
      isDecoratedRun = true := by
    decide +kernel
  obtain ⟨final, checked, run⟩ := (Option.any_eq_true _ _).mp returns
  exact ⟨final, checked, run, check_decorates_once _ _ _ _ _ checked⟩

end Idl
