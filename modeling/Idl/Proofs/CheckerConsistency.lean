import Idl.Proofs.CheckerSteps

/-! What holds in every state of a run, between any two steps. The places of
the store are handed out once and for one owner each. The keys under work are
the frames of the stack, and a key that is put off is in the list of those to be
done. A place is empty exactly as long as its owner is under work or put off. -/
namespace Idl

namespace Event

/-- The place that an event hands out. -/
def place? : Event → Option TypeId
  | .placed _ id => some id
  | .placedParam _ id => some id
  | _ => none

/-- What the place is handed out for. -/
def owner? : Event → Option (ResolutionKey ⊕ SymbolId)
  | .placed key _ => some (.inl key)
  | .placedParam param _ => some (.inr param)
  | _ => none

end Event

section
variable {c : Checker}

variable (notes : c.Notes env event)
include notes

/-- What is written down beside a change hands out no place. -/
theorem Checker.Notes.owner? : event.owner? = none := by
  cases notes <;> rfl

theorem Checker.Notes.place? : event.place? = none := by
  cases notes <;> rfl

theorem Checker.Notes.fills (id : TypeId) : event.fills id = false := by
  cases notes <;> rfl

theorem Checker.Notes.not_extended : ∀ id base, event ≠ .extended id base := by
  rintro id base rfl
  cases notes

theorem Checker.Notes.not_placed : ∀ key id, event ≠ .placed key id := by
  rintro key id rfl
  cases notes

theorem Checker.Notes.not_placedParam : ∀ param id, event ≠ .placedParam param id := by
  rintro param id rfl
  cases notes

end

/-- Each place is handed out once, and for one owner. -/
structure Ledger (history : List Event) (size : Nat) : Prop where
  held : ∀ event ∈ history, ∀ id, event.place? = some id → 3 ≤ id.index ∧ id.index < size
  once : ∀ first ∈ history, ∀ second ∈ history, ∀ owner,
    first.owner? = some owner → second.owner? = some owner → first = second
  apart : ∀ first ∈ history, ∀ second ∈ history, ∀ id,
    first.place? = some id → second.place? = some id → first = second

namespace Ledger

variable (ledger : Ledger history size)
include ledger

theorem grow (larger : size ≤ more) : Ledger history more where
  held := fun event mem id place =>
    (ledger.held event mem id place).imp_right fun held => Nat.lt_of_lt_of_le held larger
  once := ledger.once
  apart := ledger.apart

theorem note (owner : event.owner? = none) (place : event.place? = none) :
    Ledger (event :: history) size where
  held := by
    intro other mem id given
    rcases List.mem_cons.mp mem with rfl | earlier
    · cases place.symm.trans given
    · exact ledger.held other earlier id given
  once := by grind [ledger.once]
  apart := by grind [ledger.apart]

theorem hand (least : 3 ≤ size) (owned : event.owner? = some owner)
    (place : event.place? = some ⟨size⟩) (new : ∀ other ∈ history, other.owner? ≠ some owner) :
    Ledger (event :: history) (size + 1) where
  held := by
    intro other mem id given
    rcases List.mem_cons.mp mem with rfl | earlier
    · cases place.symm.trans given
      exact ⟨least, Nat.lt_succ_self size⟩
    · have before := ledger.held other earlier id given
      exact ⟨before.1, Nat.lt_succ_of_lt before.2⟩
  once := by grind [ledger.once]
  apart := by
    have fresh : ∀ other ∈ history, other.place? ≠ some ⟨size⟩ := by
      intro other mem same
      exact Nat.lt_irrefl _ (ledger.held other mem _ same).2
    grind [ledger.apart]

theorem placed_once {id : TypeId} (first : Event.placed key id ∈ history)
    (second : Event.placed key other ∈ history) : id = other := by
  cases ledger.once _ first _ second _ rfl rfl
  rfl

theorem placed_apart {id : TypeId} (first : Event.placed key id ∈ history)
    (second : Event.placed other id ∈ history) : key = other := by
  cases ledger.apart _ first _ second _ rfl rfl
  rfl

theorem param_apart {id : TypeId} (first : Event.placed key id ∈ history)
    (second : Event.placedParam param id ∈ history) : False := by
  cases ledger.apart _ first _ second _ rfl rfl

end Ledger

/-- Which keys are under work, which wait, and which have places. -/
structure Keys (history : List Event) (resolutions : Dictionary ResolutionKey ResolutionState)
    (stack : List Frame) (deferred : List ResolutionKey) : Prop where
  known : ∀ key, resolutions.get? key ≠ none ↔ ∃ id, Event.placed key id ∈ history
  resolving : ∀ key id, resolutions.get? key = some (.resolving id) →
    ∃ frame ∈ stack, frame.key = key ∧ frame.id = id
  waiting : ∀ key id, resolutions.get? key = some (.deferred id) →
    Event.placed key id ∈ history ∧ key ∈ deferred
  resolved : ∀ key id, resolutions.get? key = some (.resolved id) → Event.placed key id ∈ history
  frames : ∀ frame ∈ stack, Event.placed frame.key frame.id ∈ history ∧
    (resolutions.get? frame.key = some (.resolving frame.id) ∨
      resolutions.get? frame.key = some .errored)
  distinct : (stack.map Frame.key).Nodup

namespace Keys
variable {id : TypeId} {history history' : List Event}

/-- The event of a key that is known adds nothing. -/
private theorem mem_known (placed : Event.placed key id ∈ history) (event : Event) :
    event ∈ history ↔ event = .placed key id ∨ event ∈ history :=
  (or_iff_right_of_imp (by rintro rfl; exact placed)).symm

section
variable (keys : Keys history resolutions stack deferred)
include keys

theorem note (other : ∀ key id, event ≠ .placed key id) :
    Keys (event :: history) resolutions stack deferred where
  known := by
    intro key
    simp [keys.known, fun id => (other key id).symm]
  resolving := keys.resolving
  waiting := fun key id state =>
    ⟨List.mem_cons_of_mem _ (keys.waiting key id state).1, (keys.waiting key id state).2⟩
  resolved := fun key id state => List.mem_cons_of_mem _ (keys.resolved key id state)
  frames := fun frame mem =>
    ⟨List.mem_cons_of_mem _ (keys.frames frame mem).1, (keys.frames frame mem).2⟩
  distinct := keys.distinct

/-- One key comes into a new state, and nothing changes for the others. -/
private theorem change (events : ∀ event, event ∈ history' ↔ event = .placed key id ∨ event ∈ history)
    (others : ∀ frame, frame.key ≠ key → (frame ∈ stack' ↔ frame ∈ stack))
    (queued : ∀ other ∈ deferred, other ≠ key → other ∈ deferred')
    (frames : ∀ frame ∈ stack', frame.key = key →
      frame.id = id ∧ (state = .resolving id ∨ state = .errored))
    (resolving : ∀ other, state = .resolving other →
      ∃ frame ∈ stack', frame.key = key ∧ frame.id = other)
    (waiting : ∀ other, state = .deferred other → other = id ∧ key ∈ deferred')
    (resolved : ∀ other, state = .resolved other → other = id)
    (distinct : (stack'.map Frame.key).Nodup) :
    Keys history' (resolutions.insert key state) stack' deferred' := by
  have placed : Event.placed key id ∈ history' := (events _).mpr (.inl rfl)
  have kept (event : Event) (mem : event ∈ history) : event ∈ history' :=
    (events event).mpr (.inr mem)
  refine ⟨?_, ?_, ?_, ?_, ?_, distinct⟩
  · intro other
    rw [Dictionary.get?_insert]
    split
    · rename_i same
      subst same
      exact ⟨fun _ => ⟨id, placed⟩, fun _ => by simp⟩
    · rename_i different
      rw [keys.known]
      exact exists_congr fun place => by simp [events, Ne.symm different]
  · intro other place found
    rw [Dictionary.get?_insert] at found
    split at found
    · rename_i same
      subst same
      exact resolving place (Option.some.inj found)
    · rename_i different
      obtain ⟨frame, mem, named, id⟩ := keys.resolving other place found
      exact ⟨frame, (others frame (by rw [named]; exact Ne.symm different)).mpr mem, named, id⟩
  · intro other place found
    rw [Dictionary.get?_insert] at found
    split at found
    · rename_i same
      subst same
      obtain ⟨rfl, mem⟩ := waiting place (Option.some.inj found)
      exact ⟨placed, mem⟩
    · rename_i different
      obtain ⟨event, mem⟩ := keys.waiting other place found
      exact ⟨kept _ event, queued other mem (Ne.symm different)⟩
  · intro other place found
    rw [Dictionary.get?_insert] at found
    split at found
    · rename_i same
      subst same
      rw [resolved place (Option.some.inj found)]
      exact placed
    · exact kept _ (keys.resolved other place found)
  · intro frame mem
    rw [Dictionary.get?_insert]
    split
    · rename_i same
      obtain ⟨rfl, states⟩ := frames frame mem same.symm
      rw [← same]
      exact ⟨placed, by simpa using states⟩
    · rename_i different
      obtain ⟨event, states⟩ := keys.frames frame ((others frame (Ne.symm different)).mp mem)
      exact ⟨kept _ event, states⟩

/-- A key without a state, or one that is put off, is not under work. -/
theorem not_under_work (idle : ∀ id, resolutions.get? key ≠ some (.resolving id))
    (sane : resolutions.get? key ≠ some .errored) : ∀ frame ∈ stack, frame.key ≠ key := by
  rintro frame mem rfl
  rcases (keys.frames frame mem).2 with state | state
  · exact idle _ state
  · exact sane state

section
variable (events : ∀ event, event ∈ history' ↔ event = .placed key id ∨ event ∈ history)
  (outside : ∀ frame ∈ stack, frame.key ≠ key)
include events outside

/-- Work starts on a key that is not under work. -/
private theorem start (demand : Demand) : Keys history' (resolutions.insert key (.resolving id))
    (⟨key, id, demand⟩ :: stack) deferred := by
  refine keys.change events ?_ (fun _ mem _ => mem) ?_ ?_ ?_ ?_ ?_
  · grind
  · grind
  · intro other same
    cases same
    exact ⟨_, List.mem_cons_self .., rfl, rfl⟩
  · simp
  · simp
  · rw [List.map_cons, List.nodup_cons]
    exact ⟨by simpa using outside, keys.distinct⟩

/-- A key that is not under work is put off. -/
private theorem delay :
    Keys history' (resolutions.insert key (.deferred id)) stack (key :: deferred) := by
  refine keys.change events (fun _ _ => Iff.rfl) (fun _ mem _ => List.mem_cons_of_mem _ mem)
    ?_ ?_ ?_ ?_ keys.distinct
  · exact fun frame mem same => absurd same (outside frame mem)
  · simp
  · simp
  · simp

end

section
variable (new : resolutions.get? key = none)
include new

private theorem outside_new : ∀ frame ∈ stack, frame.key ≠ key :=
  keys.not_under_work (by simp [new]) (by simp [new])

theorem begin (demand : Demand) :
    Keys (.placed key id :: history) (resolutions.insert key (.resolving id))
      (⟨key, id, demand⟩ :: stack) deferred :=
  keys.start (fun _ => List.mem_cons) (keys.outside_new new) demand

theorem postpone :
    Keys (.placed key id :: history) (resolutions.insert key (.deferred id)) stack
      (key :: deferred) :=
  keys.delay (fun _ => List.mem_cons) (keys.outside_new new)

end

section
variable (waiting : resolutions.get? key = some (.deferred id))
include waiting

private theorem outside_waiting : ∀ frame ∈ stack, frame.key ≠ key :=
  keys.not_under_work (by simp [waiting]) (by simp [waiting])

theorem again (demand : Demand) :
    Keys history (resolutions.insert key (.resolving id)) (⟨key, id, demand⟩ :: stack) deferred :=
  keys.start (mem_known (keys.waiting key id waiting).1) (keys.outside_waiting waiting) demand

theorem postponeAgain :
    Keys history (resolutions.insert key (.deferred id)) stack (key :: deferred) :=
  keys.delay (mem_known (keys.waiting key id waiting).1) (keys.outside_waiting waiting)

end

theorem condemn (once : ∀ id other, Event.placed frame.key id ∈ history →
      Event.placed frame.key other ∈ history → id = other) (mem : frame ∈ stack) :
    Keys history (resolutions.insert frame.key .errored) stack deferred := by
  have own := (keys.frames frame mem).1
  refine keys.change (mem_known own) (fun _ _ => Iff.rfl) (fun _ mem _ => mem) ?_ ?_ ?_ ?_
    keys.distinct
  · intro other mem same
    have placed := (keys.frames other mem).1
    rw [same] at placed
    exact ⟨once _ _ placed own, .inr rfl⟩
  · simp
  · simp
  · simp

end

/-- The list of what waits loses a key that is under work. -/
theorem dequeue (keys : Keys history resolutions stack (under :: deferred))
    (other : ∀ id, resolutions.get? under ≠ some (.deferred id)) :
    Keys history resolutions stack deferred :=
  { keys with
    waiting := by
      intro key id state
      obtain ⟨event, mem⟩ := keys.waiting key id state
      rcases List.mem_cons.mp mem with rfl | mem
      · exact absurd state (other id)
      · exact ⟨event, mem⟩ }

variable (keys : Keys history resolutions (frame :: rest) deferred)
include keys

theorem outside :
    ∀ other ∈ rest, other.key ≠ frame.key := by
  have distinct := keys.distinct
  simp only [List.map_cons, List.nodup_cons, List.mem_map, not_exists, not_and] at distinct
  exact distinct.1

/-- The youngest frame ends, and its key is put off or resolved. -/
theorem pop (queued : ∀ other ∈ deferred, other ∈ deferred')
    (ended : (state = .deferred frame.id ∧ frame.key ∈ deferred') ∨ state = .resolved frame.id) :
    Keys history (resolutions.insert frame.key state) rest deferred' := by
  have outside := keys.outside
  refine keys.change (mem_known (keys.frames frame (List.mem_cons_self ..)).1) ?_
    (fun other mem _ => queued other mem) ?_ ?_ ?_ ?_ (List.nodup_cons.mp keys.distinct).2
  · intro other different
    rw [List.mem_cons]
    exact ⟨.inr, fun mem => mem.resolve_left fun same => different (by rw [same])⟩
  · exact fun other mem same => absurd same (outside other mem)
  · rintro other rfl
    rcases ended with ⟨same, _⟩ | same <;> cases same
  · rintro other rfl
    rcases ended with ⟨same, mem⟩ | same
    · cases same
      exact ⟨rfl, mem⟩
    · cases same
  · rintro other rfl
    rcases ended with ⟨same, _⟩ | same
    · cases same
    · cases same
      rfl

/-- The youngest frame ends with its key found to be an error. -/
theorem completeErrored (errored : resolutions.get? frame.key = some .errored) :
    Keys history resolutions rest deferred :=
  { keys with
    resolving := by
      intro key id state
      obtain ⟨other, mem, named, place⟩ := keys.resolving key id state
      rcases List.mem_cons.mp mem with rfl | mem
      · rw [← named, errored] at state
        cases state
      · exact ⟨other, mem, named, place⟩
    frames := fun other mem => keys.frames other (List.mem_cons_of_mem _ mem)
    distinct := (List.nodup_cons.mp keys.distinct).2 }

end Keys

/-- A frame that is given up was started by a reference. -/
def Unwinding (stack : List Frame) (abandoning : Option Nat) : Prop :=
  ∀ below, abandoning = some below → ∃ above frame rest,
    stack = above ++ frame :: rest ∧ rest.length = below ∧ frame.demand = .reference

/-- Each frame was asked for in the work on the one below it. -/
def Linked (history : List Event) : List Frame → Prop
  | upper :: lower :: rest =>
    .asked (some lower.key) upper.key upper.demand ∈ history ∧ Linked history (lower :: rest)
  | _ => True

theorem Linked.grow (linked : Linked history stack) (grown : ∀ event ∈ history, event ∈ longer) :
    Linked longer stack := by
  induction stack with
  | nil => trivial
  | cons upper below ih =>
    cases below with
    | nil => trivial
    | cons lower rest => exact ⟨grown _ linked.1, ih linked.2⟩

theorem Linked.tail (linked : Linked history (frame :: rest)) : Linked history rest := by
  cases rest with
  | nil => trivial
  | cons lower rest => exact linked.2

/-- A frame is put on the one in whose work it was asked for. -/
theorem Linked.push (linked : Linked history stack)
    (asked : .asked (stack.head?.map Frame.key) frame.key frame.demand ∈ history) :
    Linked history (frame :: stack) := by
  cases stack with
  | nil => trivial
  | cons lower rest => exact ⟨asked, linked⟩

/-- The places of template parameters that stand for themselves. -/
structure Params (types : TypeStore) (history : List Event)
    (paramTypes : Dictionary SymbolId TypeId) (dependentTypes : List TypeId) : Prop where
  listed : ∀ param id, Event.placedParam param id ∈ history ↔ paramTypes.get? param = some id
  stored : ∀ param id type, paramTypes.get? param = some id → types.get? id = some type →
    ∃ name default, type = .templateParameter ⟨name, param, default⟩
  origin : ∀ id param, types.get? id = some (.templateParameter param) →
    paramTypes.get? param.symbol = some id
  dependent : ∀ param id, paramTypes.get? param = some id → id ∈ dependentTypes

/-- Which places are filled, and which are empty. -/
structure Slots (types : TypeStore) (history : List Event)
    (resolutions : Dictionary ResolutionKey ResolutionState) (stack : List Frame) : Prop where
  resolved : ∀ key id, resolutions.get? key = some (.resolved id) → types.get? id ≠ none
  waiting : ∀ key id, resolutions.get? key = some (.deferred id) → types.get? id = none
  errored : ∀ key id, Event.placed key id ∈ history → resolutions.get? key = some .errored →
    (∀ frame ∈ stack, frame.key ≠ key) → types.get? id ≠ none
  below : ∀ frame ∈ stack.tail, types.get? frame.id = none
  empties : ∀ id, id.index < types.size → types.get? id = none →
    ∃ event ∈ history, event.place? = some id

namespace Slots

section
variable (slots : Slots types history resolutions stack)
include slots

theorem note (other : ∀ key id, event ≠ .placed key id) :
    Slots types (event :: history) resolutions stack :=
  { slots with
    errored := fun key id placed => slots.errored key id (by simpa [(other key id).symm] using placed)
    empties := fun id held empty =>
      let ⟨event, mem, place⟩ := slots.empties id held empty
      ⟨event, List.mem_cons_of_mem _ mem, place⟩ }

/-- The store gains types or places, or an empty place is filled. -/
theorem store (filled : ∀ id, types.get? id ≠ none → types'.get? id ≠ none)
    (waiting : ∀ key id, resolutions.get? key = some (.deferred id) → types'.get? id = none)
    (below : ∀ frame ∈ stack.tail, types'.get? frame.id = none)
    (events : ∀ key id, Event.placed key id ∈ history' → resolutions.get? key = some .errored →
      Event.placed key id ∈ history)
    (empties : ∀ id, id.index < types'.size → types'.get? id = none →
      ∃ event ∈ history', event.place? = some id) : Slots types' history' resolutions stack where
  resolved := fun key id state => filled id (slots.resolved key id state)
  waiting := waiting
  errored := fun key id placed state outside =>
    filled id (slots.errored key id (events key id placed state) state outside)
  below := below
  empties := empties

/-- One key comes into a new state. -/
theorem turn (resolved : ∀ id, state = .resolved id → types.get? id ≠ none)
    (waiting : ∀ id, state = .deferred id → types.get? id = none)
    (errored : state = .errored → ∃ frame ∈ stack', frame.key = key)
    (others : ∀ frame ∈ stack, frame.key ≠ key → frame ∈ stack')
    (below : ∀ frame ∈ stack'.tail, types.get? frame.id = none) :
    Slots types history (resolutions.insert key state) stack' where
  resolved := by
    intro other id found
    rw [Dictionary.get?_insert] at found
    split at found
    · exact resolved id (Option.some.inj found)
    · exact slots.resolved other id found
  waiting := by
    intro other id found
    rw [Dictionary.get?_insert] at found
    split at found
    · exact waiting id (Option.some.inj found)
    · exact slots.waiting other id found
  errored := by
    intro other id placed found outside
    rw [Dictionary.get?_insert] at found
    split at found
    · rename_i same
      obtain ⟨frame, mem, named⟩ := errored (Option.some.inj found)
      exact absurd (named.trans same) (outside frame mem)
    · rename_i different
      refine slots.errored other id placed found fun frame mem named => ?_
      exact outside frame (others frame mem (named.trans_ne (Ne.symm different))) named
  below := below
  empties := slots.empties

/-- Work on a key starts, while nothing under work has its type. -/
theorem push {id : TypeId} (unfilled : ∀ frame ∈ stack, types.get? frame.id = none)
    (demand : Demand) :
    Slots types history (resolutions.insert key (.resolving id)) (⟨key, id, demand⟩ :: stack) := by
  refine slots.turn (by simp) (by simp) (by simp) ?_ unfilled
  exact fun frame mem _ => List.mem_cons_of_mem _ mem

/-- A key with an empty place is put off. -/
theorem wait {id : TypeId} (empty : types.get? id = none) :
    Slots types history (resolutions.insert key (.deferred id)) stack := by
  refine slots.turn (by simp) ?_ (by simp) (fun _ mem _ => mem) slots.below
  rintro _ ⟨⟩
  exact empty

end

/-- One key comes into a new state, and its frame, which is the youngest, ends. -/
theorem pop (slots : Slots types history resolutions (frame :: stack))
    (resolved : ∀ id, state = .resolved id → types.get? id ≠ none)
    (waiting : ∀ id, state = .deferred id → types.get? id = none) (sane : state ≠ .errored) :
    Slots types history (resolutions.insert frame.key state) stack := by
  refine slots.turn resolved waiting (fun errored => absurd errored sane) ?_ ?_
  · exact fun other mem different => (List.mem_cons.mp mem).resolve_left
      fun same => different (by rw [same])
  · exact fun other mem => slots.below other (List.mem_of_mem_tail mem)

/-- The youngest frame ends with its place filled, and its key stays as it is. -/
theorem drop (slots : Slots types history resolutions (frame :: stack))
    (own : ∀ id, Event.placed frame.key id ∈ history → types.get? id ≠ none) :
    Slots types history resolutions stack :=
  { slots with
    errored := by
      intro key id placed errored outside
      by_cases same : frame.key = key
      · rw [← same] at placed
        exact own id placed
      · refine slots.errored key id placed errored fun other mem => ?_
        rcases List.mem_cons.mp mem with rfl | mem
        · exact same
        · exact outside other mem
    below := fun other mem => slots.below other (List.mem_of_mem_tail mem) }

end Slots

/-- The tables of unions and of models written in place. -/
structure Tables (c : Checker) : Prop where
  intrinsic : ∀ kind, c.types.get? (TypeStore.intrinsic kind) = some (.intrinsic kind)
  error : c.types.get? TypeStore.error = some .error
  union : ∀ options id, c.types.unions.get? options = some id →
    c.types.get? id = some (.union options) ∧ c.isDependent id = options.any c.isDependent
  model : ∀ shape id, c.modelExpressions.get? shape = some id → c.isDependent id = false ∧
    ∃ properties, c.types.get? id = some (.model { properties }) ∧ shapeOf properties = shape

/-- Types and keys refer to what is in the store, no model has two properties of one name, what is
stored for a key is of its kind, and an operation belongs to a key and has its parameters. -/
structure Holdings (env : Environment) (c : Checker) : Prop where
  sound : ∀ id type, c.types.get? id = some type → type.Sound env c
  proper : ∀ key id, c.Placed key id → Proper env c key
  fits : ∀ key id type, c.Placed key id → c.types.get? id = some type →
    type.Fits (env.symbols.symbol key.symbol).kind
  reserved : ∀ key id, c.Placed key id → c.reserved.get? id = some key.symbol
  dependent : ∀ key id, c.Placed key id → c.isDependent id = key.args.any c.isDependent
  marked : ∀ id ∈ c.dependentTypes, 3 ≤ id.index ∧ c.Holds id
  distinct : ∀ id model, c.types.get? id = some (.model model) →
    (model.properties.map Property.name).Nodup
  owned : ∀ id operation, c.types.get? id = some (.operation operation) → (∃ key, c.Placed key id) ∧
    ∃ properties, c.types.get? operation.parameters = some (.model { properties })

/-- A key at which a cycle was found: it was asked for in full in the work on itself, by way of
others that were asked for in full, and that was reported. -/
structure Checker.Loops (env : Environment) (c : Checker) (key : ResolutionKey) : Prop where
  cyclic : c.Cyclic env key.symbol
  faulty : ¬ c.Faultless
  looped : Relation.TransGen c.Demands key key

theorem Checker.Loops.grows (grown : Grows before after) (loops : before.Loops env key) :
    after.Loops env key where
  cyclic := loops.cyclic.grows grown
  faulty := mt grown.faultless loops.faulty
  looped := loops.looped.lift id fun _ _ => Checker.Demands.grows grown

/-- The history tells how the keys came into their states: at one that is an error a cycle was found,
and one that is resolved has a type, which is marked if it is deprecated. -/
structure Recorded (env : Environment) (c : Checker) : Prop where
  traced : ∀ key state, c.resolutions.get? key = some state → .changed key state ∈ c.history
  errored : ∀ key, .changed key .errored ∈ c.history → c.Loops env key
  resolved : ∀ key id, .changed key (.resolved id) ∈ c.history → c.Placed key id ∧ c.Marked env id

/-- A state that a run can be in. -/
structure Consistent (env : Environment) (c : Checker) : Prop where
  ledger : Ledger c.history c.types.size
  keys : Keys c.history c.resolutions c.stack c.deferred
  unwinding : Unwinding c.stack c.abandoning
  linked : Linked c.history c.stack
  params : Params c.types c.history c.paramTypes c.dependentTypes
  slots : Slots c.types c.history c.resolutions c.stack
  tables : Tables c
  holdings : Holdings env c
  recorded : Recorded env c

namespace Consistent
variable {c : Checker}

section
variable (consistent : Consistent env c)
include consistent

theorem least : 3 ≤ c.types.size :=
  TypeStore.lt_size_of_get? consistent.tables.error

theorem holds_error : c.Holds TypeStore.error :=
  TypeStore.lt_size_of_get? consistent.tables.error

theorem there_error : ¬ c.Empty TypeStore.error := by
  rw [Checker.Empty, consistent.tables.error]
  nofun

theorem holds_placed {id : TypeId} (placed : c.Placed key id) : c.Holds id :=
  (consistent.ledger.held _ placed id rfl).2

theorem holds_param {id : TypeId} (own : c.paramTypes.get? param = some id) : c.Holds id :=
  (consistent.ledger.held _ ((consistent.params.listed param id).mpr own) id rfl).2

/-- A key without a state has no place. -/
theorem unplaced (new : c.resolutions.get? key = none) :
    ∀ event ∈ c.history, event.owner? ≠ some (.inl key) := by
  intro event mem owner
  cases event with
  | placed other id =>
    cases owner
    exact (consistent.keys.known key).mpr ⟨id, mem⟩ new
  | _ => cases owner

theorem unplacedParam (new : c.paramTypes.get? param = none) :
    ∀ event ∈ c.history, event.owner? ≠ some (.inr param) := by
  intro event mem owner
  cases event with
  | placedParam other id =>
    cases owner
    cases ((consistent.params.listed param id).mp mem).symm.trans new
  | _ => cases owner

private theorem step_ledger (step : Step env c after) : Ledger after.history after.types.size := by
  have ledger := consistent.ledger
  cases step with
  | alloc => exact (ledger.grow (Nat.le_of_lt (by simp [Checker.alloc]))).note rfl rfl
  | intern => exact ledger.grow (Nat.le_of_lt (by simp [Checker.internModel]))
  | union held new => exact ledger.grow (Grows.unionOf new).size
  | placeParam new =>
    simpa [Checker.placeParam] using
      ledger.hand consistent.least rfl rfl (consistent.unplacedParam new)
  | fillParam | fill => simpa [Checker.fill] using ledger.note rfl rfl
  | begin _ _ _ new | postpone _ new =>
    simpa [Checker.place, Checker.push, Checker.defer, Checker.setState, Checker.log] using
      (ledger.hand consistent.least rfl rfl (consistent.unplaced new)).note rfl rfl
  | note notes => exact ledger.note notes.owner? notes.place?
  | again | resume | postponeAgain | abandon | condemn | giveUp | complete | settle | answer | need =>
    exact ledger.note rfl rfl
  | _ => exact ledger

private theorem step_keys (step : Step env c after) :
    Keys after.history after.resolutions after.stack after.deferred := by
  have keys := consistent.keys
  cases step with
  | note notes => exact keys.note notes.not_placed
  | alloc | placeParam | fillParam | fill | settle | answer | need | abandon =>
    exact keys.note (by simp)
  | begin demand _ _ new => exact (keys.begin new demand).note (by simp)
  | again demand _ _ waiting => exact (keys.again waiting demand).note (by simp)
  | resume _ _ queued waiting =>
    rw [queued] at keys
    exact ((keys.again waiting _).dequeue (by simp)).note (by simp)
  | pass queued other =>
    rw [queued] at keys
    exact keys.dequeue other
  | postpone _ new => exact (keys.postpone new).note (by simp)
  | postponeAgain _ waiting => exact (keys.postponeAgain waiting).note (by simp)
  | requeue =>
    exact { keys with waiting := fun key id state =>
      (keys.waiting key id state).imp_right (List.mem_cons_of_mem _) }
  | @condemn _ _ frame _ stacked =>
    refine (keys.condemn (fun _ _ => consistent.ledger.placed_once) ?_).note (by simp)
    rw [stacked]
    simp
  | giveUp _ stacked =>
    rw [stacked] at keys
    refine (keys.pop (fun _ mem => ?_) (.inl ⟨rfl, List.mem_cons_self ..⟩)).note (by simp)
    exact List.mem_cons_of_mem _ mem
  | complete _ stacked =>
    rw [stacked] at keys
    exact (keys.pop (fun _ mem => mem) (.inr rfl)).note (by simp)
  | completeErrored _ stacked errored =>
    rw [stacked] at keys
    exact keys.completeErrored errored
  | _ => exact keys

private theorem step_unwinding (step : Step env c after) :
    Unwinding after.stack after.abandoning := by
  have unwinding := consistent.unwinding
  have nothing {stack : List Frame} {abandoning : Option Nat} (idle : abandoning = none) :
      Unwinding stack abandoning := by
    rw [idle]
    exact fun below given => nomatch given
  cases step with
  | begin _ idle | again _ idle | resume idle | complete idle | completeErrored idle =>
    exact nothing idle
  | abandon _ stacked _ reference =>
    rintro below given
    exact ⟨_, _, _, stacked, Option.some.inj given, reference⟩
  | @giveUp frame rest below given stacked =>
    rintro height found
    simp only [Checker.defer, Checker.setState, Checker.log] at found
    split at found
    · cases found
    · rename_i different
      obtain ⟨above, started, under, same, length, reference⟩ := unwinding height found
      rw [stacked] at same
      cases above with
      | nil =>
        cases same
        rw [found, length] at different
        exact absurd rfl different
      | cons top above => exact ⟨above, started, under, (List.cons.inj same).2, length, reference⟩
  | _ => exact unwinding

private theorem step_linked (step : Step env c after) : Linked after.history after.stack := by
  have linked := consistent.linked.grow fun _ mem => step.grows.history.subset mem
  cases step with
  | begin demand _ _ _ _ asked => exact linked.push (List.mem_cons_of_mem _ (List.mem_cons_of_mem _ asked))
  | again demand _ _ _ asked => exact linked.push (List.mem_cons_of_mem _ asked)
  | resume _ settled =>
    show Linked _ (_ :: c.stack)
    rw [settled]
    trivial
  | giveUp _ stacked | complete _ stacked | completeErrored _ stacked =>
    rw [stacked] at linked
    exact linked.tail
  | _ => exact linked

/-- A key that waits, or is under work, has an empty place that was handed out. -/
theorem holds_waiting {id : TypeId} (waiting : c.resolutions.get? key = some (.deferred id)) :
    c.Holds id :=
  consistent.holds_placed (consistent.keys.waiting key id waiting).1

theorem holds_frame (mem : frame ∈ c.stack) : c.Holds frame.id :=
  consistent.holds_placed (consistent.keys.frames frame mem).1

theorem top_placed (stacked : c.stack = frame :: rest) : c.Placed frame.key frame.id :=
  (consistent.keys.frames frame (by simp [stacked])).1

/-- The store gains a place, and nothing else happens to it. -/
private theorem slots_of_gain (same : ∀ id, c.Holds id → types.get? id = c.types.get? id)
    (events : ∀ event ∈ c.history, event ∈ history)
    (placed : ∀ key id, Event.placed key id ∈ history → c.resolutions.get? key = some .errored →
      Event.placed key id ∈ c.history)
    (gained : ∀ id, c.types.size ≤ id.index → id.index < types.size → types.get? id = none →
      ∃ event ∈ history, event.place? = some id) : Slots types history c.resolutions c.stack := by
  have slots := consistent.slots
  refine slots.store ?_ ?_ ?_ placed ?_
  · intro id filled
    obtain ⟨type, found⟩ := Option.ne_none_iff_exists'.mp filled
    rw [same id (TypeStore.lt_size_of_get? found)]
    exact filled
  · intro key id waiting
    rw [same id (consistent.holds_waiting waiting)]
    exact slots.waiting key id waiting
  · intro frame mem
    rw [same _ (consistent.holds_frame (List.mem_of_mem_tail mem))]
    exact slots.below frame mem
  · intro id inside empty
    by_cases held : c.Holds id
    · rw [same id held] at empty
      obtain ⟨event, mem, place⟩ := slots.empties id held empty
      exact ⟨event, events event mem, place⟩
    · exact gained id (Nat.le_of_not_lt held) inside empty

private theorem slots_alloc (type : CheckedType) :
    Slots (c.types.alloc type).2 c.history c.resolutions c.stack := by
  refine consistent.slots_of_gain ?_ (fun _ mem => mem) (fun _ _ placed _ => placed) ?_
  · intro id held
    rw [TypeStore.get?_alloc, if_neg (Nat.ne_of_lt held)]
  · intro id outside inside empty
    rw [TypeStore.size_alloc] at inside
    rw [TypeStore.get?_alloc, if_pos (by omega)] at empty
    cases empty

private theorem slots_reserve (place : event.place? = some ⟨c.types.size⟩)
    (placed : ∀ key id, event = .placed key id → c.resolutions.get? key ≠ some .errored) :
    Slots c.types.reserve.2 (event :: c.history) c.resolutions c.stack := by
  refine consistent.slots_of_gain (fun id _ => TypeStore.get?_reserve ..)
    (fun _ => List.mem_cons_of_mem _) ?_ ?_
  · intro key id mem errored
    rcases List.mem_cons.mp mem with same | earlier
    · exact absurd errored (placed key id same.symm)
    · exact earlier
  · intro id outside inside _
    rw [TypeStore.size_reserve] at inside
    refine ⟨event, List.mem_cons_self .., place.trans ?_⟩
    congr
    omega

private theorem slots_place (new : c.resolutions.get? key = none) :
    Slots c.types.reserve.2 (.placed key ⟨c.types.size⟩ :: c.history) c.resolutions c.stack := by
  refine consistent.slots_reserve rfl ?_
  rintro _ _ ⟨⟩ errored
  cases new.symm.trans errored

/-- An empty place that belongs to no key that waits or is under work below is filled. -/
private theorem slots_fill {id : TypeId} (held : c.Holds id) (empty : c.Empty id)
    (type : CheckedType) (idle : ∀ key, c.resolutions.get? key ≠ some (.deferred id))
    (below : ∀ frame ∈ c.stack.tail, frame.id ≠ id) :
    Slots (c.types.fill id type) c.history c.resolutions c.stack := by
  have slots := consistent.slots
  have filled := TypeStore.get?_fill held empty type
  refine slots.store ?_ ?_ ?_ (fun _ _ placed _ => placed) ?_
  · intro other present
    rw [filled]
    split
    · simp
    · exact present
  · intro key other waiting
    rw [filled, if_neg (by rintro rfl; exact idle key waiting)]
    exact slots.waiting key other waiting
  · intro frame mem
    rw [filled, if_neg (below frame mem)]
    exact slots.below frame mem
  · intro other inside vacant
    rw [filled] at vacant
    split at vacant
    · cases vacant
    · exact slots.empties other (by simpa using inside) vacant

/-- No frame below the youngest one has the place of the youngest. -/
theorem below_apart (stacked : c.stack = frame :: rest) : ∀ other ∈ rest, other.id ≠ frame.id := by
  have keys := consistent.keys
  rw [stacked] at keys
  intro other mem same
  have placed := (keys.frames other (List.mem_cons_of_mem _ mem)).1
  rw [same] at placed
  have own := (keys.frames frame (List.mem_cons_self ..)).1
  exact keys.outside other mem (consistent.ledger.placed_apart placed own)

private theorem step_slots (step : Step env c after) :
    Slots after.types after.history after.resolutions after.stack := by
  have slots := consistent.slots
  have keys := consistent.keys
  cases step with
  | alloc => exact (consistent.slots_alloc _).note (by simp)
  | intern => exact consistent.slots_alloc _
  | union _ new =>
    simp only [Checker.unionOf, TypeStore.internUnion, new]
    exact { consistent.slots_alloc (.union _) with }
  | placeParam => exact consistent.slots_reserve rfl (by simp)
  | @fillParam param id _ _ own empty =>
    have event := (consistent.params.listed param id).mpr own
    refine (consistent.slots_fill (consistent.holds_param own) empty _ ?_ ?_).note (by simp)
    · exact fun key waiting => consistent.ledger.param_apart (keys.waiting key id waiting).1 event
    · rintro frame mem rfl
      exact consistent.ledger.param_apart (keys.frames frame (List.mem_of_mem_tail mem)).1 event
  | begin demand _ unfilled new =>
    refine ((consistent.slots_place new).push (fun frame mem => ?_) demand).note (by simp)
    rw [TypeStore.get?_reserve]
    exact unfilled frame mem
  | again demand _ unfilled => exact (slots.push unfilled demand).note (by simp)
  | resume _ settled =>
    refine (slots.push (fun frame mem => ?_) .reference).note (by simp)
    rw [settled] at mem
    cases mem
  | postpone _ new =>
    exact ((consistent.slots_place new).wait c.types.vacant_reserve).note (by simp)
  | postponeAgain _ waiting => exact (slots.wait (slots.waiting _ _ waiting)).note (by simp)
  | condemn _ stacked =>
    refine (slots.turn ?_ ?_ ?_ (fun _ mem _ => mem) slots.below).note (by simp)
    · simp
    · simp
    · exact fun _ => ⟨_, by simp [stacked], rfl⟩
  | @fill frame rest type _ stacked empty =>
    have mem : frame ∈ c.stack := by simp [stacked]
    refine (consistent.slots_fill (consistent.holds_frame mem) empty _ ?_ ?_).note (by simp)
    · intro key waiting
      have same := consistent.ledger.placed_apart (keys.waiting key _ waiting).1
        (keys.frames frame mem).1
      subst same
      rcases (keys.frames frame mem).2 with state | state <;>
        · cases waiting.symm.trans state
    · rw [stacked]
      exact consistent.below_apart stacked
  | giveUp _ stacked _ empty =>
    rw [stacked] at slots
    refine (slots.pop ?_ ?_ ?_).note (by simp)
    · simp
    · rintro id same
      cases same
      exact empty
    · simp
  | complete _ stacked _ stored =>
    rw [stacked] at slots
    refine (slots.pop ?_ ?_ ?_).note (by simp)
    · rintro id same
      cases same
      simp [stored]
    · simp
    · simp
  | @completeErrored frame rest type _ stacked _ stored =>
    have own := consistent.top_placed stacked
    rw [stacked] at slots
    refine slots.drop fun id placed => ?_
    rw [consistent.ledger.placed_once placed own]
    simp [stored]
  | note notes => exact slots.note notes.not_placed
  | abandon | settle | answer | need => exact slots.note (by simp)
  | _ => exact slots

end

/-! How a type comes to be in the store, a key into its state, and a place to belong to a key. -/

/-- A type was in the store before, or one step puts it there. -/
inductive Stores (env : Environment) (c after : Checker) (id : TypeId) : CheckedType → Prop where
  | kept {type} (found : c.types.get? id = some type) : Stores env c after id type
  | model {properties} (fresh : id = ⟨c.types.size⟩)
      (sound : ∀ property ∈ properties, property.Sound env c)
      (distinct : (properties.map Property.name).Nodup) :
      Stores env c after id (.model { properties })
  | union {options} (fresh : id = ⟨c.types.size⟩) (held : ∀ option ∈ options, c.Holds option)
      (once : options.Nodup) (some : options ≠ [])
      (listed : after.types.unions.get? options = .some id) :
      Stores env c after id (.union options)
  | param {param name default} (own : c.paramTypes.get? param = some id)
      (held : ∀ other ∈ default, c.Holds other) :
      Stores env c after id (.templateParameter ⟨name, param, default⟩)
  | declared {frame rest type} (stacked : c.stack = frame :: rest) (place : frame.id = id)
      (completes : Completes env c frame type) (empty : c.Empty id)
      (filled : after = c.fill id type) : Stores env c after id type

/-- The state of a key was changed before, or one step changes it. -/
inductive Changes (env : Environment) (c : Checker) (key : ResolutionKey) :
    ResolutionState → Prop where
  | kept {state} (before : .changed key state ∈ c.history) : Changes env c key state
  | started {id} : Changes env c key (.resolving id)
  | condemned (loops : c.Loops env key) : Changes env c key .errored
  | resolved {frame rest} (stacked : c.stack = frame :: rest) (named : frame.key = key)
      (marked : c.Marked env frame.id) : Changes env c key (.resolved frame.id)
  | postponed {id} (unwinding : c.abandoning ≠ none)
      (asked : ∃ demand, .asked c.worker key demand ∈ c.history) : Changes env c key (.deferred id)
  | givenUp {frame rest below} (unwinding : c.abandoning = some below)
      (stacked : c.stack = frame :: rest) (named : frame.key = key) (inside : below ≤ rest.length) :
      Changes env c key (.deferred frame.id)

/-- A place belonged to a key before, or is handed out for it now. -/
inductive Places (env : Environment) (c after : Checker) (key : ResolutionKey) (id : TypeId) :
    Prop where
  | kept (placed : c.Placed key id)
  | handed (fresh : id = ⟨c.types.size⟩) (proper : Proper env c key)
      (empty : after.types = c.types.reserve.2)
      (reserved : after.reserved = c.reserved.insert id key.symbol)
      (dependent : after.dependentTypes = (c.place env.symbols key).2.dependentTypes)

theorem stores_alloc {id : TypeId} (stored : (c.types.alloc type).2.get? id = some found) :
    c.types.get? id = some found ∨ id = ⟨c.types.size⟩ ∧ found = type := by
  rw [TypeStore.get?_alloc] at stored
  split at stored
  · rename_i last
    exact .inr ⟨by rw [← last], (Option.some.inj stored).symm⟩
  · exact .inl stored

theorem stores_fill {id : TypeId} (held : c.Holds other) (empty : c.Empty other)
    (stored : (c.types.fill other type).get? id = some found) :
    c.types.get? id = some found ∨ id = other ∧ found = type := by
  rw [TypeStore.get?_fill held empty] at stored
  split at stored
  · exact .inr ⟨‹_›, (Option.some.inj stored).symm⟩
  · exact .inl stored

theorem stores (consistent : Consistent env c) (step : Step env c after) {id : TypeId}
    (found : after.types.get? id = some type) : Stores env c after id type := by
  cases step with
  | alloc _ _ sound _ distinct | intern sound _ _ distinct =>
    rcases stores_alloc found with old | ⟨fresh, rfl⟩
    · exact .kept old
    · exact .model fresh sound distinct
  | @union options held new once some =>
    simp only [Checker.unionOf, TypeStore.internUnion, new] at found
    replace found : (c.types.alloc (.union options)).2.get? id = .some type := found
    rcases stores_alloc found with old | ⟨fresh, rfl⟩
    · exact .kept old
    · refine .union fresh held once some ?_
      simp only [Checker.unionOf, TypeStore.internUnion, new, fresh]
      exact Dictionary.get?_insert_self ..
  | fillParam own empty held =>
    rcases stores_fill (consistent.holds_param own) empty found with old | ⟨rfl, rfl⟩
    · exact .kept old
    · exact .param own held
  | @fill frame rest _ _ stacked empty completes =>
    have mem : frame ∈ c.stack := by simp [stacked]
    rcases stores_fill (consistent.holds_frame mem) empty found with old | ⟨rfl, rfl⟩
    · exact .kept old
    · exact .declared stacked rfl completes empty rfl
  | placeParam | begin | postpone => exact .kept ((TypeStore.get?_reserve _ _).symm.trans found)
  | _ => exact .kept found

theorem places (step : Step env c after) {id : TypeId} (placed : after.Placed key id) :
    Places env c after key id := by
  have earlier {event : Event} (other : event ≠ .placed key id)
      (placed : Event.placed key id ∈ event :: c.history) : Places env c after key id :=
    .kept ((List.mem_cons.mp placed).resolve_left other.symm)
  cases step with
  | begin _ _ _ new proper | postpone _ new proper =>
    rcases List.mem_cons.mp placed with same | placed
    · cases same
    · rcases List.mem_cons.mp placed with same | placed
      · cases same
        exact .handed rfl proper rfl rfl rfl
      · exact .kept placed
  | note notes => exact earlier (notes.not_placed key id) placed
  | alloc | placeParam | fillParam | again | resume | postponeAgain | abandon | condemn | fill | giveUp
  | complete | settle | answer | need => exact earlier (by simp) placed
  | _ => exact .kept placed

theorem changes (step : Step env c after) (mem : .changed key state ∈ after.history) :
    Changes env c key state := by
  have earlier {event : Event} (other : event ≠ .changed key state)
      (mem : .changed key state ∈ event :: c.history) : Changes env c key state :=
    .kept ((List.mem_cons.mp mem).resolve_left other.symm)
  have changed {other : ResolutionKey} {next : ResolutionState} {history : List Event}
      (new : Changes env c other next) (old : .changed key state ∈ history → Changes env c key state)
      (mem : .changed key state ∈ .changed other next :: history) : Changes env c key state := by
    rcases List.mem_cons.mp mem with same | mem
    · cases same
      exact new
    · exact old mem
  cases step with
  | begin => exact changed .started (earlier (by simp)) mem
  | again | resume => exact changed .started .kept mem
  | postpone unwinding _ _ asked =>
    exact changed (.postponed unwinding asked) (earlier (by simp)) mem
  | postponeAgain unwinding _ asked => exact changed (.postponed unwinding asked) .kept mem
  | condemn _ _ _ cyclic faulty looped =>
    exact changed (.condemned ⟨cyclic, faulty, looped⟩) .kept mem
  | giveUp unwinding stacked inside =>
    exact changed (.givenUp unwinding stacked rfl inside) .kept mem
  | complete _ stacked _ _ _ marked => exact changed (.resolved stacked rfl marked) .kept mem
  | note notes => exact earlier (by rintro rfl; cases notes) mem
  | alloc | placeParam | fillParam | fill | abandon | settle | answer | need =>
    exact earlier (by simp) mem
  | _ => exact .kept mem

/-- What is stored for a key was stored before, or is put there by the work on the key. -/
theorem stores_key (consistent : Consistent env c) (step : Step env c after) {id : TypeId}
    (placed : after.Placed key id) (found : after.types.get? id = some type) :
    (c.Placed key id ∧ c.types.get? id = some type) ∨
      ∃ frame rest, c.stack = frame :: rest ∧ frame.key = key ∧ frame.id = id ∧
        Completes env c frame type ∧ c.Empty id ∧ after = c.fill id type := by
  cases places step placed with
  | handed fresh _ empty =>
    rw [empty, fresh, TypeStore.vacant_reserve] at found
    cases found
  | kept placed =>
    cases consistent.stores step found with
    | kept found => exact .inl ⟨placed, found⟩
    | model fresh | union fresh =>
      have held := consistent.holds_placed placed
      rw [fresh] at held
      exact absurd held (Nat.lt_irrefl _)
    | param own =>
      exact (consistent.ledger.param_apart placed ((consistent.params.listed _ id).mpr own)).elim
    | @declared frame rest _ stacked place completes empty filled =>
      have own := consistent.top_placed stacked
      rw [place] at own
      exact .inr ⟨frame, rest, stacked, consistent.ledger.placed_apart own placed, place, completes,
        empty, filled⟩

/-- A parameter had its place before, or is given it now. -/
theorem parametrizes (step : Step env c after) {id : TypeId}
    (own : after.paramTypes.get? param = some id) :
    c.paramTypes.get? param = some id ∨
      id = ⟨c.types.size⟩ ∧ after.types = c.types.reserve.2 ∧ id ∈ after.dependentTypes := by
  cases step with
  | placeParam =>
    simp only [Checker.placeParam, Dictionary.get?_insert] at own
    split at own
    · exact .inr ⟨(Option.some.inj own).symm, rfl, by simp [Checker.placeParam, Option.some.inj own]⟩
    · exact .inl own
  | _ => exact .inl own

private theorem step_listed (consistent : Consistent env c) (step : Step env c after)
    (param : SymbolId) (id : TypeId) :
    Event.placedParam param id ∈ after.history ↔ after.paramTypes.get? param = some id := by
  have before := consistent.params.listed param id
  cases step with
  | @placeParam other new =>
    simp only [Checker.placeParam, List.mem_cons, Dictionary.get?_insert]
    split
    · rename_i same
      subst same
      rw [before, new]
      simp [eq_comm]
    · rename_i different
      simp [before, Ne.symm different]
  | note notes =>
    exact (List.mem_cons.trans (or_iff_right (notes.not_placedParam param id).symm)).trans before
  | alloc | fillParam | begin | again | resume | postpone | postponeAgain | abandon | condemn | fill
  | giveUp | complete | settle | answer | need =>
    simp [Checker.alloc, Checker.fill, Checker.push, Checker.place, Checker.defer, Checker.setState,
      Checker.need, Checker.log, before]
  | _ => exact before

private theorem step_params (consistent : Consistent env c) (step : Step env c after) :
    Params after.types after.history after.paramTypes after.dependentTypes where
  listed := consistent.step_listed step
  stored := by
    intro param id type own found
    rcases parametrizes step own with old | ⟨fresh, types, _⟩
    · have event := (consistent.params.listed param id).mpr old
      cases consistent.stores step found with
      | kept found => exact consistent.params.stored param id type old found
      | model fresh | union fresh =>
        have held := consistent.holds_param old
        rw [fresh] at held
        exact absurd held (Nat.lt_irrefl _)
      | @param other name default others =>
        cases consistent.ledger.apart _ event _ ((consistent.params.listed other id).mpr others)
          id rfl rfl
        exact ⟨name, default, rfl⟩
      | @declared frame rest _ stacked place =>
        have placed := consistent.top_placed stacked
        rw [place] at placed
        exact (consistent.ledger.param_apart placed event).elim
    · rw [types, fresh, TypeStore.vacant_reserve] at found
      cases found
  origin := by
    intro id param found
    cases consistent.stores step found with
    | kept found => exact step.grows.params _ _ (consistent.params.origin id param found)
    | param own => exact step.grows.params _ _ own
    | declared _ _ completes => cases completes.fits
  dependent := by
    intro param id own
    rcases parametrizes step own with old | ⟨_, _, dependent⟩
    · exact (step.grows.dependent id (consistent.holds_param old)).mpr
        (consistent.params.dependent param id old)
    · exact dependent

private theorem step_reserved (step : Step env c after) {id : TypeId} (held : c.Holds id) :
    after.reserved.get? id = c.reserved.get? id := by
  have kept (symbol : SymbolId) :
      (c.reserved.insert ⟨c.types.size⟩ symbol).get? id = c.reserved.get? id := by
    refine Dictionary.get?_insert_of_ne _ ?_ _
    rintro rfl
    exact Nat.lt_irrefl _ held
  cases step with
  | begin | postpone => exact kept _
  | _ => rfl

/-- What is marked as mentioning a parameter was marked before, or is the place gained now. -/
private theorem step_marked (step : Step env c after) {id : TypeId}
    (mem : id ∈ after.dependentTypes) :
    id ∈ c.dependentTypes ∨ id = ⟨c.types.size⟩ ∧ after.types.size = c.types.size + 1 := by
  have gained {mark : Prop} [Decidable mark] {size : Nat} (more : size = c.types.size + 1)
      (given : id ∈ if mark then ⟨c.types.size⟩ :: c.dependentTypes else c.dependentTypes) :
      id ∈ c.dependentTypes ∨ id = ⟨c.types.size⟩ ∧ size = c.types.size + 1 := by
    split at given
    · exact (List.mem_cons.mp given).symm.imp_right fun same => ⟨same, more⟩
    · exact .inl given
  cases step with
  | alloc => exact gained (TypeStore.size_alloc ..) mem
  | @union options _ new =>
    simp only [Checker.unionOf, TypeStore.internUnion, new] at mem ⊢
    exact gained (TypeStore.size_alloc c.types (.union options)) mem
  | placeParam =>
    exact (List.mem_cons.mp mem).symm.imp_right fun same => ⟨same, TypeStore.size_reserve _⟩
  | begin | postpone => exact gained (TypeStore.size_reserve _) mem
  | _ => exact .inl mem

private theorem unmarked (consistent : Consistent env c) :
    (⟨c.types.size⟩ : TypeId) ∉ c.dependentTypes :=
  fun mem => Nat.lt_irrefl _ (consistent.holdings.marked _ mem).2

/-- A place that is handed out is marked for what it is handed out for, and no other reason. -/
theorem marks (consistent : Consistent env c) (mark : Bool) :
    decide ((⟨c.types.size⟩ : TypeId) ∈
      if mark then ⟨c.types.size⟩ :: c.dependentTypes else c.dependentTypes) = mark := by
  cases mark <;> simp [consistent.unmarked]

private theorem step_holdings (consistent : Consistent env c) (step : Step env c after) :
    Holdings env after where
  sound := by
    intro id type found
    have grown := step.grows
    cases consistent.stores step found with
    | kept found => exact (consistent.holdings.sound id type found).grows grown
    | model _ sound =>
      exact ⟨fun property mem => (sound property mem).grows grown, nofun, nofun, nofun, nofun⟩
    | union _ held => exact fun option mem => grown.holds (held option mem)
    | param _ held => exact fun other mem => grown.holds (held other mem)
    | declared _ _ completes => exact completes.sound.grows grown
  proper := by
    intro key id placed
    cases places step placed with
    | kept placed => exact (consistent.holdings.proper key id placed).grows step.grows
    | handed _ proper => exact proper.grows step.grows
  fits := by
    intro key id type placed found
    rcases consistent.stores_key step placed found with
      ⟨placed, found⟩ | ⟨frame, _, _, rfl, _, completes, _⟩
    · exact consistent.holdings.fits key id type placed found
    · exact completes.fits
  reserved := by
    intro key id placed
    cases places step placed with
    | kept placed =>
      rw [step_reserved step (consistent.holds_placed placed)]
      exact consistent.holdings.reserved key id placed
    | handed _ _ _ reserved =>
      rw [reserved, Dictionary.get?_insert_self]
  dependent := by
    intro key id placed
    cases places step placed with
    | kept placed =>
      have proper := consistent.holdings.proper key id placed
      rw [step.grows.isDependent (consistent.holds_placed placed),
        step.grows.anyDependent proper.held]
      exact consistent.holdings.dependent key id placed
    | handed fresh proper _ _ dependent =>
      rw [step.grows.anyDependent proper.held]
      simp only [Checker.isDependent, dependent, fresh]
      exact consistent.marks (key.args.any c.isDependent)
  marked := by
    intro id mem
    rcases step_marked step mem with old | ⟨rfl, more⟩
    · exact (consistent.holdings.marked id old).imp_right step.grows.holds
    · exact ⟨consistent.least, by simp [Checker.Holds, more]⟩
  distinct := by
    intro id model found
    cases consistent.stores step found with
    | kept found => exact consistent.holdings.distinct id model found
    | model _ _ distinct => exact distinct
    | declared _ _ completes => exact completes.distinct model rfl
  owned := by
    intro id operation found
    have grown := step.grows
    cases consistent.stores step found with
    | kept found =>
      obtain ⟨⟨key, placed⟩, properties, stored⟩ := consistent.holdings.owned id operation found
      exact ⟨⟨key, grown.placed placed⟩, properties, grown.filled _ _ stored⟩
    | @declared frame rest _ stacked place completes =>
      have placed := consistent.top_placed stacked
      obtain ⟨properties, stored⟩ := completes.composes.parameters
      exact ⟨⟨frame.key, place ▸ grown.placed placed⟩, properties, grown.filled _ _ stored⟩

private theorem step_tables (consistent : Consistent env c) (step : Step env c after) :
    Tables after where
  intrinsic := fun kind => step.grows.filled _ _ (consistent.tables.intrinsic kind)
  error := step.grows.filled _ _ consistent.tables.error
  union := by
    intro options id stored
    have old (before : c.types.unions.get? options = some id) :
        after.types.get? id = some (.union options) ∧
          after.isDependent id = options.any after.isDependent := by
      obtain ⟨found, same⟩ := consistent.tables.union options id before
      have held : ∀ option ∈ options, c.Holds option := consistent.holdings.sound id _ found
      rw [step.grows.isDependent (TypeStore.lt_size_of_get? found), step.grows.anyDependent held]
      exact ⟨step.grows.filled _ _ found, same⟩
    cases step with
    | @union parts held new =>
      have grown : Grows c (c.unionOf parts).2 := .unionOf new
      simp only [Checker.unionOf, TypeStore.internUnion, new, Dictionary.get?_insert] at stored
      split at stored
      · rename_i same
        subst same
        rw [grown.anyDependent held]
        cases stored
        simp only [Checker.isDependent, Checker.unionOf, TypeStore.internUnion, new]
        refine ⟨TypeStore.get?_alloc_self c.types (.union parts), ?_⟩
        simpa [TypeStore.alloc, consistent.unmarked] using consistent.marks (parts.any c.isDependent)
      · exact old stored
    | _ => exact old stored
  model := by
    intro shape id stored
    have old (before : c.modelExpressions.get? shape = some id) : after.isDependent id = false ∧
        ∃ properties, after.types.get? id = some (.model { properties }) ∧
          shapeOf properties = shape := by
      obtain ⟨plain, properties, found, same⟩ := consistent.tables.model shape id before
      rw [step.grows.isDependent (TypeStore.lt_size_of_get? found)]
      exact ⟨plain, properties, step.grows.filled _ _ found, same⟩
    cases step with
    | @intern properties _ _ new =>
      simp only [Checker.internModel, Dictionary.get?_insert] at stored
      split at stored
      · cases stored
        exact ⟨decide_eq_false consistent.unmarked, properties, TypeStore.get?_alloc_self .., ‹_›⟩
      · exact old stored
    | _ => exact old stored

private theorem step_keepsMarks (step : Step env c after) (builtin : env.library = Builtin.library) :
    c.KeepsMarks after := by
  cases step with
  | annotate _ _ kept => exact kept builtin
  | _ => exact fun _ marks => marks

private theorem step_marks (step : Step env c after) {id : TypeId} (marked : c.Marked env id) :
    after.Marked env id := by
  obtain ⟨type, stored, marks⟩ := marked
  refine ⟨type, step.grows.filled _ _ stored, fun builtin concrete deprecated => ?_⟩
  apply step_keepsMarks step builtin
  apply marks builtin _ deprecated
  rw [← step.grows.dependent _ (TypeStore.lt_size_of_get? stored)]
  exact concrete

section
variable (consistent : Consistent env c)
include consistent

section
variable (step : Step env c after) (key : ResolutionKey)
include step

private theorem step_traced
    (state : ResolutionState) (found : after.resolutions.get? key = some state) :
    .changed key state ∈ after.history := by
  have old (before : c.resolutions.get? key = some state) : .changed key state ∈ after.history :=
    step.grows.history.subset (consistent.recorded.traced key state before)
  have changed {other : ResolutionKey} {next : ResolutionState}
      (given : (c.resolutions.insert other next).get? key = some state)
      (new : .changed other next ∈ after.history) : .changed key state ∈ after.history := by
    rw [Dictionary.get?_insert] at given
    split at given
    · rename_i same
      rw [← same, ← Option.some.inj given]
      exact new
    · exact old given
  cases step with
  | begin | again | resume | postpone | postponeAgain | condemn | giveUp | complete =>
    exact changed found (List.mem_cons_self ..)
  | _ => exact old found

private theorem step_errored
    (mem : .changed key .errored ∈ after.history) : after.Loops env key := by
  cases changes step mem with
  | kept before => exact (consistent.recorded.errored key before).grows step.grows
  | condemned loops => exact loops.grows step.grows

private theorem step_resolved (id : TypeId) (mem : .changed key (.resolved id) ∈ after.history) :
    after.Placed key id ∧ after.Marked env id := by
  have later (placed : c.Placed key id) (marked : c.Marked env id) :
      after.Placed key id ∧ after.Marked env id :=
    ⟨step.grows.placed placed, step_marks step marked⟩
  cases changes step mem with
  | kept before =>
    obtain ⟨placed, marked⟩ := consistent.recorded.resolved key id before
    exact later placed marked
  | @resolved frame rest stacked named marked =>
    have placed := consistent.top_placed stacked
    rw [named] at placed
    exact later placed marked

end

/-- What holds in every state of a run is kept by each step. -/
theorem step (step : Step env c after) : Consistent env after where
  ledger := consistent.step_ledger step
  keys := consistent.step_keys step
  unwinding := consistent.step_unwinding step
  linked := consistent.step_linked step
  params := consistent.step_params step
  slots := consistent.step_slots step
  tables := consistent.step_tables step
  holdings := consistent.step_holdings step
  recorded :=
    { traced := consistent.step_traced step
      errored := consistent.step_errored step
      resolved := consistent.step_resolved step }

/-- A key that is an error was reported. -/
theorem reported (key : ResolutionKey) (errored : c.resolutions.get? key = some .errored) :
    c.Cyclic env key.symbol ∧ ¬ c.Faultless := by
  have loops := consistent.recorded.errored key (consistent.recorded.traced key _ errored)
  exact ⟨loops.cyclic, loops.faulty⟩

theorem steps (steps : Steps env c after) : Consistent env after := by
  induction steps with
  | refl => exact consistent
  | tail _ step ih => exact ih.step step

end

/-- A further property of states is kept by a run if each step from a state of a run keeps it. -/
theorem preserves (holds : Checker → Prop) (consistent : Consistent env c) (held : holds c)
    (kept : ∀ before after, Consistent env before → Step env before after → holds before →
      holds after) (steps : Steps env c after) : holds after := by
  induction steps with
  | refl => exact held
  | tail earlier step ih => exact kept _ _ (consistent.steps earlier) step ih

end Consistent

/-- The store starts with the types that every program has. -/
theorem TypeStore.get?_empty {id : TypeId} (found : TypeStore.empty.get? id = some type) :
    (∃ kind, type = .intrinsic kind) ∨ type = .error := by
  obtain ⟨index⟩ := id
  match index with
  | 0 => exact .inl ⟨.void, (Option.some.inj found).symm⟩
  | 1 => exact .inl ⟨.never, (Option.some.inj found).symm⟩
  | 2 => exact .inr (Option.some.inj found).symm
  | _ + 3 => cases found

/-- Nothing has happened when a run starts. -/
theorem consistent_start (env : Environment) : Consistent env {} where
  ledger := ⟨by simp, by simp, by simp⟩
  keys := ⟨by simp, nofun, nofun, nofun, nofun, List.nodup_nil⟩
  unwinding := nofun
  linked := trivial
  params :=
    { listed := by simp
      stored := nofun
      origin := by
        intro id param found
        rcases TypeStore.get?_empty found with ⟨kind, same⟩ | same <;> cases same
      dependent := nofun }
  slots :=
    { resolved := nofun
      waiting := nofun
      errored := nofun
      below := nofun
      empties := by
        intro id inside empty
        obtain ⟨index⟩ := id
        rcases index with _ | _ | _ | more
        · cases empty
        · cases empty
        · cases empty
        · exact absurd inside (by simp [TypeStore.size, TypeStore.empty]) }
  tables :=
    { intrinsic := fun kind => by cases kind <;> rfl
      error := rfl
      union := nofun
      model := nofun }
  holdings :=
    { sound := by
        intro id type found
        rcases TypeStore.get?_empty found with ⟨kind, rfl⟩ | rfl <;> trivial
      proper := nofun
      fits := nofun
      reserved := nofun
      dependent := nofun
      marked := nofun
      distinct := by
        intro id model found
        rcases TypeStore.get?_empty found with ⟨kind, same⟩ | same <;> cases same
      owned := by
        intro id operation found
        rcases TypeStore.get?_empty found with ⟨kind, same⟩ | same <;> cases same }
  recorded := ⟨nofun, nofun, nofun⟩

end Idl
