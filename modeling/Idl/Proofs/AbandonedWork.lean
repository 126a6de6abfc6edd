import Idl.Proofs.ResolutionIdentity

/-! What is left of work that was given up. An attempt at a declaration that is
given up may have made instances of templates and models written in place, and they
stay in the tables. But no declaration leads to them: whatever the type of a
declaration leads to, the instances and the models written in place there were
given by a type expression in work that was kept. -/
namespace Idl
variable {id : TypeId}

namespace Checker

/-- A place is what a type expression gave in work that was not given up. -/
def Kept (c : Checker) (id : TypeId) : Prop := ∃ worker, c.Yields worker id

/-- A model that is written in place: it has no name, and is not the parameters of an operation. -/
def Inline (c : Checker) (id : TypeId) : Prop :=
  (∃ properties, c.types.get? id = some (.model { properties })) ∧
    ∀ operation, .nameless (some operation) id ∉ c.history

/-- Among some places, the instances of templates and the models written in place that decorators
have annotated were given in work that was kept. -/
structure LeavesNoTrace (c : Checker) (among : TypeId → Prop) : Prop where
  instances : ∀ symbol args id, among id → c.instances.get? symbol args = some id → c.Kept id
  annotated : ∀ key target, among target.typeId → c.Inline target.typeId →
    c.annotations.contains key target = true → c.Kept target.typeId

/-- The type of a declaration leads to a place. -/
def Reached (env : Environment) (c : Checker) (id : TypeId) : Prop :=
  ∃ symbol root, c.symbolTypes.get? symbol = some root ∧
    Relation.ReflTransGen (c.Links env) root id

/-- The type of a key is stored. -/
def Done (c : Checker) (key : ResolutionKey) : Prop := ∃ id, c.Placed key id ∧ ¬ c.Empty id

/-- A place that was given in work that cannot be given up any more. -/
def Secured (c : Checker) (id : TypeId) : Prop :=
  ∃ worker, c.Yields worker id ∧ ∀ key ∈ worker, c.Done key

/-- A set of places that has a place if it has what the place was made of, and the place was
secured. It has the parts of a place that it has. -/
structure Hereditary (env : Environment) (c : Checker) (good : TypeId → Prop) : Prop where
  intrinsic : ∀ kind, good (TypeStore.intrinsic kind)
  error : good TypeStore.error
  param : ∀ param id, c.paramTypes.get? param = some id → good id
  plain : ∀ symbol id, c.Placed ⟨symbol, []⟩ id → good id
  applied : ∀ key id, c.Placed key id → c.Secured id → (∀ arg ∈ key.args, good arg) → good id
  union : ∀ options id, c.types.unions.get? options = some id →
    (∀ option ∈ options, good option) → good id
  model : ∀ properties id, c.types.get? id = some (.model { properties }) → c.Secured id →
    (∀ property ∈ properties, good property.type) → good id
  parameters : ∀ operation properties id, c.types.get? id = some (.model { properties }) →
    .nameless (some operation) id ∈ c.history →
    (∀ property ∈ properties, good property.type) → good id
  args : ∀ key id, c.Placed key id → good id → ∀ arg ∈ key.args, good arg
  options : ∀ options id, c.types.get? id = some (.union options) → good id →
    ∀ option ∈ options, good option
  properties : ∀ properties id, c.types.get? id = some (.model { properties }) → good id →
    ∀ property ∈ properties, good property.type

/-- The types at the places of such a set lead to places of the set. -/
def Contained (env : Environment) (c : Checker) : Prop :=
  ∀ good, c.Hereditary env good → ∀ id other, good id → c.Links env id other → good other

end Checker

section
variable (consistent : Consistent env c) (next : Step env c after)
include consistent next

/-- A key whose type is stored is not put off. -/
private theorem Consistent.spares_done
    {worker : Option ResolutionKey} (done : ∀ key ∈ worker, c.Done key) :
    ∃ added, after.history = added ++ c.history ∧
      ∀ key ∈ worker, ∀ place, .changed key (.deferred place) ∉ added := by
  -- only keys whose places are empty are put off
  have off {other : ResolutionKey} (empty : ∀ id, c.Placed other id → c.Empty id) :
      ∀ key ∈ worker, key ≠ other := by
    rintro key own rfl
    obtain ⟨id, placed, filled⟩ := done key own
    exact filled (empty id placed)
  cases next with
  | report | annotate | descend | ascend | assign | intern | union | pass | requeue
  | completeErrored => exact ⟨[], rfl, by simp⟩
  | note notes =>
    refine ⟨[_], rfl, fun key _ place mem => ?_⟩
    cases notes <;> simp at mem
  | alloc | placeParam | fillParam | again | resume | abandon | condemn | fill | complete | settle
  | answer | need => exact ⟨[_], rfl, by simp⟩
  | begin => exact ⟨[_, _], rfl, by simp⟩
  | postpone _ new =>
    have others := off fun id placed => absurd placed (by
      intro placed
      exact (consistent.keys.known _).mpr ⟨id, placed⟩ new)
    refine ⟨[_, _], rfl, fun key own place mem => ?_⟩
    simp [others key own] at mem
  | postponeAgain _ waiting =>
    have own := (consistent.keys.waiting _ _ waiting).1
    have others := off fun id placed => by
      rw [consistent.ledger.placed_once placed own]
      exact consistent.slots.waiting _ _ waiting
    refine ⟨[_], rfl, fun key own place mem => ?_⟩
    simp [others key own] at mem
  | @giveUp frame rest _ _ stacked _ empty =>
    have own := consistent.top_placed stacked
    have others := off fun id placed => by
      rw [consistent.ledger.placed_once placed own]
      exact empty
    refine ⟨[_], rfl, fun key own place mem => ?_⟩
    simp [others key own] at mem

/-- What was kept in the work on a key stays kept once its type is stored. -/
theorem Consistent.retains {worker : Option ResolutionKey} (done : ∀ key ∈ worker, c.Done key) :
    Checker.Retains worker c after where
  grows := next.grows
  keeps := by
    obtain ⟨added, history, spared⟩ := consistent.spares_done next done
    intro event keeps
    exact keeps.later history spared

theorem Checker.Secured.step (secured : c.Secured id) : after.Secured id := by
  obtain ⟨worker, ⟨expr, kept⟩, done⟩ := secured
  have still := (consistent.retains next done).keeps _ kept
  refine ⟨worker, ⟨expr, still⟩, fun key own => ?_⟩
  obtain ⟨id, placed, filled⟩ := done key own
  exact ⟨id, next.grows.placed placed, mt next.grows.empty_before filled⟩

/-- What is asked of a set of places is no more before a step than after it. -/
private theorem Checker.Hereditary.before
    (hereditary : after.Hereditary env good) : c.Hereditary env good where
  intrinsic := hereditary.intrinsic
  error := hereditary.error
  param := fun param id own => hereditary.param param id (next.grows.params _ _ own)
  plain := fun symbol id placed => hereditary.plain symbol id (next.grows.placed placed)
  applied := fun key id placed secured =>
    hereditary.applied key id (next.grows.placed placed) (secured.step consistent next)
  union := fun options id stored => hereditary.union options id (next.grows.unions _ _ stored)
  model := fun properties id stored secured =>
    hereditary.model properties id (next.grows.filled _ _ stored) (secured.step consistent next)
  parameters := fun operation properties id stored nameless =>
    hereditary.parameters operation properties id (next.grows.filled _ _ stored)
      (next.grows.history.subset nameless)
  args := fun key id placed => hereditary.args key id (next.grows.placed placed)
  options := fun options id stored => hereditary.options options id (next.grows.filled _ _ stored)
  properties := fun properties id stored =>
    hereditary.properties properties id (next.grows.filled _ _ stored)

end

/-- Once the type of the youngest declaration is stored, what was made in the work on it is in every
such set that has the place of the declaration. -/
private theorem Checker.Made.good {good : TypeId → Prop} (hereditary : after.Hereditary env good)
    (before : c.Hereditary env good) (contained : c.Contained env) (grown : Grows c after)
    (stacked : c.stack = frame :: rest) (args : ∀ arg ∈ frame.key.args, good arg)
    (secured : ∀ id, c.Yields (some frame.key) id → after.Secured id) (made : c.Made env id) :
    good id := by
  have worker : c.worker = some frame.key := by rw [Checker.worker, stacked]; rfl
  induction made with
  | given top mem =>
    cases stacked.symm.trans top
    exact args _ mem
  | intrinsic kind => exact before.intrinsic kind
  | error => exact before.error
  | param own => exact before.param _ _ own
  | plain placed => exact before.plain _ _ placed
  | applied placed kept _ ih =>
    exact hereditary.applied _ _ (grown.placed placed) (secured _ (worker ▸ kept)) ih
  | union stored _ ih => exact before.union _ _ stored ih
  | model stored kept _ ih =>
    exact hereditary.model _ _ (grown.filled _ _ stored) (secured _ (worker ▸ kept)) ih
  | parameters stored nameless _ ih => exact before.parameters _ _ _ stored nameless ih
  | part _ link ih => exact contained good before _ _ ih link

private theorem step_contained (consistent : Consistent env c) (step : Step env c after)
    (contained : c.Contained env) : after.Contained env := by
  intro good hereditary id other mem link
  obtain ⟨type, found, leads⟩ := link
  have before := hereditary.before consistent step
  cases consistent.stores step found with
  | kept stored => exact contained good before id other mem ⟨type, stored, leads⟩
  | model =>
    cases leads with
    | property inside => exact hereditary.properties _ id found mem _ inside
    | base given | source given | argument given => cases given
  | union =>
    cases leads with
    | option inside => exact hereditary.options _ id found mem _ inside
  | param => cases leads
  | @declared frame rest _ stacked place completes empty filled =>
    have own := consistent.top_placed stacked
    have placed : after.Placed frame.key id := step.grows.placed (place ▸ own)
    have done : after.Done frame.key := ⟨id, placed, by simp [Checker.Empty, found]⟩
    have secured (part : TypeId) (yields : c.Yields (some frame.key) part) : after.Secured part := by
      have history : after.history = [.filled id type] ++ c.history := by rw [filled]; rfl
      refine ⟨some frame.key, yields.later history (by simp), ?_⟩
      rintro _ ⟨⟩
      exact done
    exact (completes.made other leads).good hereditary before contained step.grows stacked
      (hereditary.args _ id placed mem) secured

private theorem Ended.contained (ended : Ended env c) : c.Contained env := by
  refine ended.keeps (Checker.Contained env) ?_ fun _ _ => step_contained
  rintro good _ id other _ ⟨type, found, leads⟩
  rcases TypeStore.get?_empty found with ⟨kind, rfl⟩ | rfl
  · cases leads
  · cases leads

/-- No type that is stored for a key is a model without a name. -/
private theorem Ended.named (ended : Ended env c) : ∀ key id properties, c.Placed key id →
    c.types.get? id ≠ some (.model { properties }) := by
  refine ended.keeps (fun c => ∀ key id properties, c.Placed key id →
    c.types.get? id ≠ some (.model { properties })) (by simp [Checker.Placed]) ?_
  intro c after consistent step named key id properties placed stored
  rcases consistent.stores_key step placed stored with
    ⟨placed, stored⟩ | ⟨_, _, _, _, _, completes, _, _⟩
  · exact named key id properties placed stored
  · exact completes.named properties rfl

namespace Checker

/-- What a place is made of: the arguments of a key, the options of a union, and the properties of a
model without a name. -/
inductive Consists (c : Checker) : TypeId → TypeId → Prop where
  | argument {key id arg} (placed : c.Placed key id) (mem : arg ∈ key.args) : Consists c id arg
  | option {options id option} (stored : c.types.get? id = some (.union options))
      (mem : option ∈ options) : Consists c id option
  | property {properties id property} (stored : c.types.get? id = some (.model { properties }))
      (mem : property ∈ properties) : Consists c id property.type

/-- An instance or a model written in place is there only if it was secured. -/
def Clear (c : Checker) (id : TypeId) : Prop :=
  (∃ symbol args, c.instances.get? symbol args = some id) ∨ c.Inline id → c.Secured id

/-- The same for a place and all that it is made of. -/
def Firm (c : Checker) (id : TypeId) : Prop :=
  ∀ part, Relation.ReflTransGen c.Consists id part → c.Clear part

variable {c : Checker} {id : TypeId}

theorem Firm.part (firm : c.Firm id) (consists : c.Consists id other) : c.Firm other :=
  fun _ further => firm _ (.head consists further)

theorem Firm.of_parts (clear : c.Clear id) (parts : ∀ part, c.Consists id part → c.Firm part) :
    c.Firm id := by
  intro other further
  rcases Relation.ReflTransGen.cases_head further with rfl | ⟨part, consists, rest⟩
  · exact clear
  · exact parts part consists other rest

end Checker

namespace Ended
variable {id : TypeId}

variable (ended : Ended env c)
include ended

/-- An instance has a place for arguments that are not the template's own parameters. -/
private theorem instance_placed (listed : c.instances.get? symbol args = some id) :
    c.Placed ⟨symbol, args⟩ id ∧ args ≠ [] ∧
      c.isDeclarationView env.symbols ⟨symbol, args⟩ = false :=
  (ended.catalog.listed symbol args id).mp listed

/-- The place of a type that is made of nothing, and is not that of a key. -/
private theorem firm_simple (stored : c.types.get? id = some type) (away : ∀ key, ¬ c.Placed key id)
    (union : ∀ options, type ≠ .union options)
    (model : ∀ properties, type ≠ .model { properties }) : c.Firm id := by
  apply Checker.Firm.of_parts
  · rintro (⟨symbol, args, listed⟩ | ⟨⟨properties, bare⟩, _⟩)
    · exact absurd (ended.instance_placed listed).1 (away _)
    · exact absurd (Option.some.inj (stored.symm.trans bare)) (model properties)
  · intro part consists
    cases consists with
    | argument placed => exact absurd placed (away _)
    | option found => exact absurd (Option.some.inj (stored.symm.trans found)) (union _)
    | property found => exact absurd (Option.some.inj (stored.symm.trans found)) (model _)

/-- The place of a key with firm arguments, which is secured if it is an instance. -/
private theorem firm_placed (placed : c.Placed key id)
    (secured : key.args ≠ [] → c.isDeclarationView env.symbols key = false → c.Secured id)
    (args : ∀ arg ∈ key.args, c.Firm arg) : c.Firm id := by
  have ledger := ended.consistent.ledger
  apply Checker.Firm.of_parts
  · rintro (⟨symbol, others, listed⟩ | ⟨⟨properties, bare⟩, _⟩)
    · obtain ⟨other, some, apart⟩ := ended.instance_placed listed
      obtain rfl := ledger.placed_apart placed other
      exact secured some apart
    · exact absurd bare (ended.named _ _ _ placed)
  · intro part consists
    cases consists with
    | argument other mem =>
      obtain rfl := ledger.placed_apart placed other
      exact args part mem
    | option found => exact (ended.consistent.holdings.fits _ _ _ placed found).elim
    | property found => exact absurd found (ended.named _ _ _ placed)

/-- The place of a union of firm places. -/
private theorem firm_union (stored : c.types.get? id = some (.union options))
    (parts : ∀ option ∈ options, c.Firm option) : c.Firm id := by
  have away (key : ResolutionKey) (placed : c.Placed key id) : False :=
    ended.consistent.holdings.fits _ _ _ placed stored
  apply Checker.Firm.of_parts
  · rintro (⟨symbol, args, listed⟩ | ⟨⟨properties, bare⟩, _⟩)
    · exact (away _ (ended.instance_placed listed).1).elim
    · cases stored.symm.trans bare
  · intro part consists
    cases consists with
    | argument placed => exact (away _ placed).elim
    | option found mem =>
      cases stored.symm.trans found
      exact parts part mem
    | property found => cases stored.symm.trans found

/-- The place of a model without a name, which is secured if it is written in place. -/
private theorem firm_model (stored : c.types.get? id = some (.model { properties }))
    (secured : c.Inline id → c.Secured id) (parts : ∀ property ∈ properties, c.Firm property.type) :
    c.Firm id := by
  have away (key : ResolutionKey) (placed : c.Placed key id) : False :=
    ended.named _ _ _ placed stored
  apply Checker.Firm.of_parts
  · rintro (⟨symbol, args, listed⟩ | inline)
    · exact (away _ (ended.instance_placed listed).1).elim
    · exact secured inline
  · intro part consists
    cases consists with
    | argument placed => exact (away _ placed).elim
    | option found => cases stored.symm.trans found
    | property found mem =>
      cases stored.symm.trans found
      exact parts _ mem

private theorem hereditary : c.Hereditary env c.Firm where
  intrinsic := by
    intro kind
    have stored := ended.consistent.tables.intrinsic kind
    exact ended.firm_simple stored
      (fun key placed => ended.consistent.holdings.fits _ _ _ placed stored) (by simp) (by simp)
  error := by
    refine ended.firm_simple ended.consistent.tables.error (fun key placed => ?_) (by simp) (by simp)
    -- the first three places are not handed out
    exact absurd (ended.consistent.ledger.held _ placed _ rfl).1 (by decide)
  param := by
    intro param id own
    obtain ⟨type, stored⟩ :=
      Option.ne_none_iff_exists'.mp (ended.filled (ended.consistent.holds_param own))
    obtain ⟨name, default, rfl⟩ := ended.consistent.params.stored param id type own stored
    refine ended.firm_simple stored (fun key placed => ?_) (by simp) (by simp)
    exact ended.consistent.ledger.param_apart placed
      ((ended.consistent.params.listed param id).mpr own)
  plain := fun symbol id placed => ended.firm_placed placed (by simp) (by simp)
  applied := fun key id placed secured => ended.firm_placed placed fun _ _ => secured
  union := fun options id stored =>
    ended.firm_union (ended.consistent.tables.union options id stored).1
  model := fun properties id stored secured => ended.firm_model stored fun _ => secured
  parameters := fun operation properties id stored nameless =>
    ended.firm_model stored fun inline => absurd nameless (inline.2 operation)
  args := fun key id placed firm arg mem => firm.part (.argument placed mem)
  options := fun options id stored firm option mem => firm.part (.option stored mem)
  properties := fun properties id stored firm property mem => firm.part (.property stored mem)

/-- The types of declarations are firm, and so is all that they lead to. -/
private theorem firm_reached (reached : c.Reached env id) : c.Firm id := by
  obtain ⟨symbol, root, given, led⟩ := reached
  induction led with
  | refl =>
    rcases ended.views symbol root given with rfl | ⟨args, placed, view⟩
    · exact ended.hereditary.error
    · refine ended.firm_placed placed (fun _ apart => ?_) fun arg mem => ?_
      · cases view.symm.trans apart
      · have own : (env.symbols.symbol symbol).templateParams.map c.paramTypes.get? =
            args.map some := of_decide_eq_true view
        have among : some arg ∈ args.map some := List.mem_map_of_mem mem
        rw [← own] at among
        obtain ⟨param, _, stands⟩ := List.mem_map.mp among
        exact ended.hereditary.param param arg stands
  | tail _ link ih => exact ended.contained c.Firm ended.hereditary _ _ ih link

end Ended

/-- Whatever attempts at declarations were given up, the instances of templates and the annotated
models written in place to which some declaration leads were given in work that was kept. -/
theorem check_leaves_no_reached_trace (library : Library) (options : Options)
    (scripts : List Script) (rounds : Nat) (final : Checker)
    (checked : check (Environment.ofScripts library options scripts) rounds = some final) :
    final.LeavesNoTrace (final.Reached (Environment.ofScripts library options scripts)) := by
  have ended := check_ended (Environment.ofScripts_bound library options scripts) checked
  have kept {id : TypeId} (secured : final.Secured id) : final.Kept id := by
    obtain ⟨worker, yields, _⟩ := secured
    exact ⟨worker, yields⟩
  constructor
  · intro symbol args id reached listed
    exact kept (ended.firm_reached reached id .refl (.inl ⟨symbol, args, listed⟩))
  · intro key target reached inline _
    exact kept (ended.firm_reached reached _ .refl (.inr inline))

/-! Whether a place was given in work that was kept can be read off the history. -/

namespace Event

def putsOff (key : ResolutionKey) : Event → Bool
  | .changed other (.deferred _) => other = key
  | _ => false

/-- Whether an event is that an expression gave a place in work that was not given up since. -/
def keeps (id : TypeId) (later : List Event) : Event → Bool
  | .evaluated worker _ other =>
    other = id && worker.all fun key => later.all fun event => !event.putsOff key
  | _ => false

end Event

/-- A place was kept only if the history has an event that kept it. -/
theorem Checker.Kept.recorded {c : Checker} (kept : c.Kept id) :
    (c.history.zipIdx.any fun entry => entry.1.keeps id (c.history.take entry.2)) = true := by
  obtain ⟨worker, expr, later, earlier, split, still⟩ := kept
  refine List.any_eq_true.mpr ⟨(.evaluated worker expr id, later.length), ?_, ?_⟩
  · rw [List.mem_zipIdx_iff_getElem?, split]
    simp
  · rw [split, List.take_left]
    simp only [Event.keeps, decide_true, Bool.true_and, Option.all_eq_true, List.all_eq_true]
    intro key own event mem
    cases event with
    | changed other state =>
      cases state with
      | deferred place =>
        have different : other ≠ key := by
          rintro rfl
          exact still other own place mem
        simp [Event.putsOff, different]
      | _ => rfl
    | _ => rfl

/-- The second model is given up at the spread, after a model was written in place and decorated.
The rest of it is still read, with nothing for what is spread, so that an instance is made for a
model that is not written anywhere. -/
private def abandonedText : String :=
  "model A \x7b b: B \x7d model B \x7b x: \x7b @doc(\"d\") y: void \x7d; ...A; " ++
    "c: Box<\x7b ...A; z: void \x7d> \x7d model Box<T> \x7b v: T \x7d"

private def abandonedScripts : List Script :=
  ((Script.read ⟨1⟩ abandonedText).map Prod.fst).toList

/-- Nothing was found, and the second model has a property whose type is an instance. -/
private def isAbandonedRun (final : Checker) : Bool :=
  final.diagnostics = [] && final.symbolTypes.get? ⟨9⟩ = some ⟨4⟩ &&
    final.instances.get? ⟨10⟩ [⟨9⟩] = some ⟨10⟩ &&
    (((final.types.model? ⟨4⟩).map ModelType.properties).getD []).any fun property =>
      property.type = ⟨10⟩

theorem check_leaves_no_reached_trace_abandoned :
    ∃ final, check (Environment.ofScripts Builtin.library {} abandonedScripts) 8 = some final ∧
      final.diagnostics = [] ∧ final.instances.get? ⟨10⟩ [⟨9⟩] = some ⟨10⟩ ∧
      final.Reached (Environment.ofScripts Builtin.library {} abandonedScripts) ⟨10⟩ ∧
      final.LeavesNoTrace
        (final.Reached (Environment.ofScripts Builtin.library {} abandonedScripts)) := by
  have returns : (check (Environment.ofScripts Builtin.library {} abandonedScripts) 8).any
      isAbandonedRun = true := by
    decide +kernel
  obtain ⟨final, checked, run⟩ := (Option.any_eq_true _ _).mp returns
  simp only [isAbandonedRun, Bool.and_eq_true, decide_eq_true_eq, List.any_eq_true] at run
  obtain ⟨⟨⟨silent, given⟩, listed⟩, property, mem, type⟩ := run
  obtain ⟨model, found, among⟩ := TypeStore.exists_model_of_mem mem
  refine ⟨final, checked, silent, listed, ?_, check_leaves_no_reached_trace _ _ _ _ _ checked⟩
  exact ⟨⟨9⟩, ⟨4⟩, given, .single ⟨_, found, type ▸ .property among⟩⟩

/-- Whether no event of the history kept a place. -/
private def isLost (final : Checker) (id : TypeId) : Bool :=
  !final.history.zipIdx.any fun entry => entry.1.keeps id (final.history.take entry.2)

/-- The first instance is lost, and so is the first model written in place, which has an annotation
and is not the parameters of an operation. -/
private def isTracedRun (final : Checker) : Bool :=
  final.diagnostics = [] && final.instances.get? ⟨10⟩ [⟨6⟩] = some ⟨7⟩ && isLost final ⟨7⟩ &&
    ((final.types.model? ⟨5⟩).any fun model => model = { properties := model.properties }) &&
    (final.history.all fun event => match event with
      | .nameless (some _) id => id ≠ ⟨5⟩
      | _ => true) &&
    final.annotations.contains "doc" (.property ⟨5⟩ "y") && isLost final ⟨5⟩

private theorem isLost_not_kept {final : Checker} (lost : isLost final id = true) :
    ¬ final.Kept id := by
  intro kept
  simp [isLost, kept.recorded] at lost

/-- An attempt that is given up can leave an instance and a model written in place that no kept work
gave, the one in the table of instances and the other with an annotation. -/
theorem check_leaves_trace :
    ∃ final, check (Environment.ofScripts Builtin.library {} abandonedScripts) 8 = some final ∧
      final.diagnostics = [] ∧
      (∃ symbol args id, final.instances.get? symbol args = some id ∧ ¬ final.Kept id) ∧
      (∃ key target, final.Inline target.typeId ∧
        final.annotations.contains key target = true ∧ ¬ final.Kept target.typeId) ∧
      ¬ final.LeavesNoTrace fun _ => True := by
  have returns : (check (Environment.ofScripts Builtin.library {} abandonedScripts) 8).any
      isTracedRun = true := by
    decide +kernel
  obtain ⟨final, checked, run⟩ := (Option.any_eq_true _ _).mp returns
  simp only [isTracedRun, Bool.and_eq_true, decide_eq_true_eq, Option.any_eq_true,
    List.all_eq_true] at run
  obtain ⟨⟨⟨⟨⟨⟨silent, listed⟩, lostInstance⟩, model, found, bare⟩, own⟩, annotated⟩, lostModel⟩ :=
    run
  have inline : final.Inline (Target.property ⟨5⟩ "y").typeId := by
    constructor
    · refine ⟨model.properties, ?_⟩
      rw [← bare]
      exact TypeStore.get?_of_model? found
    · intro operation nameless
      exact absurd rfl (of_decide_eq_true (own _ nameless))
  have stale := isLost_not_kept lostInstance
  refine ⟨final, checked, silent, ⟨_, _, _, listed, stale⟩,
    ⟨"doc", .property ⟨5⟩ "y", inline, annotated, isLost_not_kept lostModel⟩, ?_⟩
  exact fun none => stale (none.instances _ _ _ trivial listed)

end Idl
