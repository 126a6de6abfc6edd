import Idl.Proofs.FinishedTypes

/-! A key has one place for the whole of a check. Whatever happens to the work
on a key, every answer for it is its place or the error type, and a key that has
been resolved stays as it is. The instances of a template are exactly the keys
that were given a place for arguments other than the template's own parameters. -/
namespace Idl

/-- A place other than that of errors was given for a key, when it was handed out
or as the answer of a resolution. -/
def Checker.Gave (c : Checker) (key : ResolutionKey) (id : TypeId) : Prop :=
  id ≠ TypeStore.error ∧
    (.placed key id ∈ c.history ∨ ∃ demand, .answered key demand id ∈ c.history)

/-! Answers. -/

/-- Every answer is the place of its key, or an error. -/
def Answered (history : List Event) : Prop :=
  ∀ key demand id, .answered key demand id ∈ history → id = TypeStore.error ∨
    .placed key id ∈ history

private theorem Answered.note (answered : Answered history)
    (other : ∀ key demand id, event ≠ .answered key demand id) : Answered (event :: history) := by
  intro key demand id mem
  rcases List.mem_cons.mp mem with same | earlier
  · exact absurd same.symm (other key demand id)
  · exact (answered key demand id earlier).imp_right (List.mem_cons_of_mem _)

private theorem step_answered (step : Step env c after) (answered : Answered c.history) :
    Answered after.history := by
  cases step with
  | note notes => exact answered.note (by rintro _ _ _ rfl; cases notes)
  | alloc | placeParam | fillParam | abandon | fill | settle | need => exact answered.note (by simp)
  | begin | postpone => exact (answered.note (by simp)).note (by simp)
  | again | resume | postponeAgain | condemn | giveUp | complete => exact answered.note nofun
  | answer demand right =>
    intro key other id mem
    rcases List.mem_cons.mp mem with same | earlier
    · cases same
      exact right.imp_right (List.mem_cons_of_mem _)
    · exact (answered key other id earlier).imp_right (List.mem_cons_of_mem _)
  | _ => exact answered

/-! Keys that have been resolved. -/

/-- A later event leaves alone a key that an earlier one resolved, and its place. -/
def Event.Respects (later earlier : Event) : Prop :=
  ∀ key id, earlier = .changed key (.resolved id) →
    (∀ state, later ≠ .changed key state) ∧ ∀ type, later ≠ .filled id type

/-- What is resolved stays resolved. -/
structure Lasting (resolutions : Dictionary ResolutionKey ResolutionState)
    (history : List Event) : Prop where
  resolved : ∀ key id, .changed key (.resolved id) ∈ history →
    resolutions.get? key = some (.resolved id)
  ordered : history.Pairwise Event.Respects

namespace Lasting

theorem note (lasting : Lasting resolutions history)
    (silent : ∀ key state, event ≠ .changed key state)
    (unfilled : ∀ id type, event ≠ .filled id type) : Lasting resolutions (event :: history) where
  resolved := by
    intro key id mem
    rcases List.mem_cons.mp mem with same | earlier
    · exact absurd same.symm (silent key _)
    · exact lasting.resolved key id earlier
  ordered := List.pairwise_cons.mpr
    ⟨fun _ _ key id _ => ⟨silent key, unfilled id⟩, lasting.ordered⟩

/-- A key that is not yet resolved comes into another state. -/
theorem turn (lasting : Lasting resolutions history)
    (unresolved : ∀ id, resolutions.get? key ≠ some (.resolved id)) (state : ResolutionState) :
    Lasting (resolutions.insert key state) (.changed key state :: history) where
  resolved := by
    intro other id mem
    rcases List.mem_cons.mp mem with same | earlier
    · cases same
      exact Dictionary.get?_insert_self ..
    · have held := lasting.resolved other id earlier
      have different : key ≠ other := by
        rintro rfl
        exact unresolved id held
      rw [Dictionary.get?_insert_of_ne _ different]
      exact held
  ordered := by
    refine List.pairwise_cons.mpr ⟨?_, lasting.ordered⟩
    rintro _ mem other id rfl
    refine ⟨?_, nofun⟩
    rintro _ ⟨⟩
    exact unresolved id (lasting.resolved key id mem)

/-- A place that belongs to no resolved key is filled. -/
theorem fill {id : TypeId} (lasting : Lasting resolutions history)
    (unresolved : ∀ key, resolutions.get? key ≠ some (.resolved id)) (type : CheckedType) :
    Lasting resolutions (.filled id type :: history) where
  resolved := by
    intro key other mem
    rcases List.mem_cons.mp mem with same | earlier
    · cases same
    · exact lasting.resolved key other earlier
  ordered := by
    refine List.pairwise_cons.mpr ⟨?_, lasting.ordered⟩
    rintro _ mem key other rfl
    refine ⟨nofun, ?_⟩
    rintro _ ⟨⟩
    exact unresolved key (lasting.resolved key id mem)

end Lasting

/-- A key under work is not resolved. -/
private theorem Consistent.unresolved_frame (consistent : Consistent env c)
    (mem : frame ∈ c.stack) (id : TypeId) :
    c.resolutions.get? frame.key ≠ some (.resolved id) := by
  rcases (consistent.keys.frames frame mem).2 with state | state <;> simp [state]

private theorem step_lasting (consistent : Consistent env c) (step : Step env c after)
    (lasting : Lasting c.resolutions c.history) : Lasting after.resolutions after.history := by
  cases step with
  | note notes => exact lasting.note (by rintro _ _ rfl; cases notes) (by rintro _ _ rfl; cases notes)
  | alloc | placeParam | abandon | settle | answer | need => exact lasting.note (by simp) (by simp)
  | fillParam _ empty | fill _ _ empty =>
    exact lasting.fill (fun key resolved => consistent.slots.resolved key _ resolved empty) _
  | begin _ _ _ new | postpone _ new =>
    exact (lasting.note (by simp) (by simp)).turn (by simp [new]) _
  | again _ _ _ waiting | resume _ _ _ waiting | postponeAgain _ waiting =>
    exact lasting.turn (by simp [waiting]) _
  -- A key under work or put off is not resolved, so no resolved key ever turns.
  | condemn _ stacked | giveUp _ stacked =>
    exact lasting.turn (consistent.unresolved_frame (by simp [stacked])) _
  | complete _ _ resolving => exact lasting.turn (by simp [resolving]) _
  | _ => exact lasting

/-! The instances of templates. -/

/-- The instances are the keys with a place and with arguments, but for the own
parameters of a template, and they stand in the order of their places. -/
structure Catalog (symbols : SymbolTable) (c : Checker) : Prop where
  listed : ∀ symbol args id, c.instances.get? symbol args = some id ↔
    c.Placed ⟨symbol, args⟩ id ∧ args ≠ [] ∧ c.isDeclarationView symbols ⟨symbol, args⟩ = false
  created : ∀ symbol id, (symbol, id) ∈ c.instances.created ↔
    ∃ args, c.instances.get? symbol args = some id
  ordered : c.instances.created.Pairwise fun earlier later => earlier.2.index < later.2.index

section
variable {c : Checker}

private theorem Catalog.of_same (catalog : Catalog symbols c)
    (instances : after.instances = c.instances)
    (views : ∀ key id, c.Placed key id →
      after.isDeclarationView symbols key = c.isDeclarationView symbols key)
    (placed : ∀ key id, after.Placed key id ↔ c.Placed key id) : Catalog symbols after where
  listed := by
    intro symbol args id
    rw [instances, catalog.listed, placed]
    exact and_congr_right fun held => by rw [views _ id held]
  created := by rw [instances]; exact catalog.created
  ordered := by rw [instances]; exact catalog.ordered

/-- Events other than those that hand out a place for a key. -/
private theorem placed_note (other : ∀ key id, event ≠ .placed key id) (key : ResolutionKey)
    (id : TypeId) : Event.placed key id ∈ event :: history ↔ Event.placed key id ∈ history :=
  ⟨fun mem => (List.mem_cons.mp mem).resolve_left fun same => other key id same.symm,
    List.mem_cons_of_mem _⟩

/-- A parameter that gets a place of its own was no argument before. -/
private theorem map_get?_placeParam (new : c.paramTypes.get? param = none) (params : List SymbolId)
    {args : List TypeId} (held : ∀ arg ∈ args, c.Holds arg) :
    params.map (c.placeParam param).2.paramTypes.get? = args.map some ↔
      params.map c.paramTypes.get? = args.map some := by
  induction params generalizing args with
  | nil => rfl
  | cons first rest ih =>
    cases args with
    | nil => simp
    | cons arg args =>
      have same : (c.placeParam param).2.paramTypes.get? first = some arg ↔
          c.paramTypes.get? first = some arg := by
        simp only [Checker.placeParam, Dictionary.get?_insert]
        split
        · rename_i own
          subst own
          constructor
          · rintro ⟨⟩
            exact absurd (held _ (List.mem_cons_self ..)) (Nat.lt_irrefl _)
          · intro given
            cases new.symm.trans given
        · rfl
      simp only [List.map_cons, List.cons.injEq]
      exact and_congr same (ih fun other mem => held other (List.mem_cons_of_mem _ mem))

private theorem placed_place (key other : ResolutionKey) (id : TypeId) :
    (c.place symbols key).2.Placed other id ↔
      (other = key ∧ id = ⟨c.types.size⟩) ∨ c.Placed other id := by
  simp [Checker.Placed, Checker.place, TypeStore.reserve]

/-- An instance is added for a key that has none. -/
private theorem Instances.insert_new {instances : Instances}
    (new : instances.get? symbol args = none) (id : TypeId) :
    (instances.insert symbol args id).created = instances.created ++ [(symbol, id)] ∧
      ∀ other otherArgs, (instances.insert symbol args id).get? other otherArgs =
        if symbol = other ∧ args = otherArgs then some id else instances.get? other otherArgs := by
  have missing : instances.latest.contains (symbol, args) = false := by
    rw [Dictionary.contains, ← Instances.get?, new]
    rfl
  refine ⟨by simp [Instances.insert, missing], fun other otherArgs => ?_⟩
  simp only [Instances.insert, Instances.get?, Dictionary.get?_insert, Prod.mk.injEq]

/-- A key gets its place without becoming an instance. -/
private theorem Catalog.place_plain (catalog : Catalog symbols c)
    (plain : key.args.isEmpty || c.isDeclarationView symbols key) :
    Catalog symbols (c.place symbols key).2 := by
  have instances : (c.place symbols key).2.instances = c.instances := if_pos plain
  refine ⟨?_, by rw [instances]; exact catalog.created, by rw [instances]; exact catalog.ordered⟩
  intro symbol args id
  rw [instances, catalog.listed, placed_place]
  constructor
  · rintro ⟨placed, apart⟩
    exact ⟨.inr placed, apart⟩
  · rintro ⟨⟨rfl, _⟩ | placed, some, apart⟩
    · have view : c.isDeclarationView symbols ⟨symbol, args⟩ = false := apart
      simp [some, view] at plain
    · exact ⟨placed, some, apart⟩

/-- A key gets its place and becomes an instance, the youngest one. -/
private theorem Catalog.place_instance (consistent : Consistent env c)
    (catalog : Catalog symbols c) {key : ResolutionKey} (new : c.resolutions.get? key = none)
    (some : key.args ≠ []) (apart : c.isDeclarationView symbols key = false) :
    Catalog symbols (c.place symbols key).2 := by
  have unplaced (id : TypeId) : ¬ c.Placed key id := fun placed =>
    consistent.unplaced new _ placed rfl
  have missing : c.instances.get? key.symbol key.args = none := by
    cases found : c.instances.get? key.symbol key.args with
    | none => rfl
    | some id => exact absurd ((catalog.listed _ _ id).mp found).1 (unplaced id)
  have instances : (c.place symbols key).2.instances =
      c.instances.insert key.symbol key.args ⟨c.types.size⟩ := if_neg (by simp [some, apart])
  obtain ⟨created, get⟩ := Instances.insert_new missing ⟨c.types.size⟩
  refine ⟨?_, ?_, ?_⟩
  · intro symbol args id
    rw [instances, get, placed_place]
    by_cases own : ⟨symbol, args⟩ = key
    · subst own
      rw [if_pos ⟨rfl, rfl⟩]
      refine ⟨fun given => ⟨.inl ⟨rfl, (Option.some.inj given).symm⟩, some, apart⟩, ?_⟩
      rintro ⟨⟨_, rfl⟩ | placed, _⟩
      · rfl
      · exact absurd placed (unplaced id)
    · have other : ¬ (key.symbol = symbol ∧ key.args = args) := by
        rintro ⟨rfl, rfl⟩
        exact own rfl
      rw [if_neg other, catalog.listed]
      simp only [own, false_and, false_or]
      rfl
  · intro symbol id
    simp only [instances, created, List.mem_append, List.mem_singleton, catalog.created, get]
    constructor
    · rintro (⟨args, found⟩ | same)
      · refine ⟨args, ?_⟩
        rw [if_neg (by rintro ⟨rfl, rfl⟩; cases missing.symm.trans found)]
        exact found
      · cases same
        exact ⟨key.args, if_pos ⟨rfl, rfl⟩⟩
    · rintro ⟨args, found⟩
      split at found
      · rename_i own
        obtain ⟨rfl, _⟩ := own
        cases found
        exact .inr rfl
      · exact .inl ⟨args, found⟩
  · rw [instances, created, List.pairwise_append]
    refine ⟨catalog.ordered, List.pairwise_singleton .., ?_⟩
    rintro ⟨symbol, id⟩ mem _ last
    rw [List.mem_singleton.mp last]
    obtain ⟨args, found⟩ := (catalog.created symbol id).mp mem
    exact consistent.holds_placed ((catalog.listed symbol args id).mp found).1

private theorem Catalog.place (consistent : Consistent env c) (catalog : Catalog symbols c)
    (new : c.resolutions.get? key = none) : Catalog symbols (c.place symbols key).2 := by
  by_cases plain : key.args.isEmpty || c.isDeclarationView symbols key
  · exact catalog.place_plain plain
  · obtain ⟨some, apart⟩ : key.args ≠ [] ∧ c.isDeclarationView symbols key = false := by
      simpa using plain
    exact catalog.place_instance consistent new some apart

private theorem step_catalog (consistent : Consistent env c) (step : Step env c after)
    (catalog : Catalog env.symbols c) : Catalog env.symbols after := by
  have same {after : Checker} (instances : after.instances = c.instances)
      (params : after.paramTypes = c.paramTypes)
      (placed : ∀ key id, after.Placed key id ↔ c.Placed key id) : Catalog env.symbols after :=
    catalog.of_same instances (fun _ _ _ => by rw [Checker.isDeclarationView, params]; rfl) placed
  cases step with
  | placeParam new =>
    refine catalog.of_same rfl (fun key id placed => ?_) (placed_note nofun)
    exact decide_eq_decide.mpr
      (map_get?_placeParam new _ (consistent.holdings.proper key id placed).held)
  | note notes => exact same rfl rfl (placed_note notes.not_placed)
  | alloc | fillParam | abandon | fill | settle | answer | need =>
    exact same rfl rfl (placed_note (by simp))
  | again | resume | postponeAgain | condemn | giveUp | complete =>
    exact same rfl rfl (placed_note nofun)
  | begin _ _ _ new | postpone _ new =>
    exact (catalog.place consistent new).of_same rfl (fun _ _ _ => rfl) (placed_note (by simp))
  | _ => exact same rfl rfl fun _ _ => Iff.rfl

theorem Ended.catalog (ended : Ended env c) : Catalog env.symbols c :=
  ended.keeps (Catalog env.symbols)
    ⟨by simp [Instances.get?, Checker.Placed], by simp [Instances.get?], .nil⟩
    fun _ _ => step_catalog

end

/-- A key has one place, and a place has one key. A key that has been resolved stays
resolved, and its place keeps its type. The instances are the keys that were given a
place for arguments other than the template's own parameters, and those of each
template are listed once each, in the order of their places. -/
structure Checker.Identities (symbols : SymbolTable) (c : Checker) : Prop where
  one_place : ∀ key first second, c.Gave key first → c.Gave key second → first = second
  one_key : ∀ first second id, c.Gave first id → c.Gave second id → first = second
  resolved : ∀ key id, .changed key (.resolved id) ∈ c.history →
    c.resolutions.get? key = some (.resolved id) ∧
      ∃ type, c.types.get? id = some type ∧ .filled id type ∈ c.history
  lasting : c.history.Pairwise Event.Respects
  instances : ∀ symbol args id, c.instances.get? symbol args = some id ↔
    .placed ⟨symbol, args⟩ id ∈ c.history ∧ args ≠ [] ∧
      c.isDeclarationView symbols ⟨symbol, args⟩ = false
  listed : ∀ symbol id, id ∈ c.instances.of symbol ↔
    ∃ args, c.instances.get? symbol args = some id
  ordered : ∀ symbol, (c.instances.of symbol).Pairwise (·.index < ·.index)

/-- Whatever references and demands there are, a check keeps the identities of its keys. -/
theorem check_keeps_identities (library : Library) (options : Options) (scripts : List Script)
    (rounds : Nat) (final : Checker)
    (checked : check (Environment.ofScripts library options scripts) rounds = some final) :
    final.Identities (Environment.ofScripts library options scripts).symbols := by
  have ended := check_ended (Environment.ofScripts_bound library options scripts) checked
  have answered : Answered final.history :=
    ended.keeps (fun c => Answered c.history) (by simp [Answered]) fun _ _ _ => step_answered
  have lasting : Lasting final.resolutions final.history :=
    ended.keeps (fun c => Lasting c.resolutions c.history) ⟨by simp, .nil⟩ fun _ _ => step_lasting
  have catalog := ended.catalog
  have ledger := ended.consistent.ledger
  have placed {key : ResolutionKey} {id : TypeId} (gave : final.Gave key id) :
      .placed key id ∈ final.history := by
    obtain ⟨proper, placed | ⟨demand, given⟩⟩ := gave
    · exact placed
    · exact (answered key demand id given).resolve_left proper
  refine ⟨?_, ?_, ?_, lasting.ordered, catalog.listed, ?_, ?_⟩
  · exact fun key first second one other => ledger.placed_once (placed one) (placed other)
  · exact fun first second id one other => ledger.placed_apart (placed one) (placed other)
  · intro key id mem
    have resolved := lasting.resolved key id mem
    have place := ended.consistent.keys.resolved key id resolved
    obtain ⟨type, found⟩ :=
      Option.ne_none_iff_exists'.mp (ended.consistent.slots.resolved key id resolved)
    have fill := ended.fillings.handed _ place id rfl
    rw [found] at fill
    have among : Event.filled id type ∈ final.history.filter (·.fills id) := by
      rw [fill]
      exact List.mem_singleton_self _
    exact ⟨resolved, type, found, (List.mem_filter.mp among).1⟩
  · intro symbol id
    rw [← catalog.created]
    simp [Instances.of]
  · exact fun symbol => List.pairwise_map.mpr (catalog.ordered.filter _)

/-- A model that is put off, with an instance of a template that is demanded both ways. -/
private def reusedText : String :=
  "model A \x7b b: B \x7d model B \x7b ...A; a: Box<A>; ...Box<A> \x7d " ++
    "model Box<P> \x7b value: P; more: Box<A>; own: Box<P> \x7d"

/-- There is one instance, and the answers for it were asked for both ways. -/
private def isReused (final : Checker) : Bool :=
  final.instances.size = 1 && [Demand.reference, .complete].all fun demand =>
    final.history.any fun event => match event with
      | .answered key asked _ => asked = demand && !key.args.isEmpty
      | _ => false

theorem check_keeps_identities_reused :
    ∃ final, check (Environment.ofText reusedText) 8 = some final ∧ isReused final ∧
      final.Identities (Environment.ofText reusedText).symbols := by
  have returns : (check (Environment.ofText reusedText) 8).any isReused = true := by
    decide +kernel
  obtain ⟨final, checked, reused⟩ := (Option.any_eq_true _ _).mp returns
  exact ⟨final, checked, reused, check_keeps_identities _ _ _ _ _ checked⟩

end Idl
