import Idl.Proofs.FinishedTypes
import Mathlib.Data.Fintype.EquivFin

/-! Models that extend each other in a loop. What a model extends is settled when
its declaration is read, and compared with the links of the models that have their
types by then. The models of a loop slip through exactly when one of them is settled
while another, settled before, still has no type; every other written loop is
reported. -/
namespace Idl
variable {id : TypeId}

/-! The search along the bases of models. -/

namespace TypeStore
variable {types : TypeStore}

/-- The model that a model extends. -/
def base? (types : TypeStore) (id : TypeId) : Option TypeId := (types.model? id).bind (·.base)

/-- The model that some links lead to. -/
def walk (types : TypeStore) : Nat → TypeId → Option TypeId
  | 0, id => some id
  | links + 1, id => (types.base? id).bind (types.walk links)

theorem walk_add (types : TypeStore) (first second : Nat) (id : TypeId) :
    types.walk (first + second) id = (types.walk first id).bind (types.walk second) := by
  induction first generalizing id with
  | zero => rw [Nat.zero_add]; rfl
  | succ first ih =>
    rw [Nat.add_right_comm]
    simp only [walk, Option.bind_assoc]
    exact Option.bind_congr fun base _ => ih base

/-- Every model on the way has a place in the store. -/
theorem lt_size_of_walk (led : types.walk (more + 1) id = some goal) : id.index < types.size := by
  obtain ⟨base, linked, _⟩ := Option.bind_eq_some_iff.mp led
  obtain ⟨model, found, _⟩ := Option.bind_eq_some_iff.mp linked
  obtain ⟨type, stored, _⟩ := Option.bind_eq_some_iff.mp found
  exact lt_size_of_get? stored

/-- The shortest way from one model to another does not come to a model twice, so it has fewer
links than there are places. -/
theorem walk_short (led : types.walk links id = some goal) :
    ∃ fewer ≤ types.size, types.walk fewer id = some goal := by
  classical
  have reached : ∃ links, types.walk links id = some goal := ⟨links, led⟩
  refine ⟨Nat.find reached, ?_, Nat.find_spec reached⟩
  have shortest : types.walk (Nat.find reached) id = some goal := Nat.find_spec reached
  have minimal {fewer : Nat} (shorter : fewer < Nat.find reached) :
      types.walk fewer id ≠ some goal := Nat.find_min reached shorter
  generalize Nat.find reached = length at *
  -- Models before the last have places, and none comes twice: the part between could be cut.
  have inner (step : Fin length) : ∃ place : Fin types.size, types.walk step id = some ⟨place⟩ := by
    obtain ⟨more, split⟩ : ∃ more, length = step + (more + 1) :=
      ⟨length - step - 1, by have := step.isLt; omega⟩
    rw [split, walk_add] at shortest
    obtain ⟨middle, here, onward⟩ := Option.bind_eq_some_iff.mp shortest
    exact ⟨⟨middle.index, lt_size_of_walk onward⟩, here⟩
  choose place at_place using inner
  have cut {first second : Nat} (before : first < second) (inside : second < length)
      (same : types.walk first id = types.walk second id) : False := by
    obtain ⟨rest, split⟩ : ∃ rest, length = second + rest := ⟨length - second, by omega⟩
    refine minimal (show first + rest < length by omega) ?_
    rw [walk_add, same, ← walk_add, ← split]
    exact shortest
  have injective : Function.Injective place := by
    intro first second same
    have meet : types.walk first id = types.walk second id := by
      rw [at_place, at_place, same]
    rcases Nat.lt_trichotomy first second with before | equal | after
    · exact (cut before second.isLt meet).elim
    · exact Fin.ext equal
    · exact (cut after first.isLt meet.symm).elim
  simpa using Fintype.card_le_of_injective place injective

/-- One model extends another. -/
def Links (types : TypeStore) (id base : TypeId) : Prop := types.base? id = some base

theorem walk_of_links (led : Relation.ReflTransGen types.Links id goal) :
    ∃ links, types.walk links id = some goal := by
  induction led using Relation.ReflTransGen.head_induction_on with
  | refl => exact ⟨0, rfl⟩
  | head link _ ih =>
    obtain ⟨links, led⟩ := ih
    exact ⟨links + 1, by rw [walk, link]; exact led⟩

end TypeStore

theorem CheckM.baseChainReaches_of_walk (led : types.walk links id = some goal)
    (enough : links < steps) : baseChainReaches types goal steps id = true := by
  induction steps generalizing links id with
  | zero => cases enough
  | succ steps ih =>
    cases links with
    | zero =>
      cases led
      simp [baseChainReaches]
    | succ links =>
      obtain ⟨base, linked, onward⟩ := Option.bind_eq_some_iff.mp led
      have found : (types.model? id).bind (·.base) = some base := linked
      simp only [baseChainReaches, found, ih onward (Nat.lt_of_succ_lt_succ enough), Bool.or_true]

/-- The search misses no way along the links of the store. -/
theorem CheckM.not_links_of_apart (apart : baseChainReaches types goal (types.size + 1) id = false)
    :
    ¬ Relation.ReflTransGen types.Links id goal := by
  intro led
  obtain ⟨links, led⟩ := TypeStore.walk_of_links led
  obtain ⟨fewer, short, led⟩ := TypeStore.walk_short led
  cases (baseChainReaches_of_walk led (Nat.lt_succ_of_le short)).symm.trans apart

/-! What is settled during a run. -/

/-- A model that has its type by then extends another. -/
def FilledLink (past : List Event) (id base : TypeId) : Prop :=
  ∃ model, .filled id (.model model) ∈ past ∧ model.base = some base

/-- Nothing was settled that the links of the time contradicted. -/
def Guarded (history : List Event) : Prop :=
  ∀ id base later past, history = later ++ .extended id base :: past →
    ¬ Relation.ReflTransGen (FilledLink past) base id

/-- A model in the store has the base that was settled for it last. -/
def Based (c : Checker) : Prop :=
  ∀ id model base, c.types.get? id = some (.model model) → model.base = some base →
    c.Settles id base

section
variable {id : TypeId}
variable {c : Checker}

/-- A step settles what the youngest declaration extends, or it settles nothing. -/
private theorem step_extended (step : Step env c after) :
    (∃ added, after.history = added ++ c.history ∧ ∀ id base, .extended id base ∉ added) ∨
      ∃ frame base, c.stack.head? = some frame ∧ c.Empty frame.id ∧
        CheckM.baseChainReaches c.types frame.id (c.types.size + 1) base = false ∧
        after = c.log (.extended frame.id base) := by
  have one {event : Event} (other : ∀ id base, event ≠ .extended id base) :
      ∃ added, event :: c.history = added ++ c.history ∧
        ∀ id base, Event.extended id base ∉ added :=
    ⟨[event], rfl, fun id base member => other id base (List.mem_singleton.mp member).symm⟩
  cases step with
  | settle stacked empty _ apart =>
    exact .inr ⟨_, _, by rw [stacked]; rfl, empty, apart, rfl⟩
  | note notes => exact .inl (one notes.not_extended)
  | alloc | abandon | placeParam | fillParam | fill | answer | need => exact .inl (one (by simp))
  | again | resume | postponeAgain | condemn | giveUp | complete => exact .inl (one nofun)
  | begin | postpone => exact .inl ⟨[_, _], rfl, by simp⟩
  | _ => exact .inl ⟨[], rfl, nofun⟩

private theorem FilledLink.links (fillings : Fillings types history)
    (link : FilledLink history id base) : types.Links id base := by
  obtain ⟨model, member, given⟩ := link
  simp [TypeStore.Links, TypeStore.base?, TypeStore.model?, fillings.stored member,
    CheckedType.model?, given]

private theorem step_guarded (step : Step env c after) (fillings : Fillings c.types c.history)
    (guarded : Guarded c.history) : Guarded after.history := by
  intro id base later past split
  rcases step_extended step with ⟨added, history, calm⟩ | ⟨frame, found, _, _, apart, rfl⟩
  · rw [history] at split
    rcases List.append_eq_append_iff.mp split with ⟨rest, _, same⟩ | ⟨rest, inside, same⟩
    · exact guarded id base rest past same
    · cases rest with
      | nil => exact guarded id base [] past same.symm
      | cons event rest =>
        cases same
        exact absurd (by simp [inside]) (calm id base)
  · cases later with
    | nil =>
      cases split
      intro led
      exact CheckM.not_links_of_apart apart
        (Relation.ReflTransGen.mono (fun _ _ link => FilledLink.links fillings link) _ _ led)
    | cons event later =>
      exact guarded id base later past (List.cons.inj split).2

private theorem step_based (consistent : Consistent env c) (step : Step env c after)
    (based : Based c) : Based after := by
  intro id model base found given
  have settles : c.Settles id base := by
    cases consistent.stores step found with
    | kept found => exact based id model base found given
    | model => cases given
    | declared _ place completes => exact place ▸ completes.settled model base rfl given
  rcases step_extended step with ⟨added, history, calm⟩ | ⟨frame, other, _, empty, _, rfl⟩
  · exact settles.later added history fun other => calm id other
  · refine settles.later [.extended frame.id other] rfl fun third member => ?_
    cases List.mem_singleton.mp member
    cases empty.symm.trans found

theorem Ended.guarded (ended : Ended env c) : Guarded c.history := by
  refine (ended.keeps (fun c => Fillings c.types c.history ∧ Guarded c.history) ?_ ?_).2
  · exact ⟨⟨by simp, fun _ _ => rfl⟩, by simp [Guarded]⟩
  · exact fun _ _ consistent step held =>
      ⟨step_fillings consistent step held.1, step_guarded step held.1 held.2⟩

theorem Ended.based (ended : Ended env c) : Based c := by
  refine ended.keeps Based ?_ fun _ _ => step_based
  intro id model base found
  rcases TypeStore.get?_empty found with ⟨kind, same⟩ | same <;> cases same

/-! The models of a loop. -/

/-- When it was settled for good what the second model extends, this had been settled for good for
the first one too, which still had no type. -/
def Checker.Overtakes (c : Checker) (first second : TypeId) : Prop :=
  ∃ later past base, c.history = later ++ .extended second base :: past ∧
    (∀ other, .extended first other ∉ later ∧ .extended second other ∉ later) ∧
    (∃ other, .extended first other ∈ past) ∧ ∀ type, .filled first type ∉ past

/-- Two models that extend each other, one of which was settled while the other was under work. -/
structure Checker.Entangled (c : Checker) (first second : TypeId) : Prop where
  apart : first ≠ second
  forth : Relation.TransGen c.types.Links first second
  back : Relation.TransGen c.types.Links second first
  overtakes : c.Overtakes first second

/-- The latest event of a kind. -/
private theorem exists_latest {kind : Event → Prop} (some : ∃ event ∈ history, kind event) :
    ∃ later event past, history = later ++ event :: past ∧ kind event ∧
      ∀ other ∈ later, ¬ kind other := by
  induction history with
  | nil => simp at some
  | cons event history ih =>
    by_cases held : kind event
    · exact ⟨[], event, history, rfl, held, by simp⟩
    · obtain ⟨found, member, holds⟩ := some
      have earlier : found ∈ history := by
        rcases List.mem_cons.mp member with rfl | earlier
        · exact absurd holds held
        · exact earlier
      obtain ⟨later, latest, past, split, holds, none⟩ := ih ⟨found, earlier, holds⟩
      refine ⟨event :: later, latest, past, by rw [split]; rfl, holds, ?_⟩
      exact List.forall_mem_cons.mpr ⟨held, none⟩

private theorem Checker.Settles.unique {later : List Event} (settles : c.Settles id base)
    (split : c.history = later ++ .extended id other :: past)
    (last : ∀ third, .extended id third ∉ later) : other = base := by
  obtain ⟨after, before, same, final⟩ := settles
  rw [split] at same
  rcases List.append_eq_append_iff.mp same with ⟨rest, inside, rejoined⟩ | ⟨rest, inside, rejoined⟩
  · cases rest with
    | nil => cases rejoined; rfl
    | cons event rest => cases rejoined; exact absurd (by simp [inside]) (final other)
  · cases rest with
    | nil => cases rejoined; rfl
    | cons event rest => cases rejoined; exact absurd (by simp [inside]) (last base)

/-- A model that extends another in the store was settled to do so. -/
private theorem Based.settles (based : Based c) (link : c.types.Links id base) :
    c.Settles id base := by
  obtain ⟨model, found, given⟩ := Option.bind_eq_some_iff.mp link
  obtain ⟨type, stored, shape⟩ := Option.bind_eq_some_iff.mp found
  cases type with
  | model other =>
    cases shape
    exact based id model base stored given
  | _ => cases shape

private theorem Checker.Settles.member (settles : c.Settles id base) :
    .extended id base ∈ c.history := by
  obtain ⟨later, earlier, split, _⟩ := settles
  rw [split]
  simp

/-- A way along models that have their types by then is one along the links of the time. -/
private theorem filled_way (fillings : Fillings c.types c.history)
    (earlier : ∀ event ∈ past, event ∈ c.history) {around : TypeId → Prop}
    (closed : ∀ id base, around id → c.types.Links id base → around base)
    (filled : ∀ id, around id → id ≠ last → ∃ type, .filled id type ∈ past)
    (led : Relation.ReflTransGen c.types.Links start last) :
    around start → Relation.ReflTransGen (FilledLink past) start last := by
  induction led using Relation.ReflTransGen.head_induction_on with
  | refl => exact fun _ => .refl
  | @head id base link _ ih =>
    intro member
    by_cases same : id = last
    · rw [same]
    · obtain ⟨type, given⟩ := filled id member same
      obtain ⟨model, found, settled⟩ := Option.bind_eq_some_iff.mp link
      rw [TypeStore.model?, fillings.stored (earlier _ given)] at found
      cases type with
      | model other =>
        cases found
        exact .head ⟨model, given, settled⟩ (ih (closed id base member link))
      | _ => cases found

/-- In every loop of the store two models are entangled: the one that was settled last, and one
that had no type then. -/
theorem Ended.entangled (ended : Ended env c) (loop : Relation.TransGen c.types.Links id id) :
    ∃ first second, c.Entangled first second := by
  have based := ended.based
  let around (other : TypeId) : Prop := Relation.ReflTransGen c.types.Links id other ∧
    Relation.ReflTransGen c.types.Links other id
  have linked {other : TypeId} (member : around other) :
      ∃ base, c.types.Links other base ∧ around base := by
    have round : Relation.TransGen c.types.Links other id := .trans_right member.2 loop
    obtain ⟨base, link, onward⟩ := Relation.TransGen.head'_iff.mp round
    exact ⟨base, link, member.1.tail link, onward⟩
  have closed (other base : TypeId) (member : around other) (link : c.types.Links other base) :
      around base := by
    obtain ⟨only, same, inside⟩ := linked member
    cases link.symm.trans same
    exact inside
  let settles (event : Event) : Prop := ∃ other base, event = .extended other base ∧ around other
  obtain ⟨base, link, _⟩ := linked ⟨.refl, .refl⟩
  have some : ∃ event ∈ c.history, settles event :=
    ⟨_, (based.settles link).member, id, base, rfl, .refl, .refl⟩
  obtain ⟨later, event, past, split, ⟨last, goal, rfl, member⟩, none⟩ := exists_latest some
  have final {other : TypeId} (inside : around other) (third : TypeId) :
      .extended other third ∉ later := fun found => none _ found ⟨other, third, rfl, inside⟩
  -- The way from the base of the last model back to it was not closed when it was settled.
  obtain ⟨next, link, inside⟩ := linked member
  cases (based.settles link).unique split (final member)
  have open_way := ended.guarded last goal later past split
  -- If all the others had their types by then, the search would have found the whole loop.
  obtain ⟨first, among, different, unfilled⟩ :
      ∃ first, around first ∧ first ≠ last ∧ ∀ type, .filled first type ∉ past := by
    by_contra all
    push Not at all
    refine open_way (filled_way ended.fillings ?_ closed all (inside.2.trans member.1) inside)
    intro event given
    rw [split]
    simp [given]
  have round {one other : TypeId} (apart : one ≠ other) (here : around one) (there : around other) :
      Relation.TransGen c.types.Links one other := by
    rcases Relation.reflTransGen_iff_eq_or_transGen.mp (here.2.trans there.1) with same | way
    · exact absurd same.symm apart
    · exact way
  refine ⟨first, last, different, round different among member, round different.symm member among,
    later, past, goal, split, fun third => ⟨final among third, final member third⟩, ?_, unfilled⟩
  obtain ⟨other, link, _⟩ := linked among
  have settled := (based.settles link).member
  rw [split, List.mem_append, List.mem_cons] at settled
  rcases settled with late | same | early
  · exact absurd late (final among other)
  · cases same
    exact absurd rfl different
  · exact ⟨other, early⟩

end

/-! Loops in the source. -/

/-- A model without parameters is written to extend another one. -/
def Environment.Derives (env : Environment) (symbol target : SymbolId) : Prop :=
  (env.symbols.symbol symbol).kind = .model ∧ (env.symbols.symbol symbol).templated = false ∧
    ∃ location decl base,
      (env.symbols.symbol symbol).declarations.head? = some ⟨location, .model decl⟩ ∧
      decl.heritage = .extends base ∧
      env.NamesModel (env.symbols.symbol symbol).bodyScope base target

/-- Whether a model without parameters is written to extend another one. -/
def Environment.derives (env : Environment) (symbol target : SymbolId) : Bool :=
  let record := env.symbols.symbol symbol
  record.kind = .model && !record.templated && record.declarations.head?.any fun declaration =>
    match declaration.definition with
    | .model decl =>
      match decl.heritage with
      | .extends (.reference path _ false _) =>
        env.symbols.named? record.bodyScope path = some target &&
          (env.symbols.symbol target).kind = .model && !(env.symbols.symbol target).templated
      | _ => false
    | _ => false

theorem Environment.derives_iff {env : Environment} :
    env.derives symbol target = true ↔ env.Derives symbol target := by
  constructor
  · intro found
    simp only [derives, Bool.and_eq_true, decide_eq_true_eq, Bool.not_eq_true', Option.any_eq_true]
      at found
    obtain ⟨⟨kind, plain⟩, ⟨location, definition⟩, declared, written⟩ := found
    split at written
    next decl shape =>
      split at written
      next path args span extending =>
        simp only [Bool.and_eq_true, decide_eq_true_eq, Bool.not_eq_true'] at written
        obtain ⟨⟨named, model⟩, closed⟩ := written
        cases shape
        exact ⟨kind, plain, location, decl, _, declared, extending, .reference named model closed⟩
      next => cases written
    next => cases written
  · rintro ⟨kind, plain, location, decl, _, declared, extending, named, model, closed⟩
    simp [derives, kind, plain, declared, extending, named, model, closed]

/-- A cycle was reported for a model, or where it is written what the model extends. -/
def Checker.ReportsCycle (env : Environment) (c : Checker) (symbol : SymbolId) : Prop :=
  c.Cyclic env symbol ∨ ∃ location decl base,
    (env.symbols.symbol symbol).declarations.head? = some ⟨location, .model decl⟩ ∧
    decl.heritage = .extends base ∧
    ∃ finding ∈ c.diagnostics, finding.code = .cyclicReference ∧
      finding.location = some ⟨location.file, base.span⟩

/-- A model is stored with the base that is written, unless a cycle was reported. -/
def Derivations (env : Environment) (c : Checker) : Prop :=
  ∀ key id type, c.Placed key id → c.types.get? id = some type → ReadsBase env c key type

private theorem ReadsBase.grows (grown : Grows c after) (reads : ReadsBase env c key type) :
    ReadsBase env after key type := by
  intro location decl base target declared extending names
  rcases reads location decl base target declared extending names with
    ⟨model, place, shape, given, placed⟩ | blames
  · exact .inl ⟨model, place, shape, given, grown.placed placed⟩
  · exact .inr (blames.grows grown)

private theorem step_derivations (consistent : Consistent env c) (step : Step env c after)
    (derivations : Derivations env c) : Derivations env after := by
  intro key id type placed found
  rcases consistent.stores_key step placed found with
    ⟨placed, found⟩ | ⟨frame, rest, _, rfl, rfl, completes, _⟩
  · exact (derivations key id type placed found).grows step.grows
  · exact completes.base.grows step.grows

theorem Ended.derivations (ended : Ended env c) : Derivations env c :=
  ended.keeps (Derivations env) (by simp [Derivations, Checker.Placed]) fun _ _ => step_derivations

/-- What is written to be extended is extended in the store, unless a cycle was reported. -/
private theorem Ended.linked (ended : Ended env c) (derives : env.Derives symbol target)
    (placed : c.Placed ⟨symbol, []⟩ id)
    (silent : ¬ c.ReportsCycle env symbol ∧ ¬ c.ReportsCycle env target) :
    ∃ place, c.Placed ⟨target, []⟩ place ∧ c.types.Links id place := by
  obtain ⟨_, _, location, decl, base, declared, extending, names⟩ := derives
  have held := ended.consistent.holds_placed placed
  obtain ⟨type, found⟩ := Option.ne_none_iff_exists'.mp (ended.filled held)
  rcases ended.derivations _ id type placed found location decl base target declared extending names
    with ⟨model, place, rfl, given, there⟩ | cyclic | ⟨finding, member, code, where_⟩
  · refine ⟨place, there, ?_⟩
    simp [TypeStore.Links, TypeStore.base?, TypeStore.model?, found, CheckedType.model?, given]
  · exact absurd (.inl cyclic) silent.2
  · exact absurd (.inr ⟨location, decl, base, declared, extending, finding, member, code, where_⟩)
      silent.1

/-- A loop that is written is reported at one of its models, or is a loop in the store. -/
theorem Ended.written_loop (ended : Ended env c) (bound : env.Bound)
    (loop : Relation.TransGen env.Derives symbol symbol)
    (silent : ∀ other, Relation.ReflTransGen env.Derives symbol other →
      Relation.ReflTransGen env.Derives other symbol → ¬ c.ReportsCycle env other) :
    ∃ id, Relation.TransGen c.types.Links id id := by
  obtain ⟨_, ⟨kind, plain, _⟩, _⟩ := Relation.TransGen.head'_iff.mp loop
  obtain ⟨id, placed⟩ :=
    (ended.consistent.keys.known _).mp (ended.visited symbol (.inl kind) (bound.plain plain))
  have followed {other : SymbolId} (way : Relation.TransGen env.Derives symbol other) :
      Relation.ReflTransGen env.Derives other symbol →
        ∃ place, c.Placed ⟨other, []⟩ place ∧ Relation.TransGen c.types.Links id place := by
    induction way with
    | single derives =>
      intro back
      obtain ⟨place, there, link⟩ := ended.linked derives placed
        ⟨silent symbol .refl .refl, silent _ (.single derives) back⟩
      exact ⟨place, there, .single link⟩
    | @tail middle next before derives ih =>
      intro back
      obtain ⟨place, here, way⟩ := ih (.head derives back)
      obtain ⟨target, there, link⟩ := ended.linked derives here
        ⟨silent middle before.to_reflTransGen (.head derives back),
          silent next (before.tail derives).to_reflTransGen back⟩
      exact ⟨target, there, way.tail link⟩
  obtain ⟨place, again, way⟩ := followed loop .refl
  cases ended.consistent.ledger.placed_once placed again
  exact ⟨id, way⟩

/-- No model extends itself through others, and every loop that is written is reported at one of its
models. -/
def Checker.ExtendsSoundly (env : Environment) (c : Checker) : Prop :=
  (∀ id, ¬ Relation.TransGen c.types.Links id id) ∧
    ∀ symbol, Relation.TransGen env.Derives symbol symbol →
      ∃ other, Relation.ReflTransGen env.Derives symbol other ∧
        Relation.ReflTransGen env.Derives other symbol ∧ c.ReportsCycle env other

/-- Loops of models that extend each other are found out exactly if no two models are entangled:
the way back to a model is searched when it is settled what the model extends, and misses what is
settled but not yet stored. -/
theorem check_extends_soundly_iff (library : Library) (options : Options) (scripts : List Script)
    (rounds : Nat) (final : Checker)
    (checked : check (Environment.ofScripts library options scripts) rounds = some final) :
    final.ExtendsSoundly (Environment.ofScripts library options scripts) ↔
      ∀ first second, ¬ final.Entangled first second := by
  have bound := Environment.ofScripts_bound library options scripts
  have ended := check_ended bound checked
  constructor
  · rintro ⟨acyclic, _⟩ first second entangled
    exact acyclic first (entangled.forth.trans entangled.back)
  · intro untangled
    have acyclic (id : TypeId) : ¬ Relation.TransGen final.types.Links id id := fun loop =>
      let ⟨first, second, entangled⟩ := ended.entangled loop
      untangled first second entangled
    refine ⟨acyclic, fun symbol loop => ?_⟩
    by_contra silent
    push Not at silent
    obtain ⟨id, around⟩ := ended.written_loop bound loop silent
    exact acyclic id around

/-- Two models that extend each other. The second is settled while the first, which needs it in
full, is under work. -/
private def loopText : String :=
  "model T \x7b z: Z; ...X \x7d model Z \x7b y: Y \x7d " ++
    "model Y extends X \x7b ...Z \x7d model X extends Y \x7b ...Y \x7d"

/-- Nothing is reported, and each of two models extends the other. -/
private def isLoop (first second : TypeId) (final : Checker) : Bool :=
  final.diagnostics = [] && final.types.base? first = some second &&
    final.types.base? second = some first

private theorem loopText_loops :
    ∃ final, check (Environment.ofText loopText) 8 = some final ∧ final.diagnostics = [] ∧
      final.types.Links ⟨5⟩ ⟨6⟩ ∧ final.types.Links ⟨6⟩ ⟨5⟩ := by
  have returns : (check (Environment.ofText loopText) 8).any (isLoop ⟨5⟩ ⟨6⟩) = true := by
    decide +kernel
  obtain ⟨final, checked, loop⟩ := (Option.any_eq_true _ _).mp returns
  simp only [isLoop, Bool.and_eq_true, decide_eq_true_eq] at loop
  obtain ⟨⟨quiet, forth⟩, back⟩ := loop
  exact ⟨final, checked, quiet, forth, back⟩

theorem check_extends_soundly_iff_loop :
    ∃ final, check (Environment.ofText loopText) 8 = some final ∧
      ∃ first second, final.Entangled first second := by
  obtain ⟨final, checked, _, forth, back⟩ := loopText_loops
  refine ⟨final, checked, ?_⟩
  by_contra untangled
  push Not at untangled
  have sound := (check_extends_soundly_iff _ _ _ _ final checked).mpr untangled
  exact sound.1 ⟨5⟩ (.tail (.single forth) back)

/-- A loop that is written may stay in the store with nothing reported. -/
theorem check_misses_loop :
    ∃ final, check (Environment.ofText loopText) 8 = some final ∧ final.diagnostics = [] ∧
      (∃ id, Relation.TransGen final.types.Links id id) ∧
      ∃ symbol, Relation.TransGen (Environment.ofText loopText).Derives symbol symbol := by
  obtain ⟨final, checked, quiet, forth, back⟩ := loopText_loops
  have derives : (Environment.ofText loopText).derives ⟨3⟩ ⟨4⟩ = true ∧
      (Environment.ofText loopText).derives ⟨4⟩ ⟨3⟩ = true := by decide +kernel
  exact ⟨final, checked, quiet, ⟨⟨5⟩, .tail (.single forth) back⟩,
    ⟨⟨3⟩, .tail (.single (Environment.derives_iff.mp derives.1))
      (Environment.derives_iff.mp derives.2)⟩⟩

end Idl
