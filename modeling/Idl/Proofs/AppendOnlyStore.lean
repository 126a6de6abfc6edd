import Idl.TypeStore

/-! The store of types only grows. However calls that store a type, hand out a place,
fill a place and ask for a union follow each other, the store is what these calls
say: a place holds a type exactly if some call put that type there, it can be filled
exactly if it was handed out to be filled and no call has filled it, and a union has the
place that the first call for its options was given. Nothing that a call refuses
leaves a trace. -/
namespace Idl.TypeStore

/-! ### Calls -/

/-- What a user of the store may ask for. -/
inductive Call where
  | alloc (type : CheckedType)
  | reserve
  | finish (id : TypeId) (type : CheckedType)
  | internUnion (options : List TypeId)
deriving DecidableEq, Repr

/-- What a call gives back. -/
inductive Answer where
  | place (id : TypeId)
  | filled
  | refused (error : SlotError)
deriving DecidableEq, Repr

/-- One call: its answer, and the store after it. A store that refuses is kept as it is. -/
def answer (store : TypeStore) : Call → Answer × TypeStore
  | .alloc type => (.place (store.alloc type).1, (store.alloc type).2)
  | .reserve => (.place store.reserve.1, store.reserve.2)
  | .finish id type =>
    match store.finish id type with
    | .ok filled => (.filled, filled)
    | .error error => (.refused error, store)
  | .internUnion options => (.place (store.internUnion options).1, (store.internUnion options).2)

/-- A store that calls on the new one lead to, and these calls with their answers, latest first. -/
inductive Reached : TypeStore → List (Call × Answer) → Prop where
  | new : Reached empty []
  | call {store log} (before : Reached store log) (call : Call) :
      Reached (store.answer call).2 ((call, (store.answer call).1) :: log)

/-- A call that got this answer has put a type in a place. -/
def Writes (id : TypeId) (type : CheckedType) : Call × Answer → Prop
  | (.alloc stored, .place place) => place = id ∧ stored = type
  | (.finish place stored, .filled) => place = id ∧ stored = type
  | (.internUnion options, .place place) => place = id ∧ .union options = type
  | _ => False

/-- The place was filled with the type, from the start or by a call. -/
def Written (log : List (Call × Answer)) (id : TypeId) (type : CheckedType) : Prop :=
  empty.get? id = some type ∨ ∃ entry ∈ log, Writes id type entry

/-- The place was handed out to be filled, and no call has filled it. -/
def Awaited (log : List (Call × Answer)) (id : TypeId) : Prop :=
  (.reserve, .place id) ∈ log ∧ ∀ type, (.finish id type, .filled) ∉ log

/-! ### What one call does -/

/-- What a call may do to a store. -/
inductive Effect (store : TypeStore) : Call → Answer → TypeStore → Prop where
  | pushed {call next} (slot : Option CheckedType) (writes : ∀ id type,
        Writes id type (call, .place ⟨store.size⟩) ↔ ⟨store.size⟩ = id ∧ slot = some type)
      (reserves : .reserve = call ↔ slot = none) (slots : next.slots = store.slots.push slot)
      (unions : ∀ options id, next.unions.get? options = some id ↔
        store.unions.get? options = some id ∨
          (.internUnion options, .place id) = (call, Answer.place ⟨store.size⟩)) :
      Effect store call (.place ⟨store.size⟩) next
  | filled {id type} (vacant : id.index < store.size ∧ store.get? id = none) :
      Effect store (.finish id type) .filled (store.fill id type)
  | refused {id type error} : Effect store (.finish id type) (.refused error) store
  | known {options id} (listed : store.unions.get? options = some id) :
      Effect store (.internUnion options) (.place id) store

theorem finish_of_full {store : TypeStore} {id : TypeId} (type : CheckedType)
    (full : ¬ (id.index < store.size ∧ store.get? id = none)) : store.finish id type =
      .error (if id.index < store.size then .finishedTwice id else .neverReserved id) := by
  unfold finish
  split
  · rename_i slot
    exact absurd ⟨(Array.getElem?_eq_some_iff.mp slot).1, by simp [get?, slot]⟩ full
  · rename_i slot
    rw [if_pos (show id.index < store.size from (Array.getElem?_eq_some_iff.mp slot).1)]
  · rename_i outside
    rw [if_neg (show ¬ id.index < store.size by simpa [size] using outside)]

theorem answer_effect (store : TypeStore) (call : Call) :
    Effect store call (store.answer call).1 (store.answer call).2 := by
  cases call with
  | alloc type =>
    exact .pushed (some type) (by simp [Writes]) (by simp) rfl (by simp [answer, alloc])
  | reserve => exact .pushed none (by simp [Writes]) (by simp) rfl (by simp [answer, reserve])
  | finish id type =>
    by_cases vacant : id.index < store.size ∧ store.get? id = none
    · rw [answer, finish_of_empty vacant.1 vacant.2]
      exact .filled vacant
    · rw [answer, finish_of_full type vacant]
      exact .refused
  | internUnion options =>
    cases listed : store.unions.get? options with
    | some id =>
      simp only [answer, internUnion, listed]
      exact .known listed
    | none =>
      simp only [answer, internUnion, listed]
      refine .pushed (some (.union options)) (by simp [Writes]) (by simp) rfl fun others id => ?_
      rw [Dictionary.get?_insert]
      by_cases same : options = others
      · subst same
        simp [listed, eq_comm, alloc]
      · simp [same, Ne.symm same, alloc]

/-! ### Whole runs -/

/-- The store is what the calls say. -/
structure Records (store : TypeStore) (log : List (Call × Answer)) : Prop where
  written : ∀ id type, store.get? id = some type ↔ Written log id type
  awaited : ∀ id, id.index < store.size ∧ store.get? id = none ↔ Awaited log id
  unions : ∀ options id,
    store.unions.get? options = some id ↔ (.internUnion options, .place id) ∈ log
  handed : ∀ call id, (call, .place id) ∈ log → id.index < store.size

theorem written_cons {id : TypeId} :
    Written (entry :: log) id type ↔ Written log id type ∨ Writes id type entry := by
  simp only [Written, List.mem_cons, exists_eq_or_imp, or_assoc]
  rw [or_comm (a := Writes id type entry)]

theorem records_new : Records empty [] where
  written id type := by simp [Written]
  awaited id := by
    simp only [Awaited, List.not_mem_nil, false_and, iff_false]
    rintro ⟨inside, vacant⟩
    -- each of the three places that are there from the start is filled
    obtain ⟨index⟩ := id
    have inside : index < 3 := inside
    obtain rfl | rfl | rfl : index = 0 ∨ index = 1 ∨ index = 2 := by omega
    · cases vacant
    · cases vacant
    · cases vacant
  unions options id := by simp [empty]
  handed call id := by simp

theorem Records.answered (ih : Records store log) (effect : Effect store call given next) :
    Records next ((call, given) :: log) := by
  have outside {id : TypeId} (new : id.index = store.size) : store.get? id = none := by
    cases found : store.get? id with
    | none => rfl
    | some type => exact absurd new (Nat.ne_of_lt (lt_size_of_get? found))
  cases effect with
  | pushed slot writes reserves slots unions =>
    have grown : next.size = store.size + 1 := by simp [size, slots]
    have holds (id : TypeId) :
        next.get? id = if id.index = store.size then slot else store.get? id := by
      rw [get?, slots, Array.getElem?_push, apply_ite Option.join]
      rfl
    have apart {id : TypeId} (other : id ≠ ⟨store.size⟩) : id.index ≠ store.size :=
      fun index => other (by rw [← index])
    refine ⟨fun id found => ?_, fun id => ?_, fun options id => ?_, fun call id => ?_⟩
    · rw [written_cons, writes, ← ih.written, holds]
      by_cases new : id = ⟨store.size⟩
      · simp [new, outside]
      · simp [Ne.symm new, apart new]
    · rw [holds, grown]
      by_cases new : id = ⟨store.size⟩
      · subst new
        have fresh : (.reserve, .place ⟨store.size⟩) ∉ log :=
          fun early => Nat.lt_irrefl _ (ih.handed _ _ early)
        have unfilled (type : CheckedType) : (.finish ⟨store.size⟩ type, .filled) ∉ log := by
          intro filled
          have held := (ih.written ⟨store.size⟩ type).mpr
            (.inr ⟨(.finish _ _, .filled), filled, rfl, rfl⟩)
          simp [outside] at held
        simp [Awaited, fresh, unfilled, reserves]
      · have same : Awaited ((call, .place ⟨store.size⟩) :: log) id ↔ Awaited log id := by
          simp [Awaited, new]
        have other := apart new
        rw [same, ← ih.awaited, if_neg other]
        exact and_congr_left fun _ => by omega
    · rw [unions, ih.unions, List.mem_cons, or_comm]
    · rw [List.mem_cons, grown]
      rintro (⟨⟨⟩⟩ | early)
      · exact Nat.lt_succ_self _
      · exact Nat.lt_succ_of_lt (ih.handed call id early)
  | @filled id type vacant =>
    refine ⟨fun other found => ?_, fun other => ?_, fun options place => ?_, fun call place => ?_⟩
    · rw [written_cons, ← ih.written, get?_fill vacant.1 vacant.2]
      by_cases named : other = id
      · simp [named, vacant.2, Writes]
      · simp [named, Ne.symm named, Writes]
    · rw [size_fill, get?_fill vacant.1 vacant.2]
      by_cases named : other = id
      · subst named
        have ended : ¬ Awaited ((.finish other type, .filled) :: log) other :=
          fun awaited => awaited.2 type (by simp)
        simp [ended]
      · rw [if_neg named, ih.awaited]
        simp [Awaited, named]
    · rw [List.mem_cons, ← ih.unions]
      simp [fill]
    · simpa using ih.handed call place
  | refused =>
    refine ⟨fun id found => ?_, fun id => ?_, fun options id => ?_, fun call id => ?_⟩
    · rw [written_cons, ih.written]
      simp [Writes]
    · rw [ih.awaited]
      simp [Awaited]
    · rw [ih.unions]
      simp
    · simpa using ih.handed call id
  | @known options place listed =>
    have made := (ih.unions options place).mp listed
    refine ⟨fun id found => ?_, fun id => ?_, fun others id => ?_, fun call id => ?_⟩
    · rw [written_cons, ih.written, or_iff_left_of_imp fun wrote => .inr ⟨_, made, wrote⟩]
    · rw [ih.awaited]
      simp [Awaited]
    · rw [List.mem_cons, ih.unions, or_iff_right_of_imp]
      rintro ⟨⟩
      exact made
    · rw [List.mem_cons]
      rintro (⟨⟨⟩⟩ | early)
      · exact ih.handed _ _ made
      · exact ih.handed call id early

theorem Reached.records (reached : Reached store log) : Records store log := by
  induction reached with
  | new => exact records_new
  | call before call ih => exact ih.answered (answer_effect ..)

/-! ### The list of filled places -/

theorem mem_toList {store : TypeStore} {id : TypeId} :
    (id, type) ∈ store.toList ↔ store.get? id = some type := by
  obtain ⟨index⟩ := id
  simp only [toList, List.mem_filterMap, Prod.exists, List.mem_zipIdx_iff_getElem?, get?,
    Option.join_eq_some_iff, Option.map_eq_some_iff, Prod.mk.injEq, TypeId.mk.injEq]
  constructor
  · rintro ⟨slot, place, held, found, rfl, rfl, rfl⟩
    simpa using held
  · intro held
    exact ⟨some type, index, by simpa using held, type, rfl, rfl, rfl⟩

theorem toList_increasing (store : TypeStore) :
    store.toList.Pairwise fun one two => one.1.index < two.1.index := by
  have counted : store.slots.toList.zipIdx.Pairwise fun one two => one.2 < two.2 := by
    rw [← List.pairwise_map (f := Prod.snd) (R := (· < ·)), List.zipIdx_map_snd]
    exact List.pairwise_lt_range'
  refine counted.filterMap _ ?_
  rintro ⟨slot, place⟩ ⟨other, later⟩ less one first two second
  obtain ⟨_, _, rfl⟩ := Option.map_eq_some_iff.mp first
  obtain ⟨_, _, rfl⟩ := Option.map_eq_some_iff.mp second
  exact less

/-- Whatever calls were made on the new store, a place that a call is given is new and is the number
of places before the call, except that a union asked for again is given the place it has. A place
holds a type exactly if one of the calls put it there, and no call changes it from then on. It can
be filled exactly if it was handed out to be filled and has not been; otherwise filling it changes
nothing. Unions have the same place exactly if they have the same options, and it holds that union.
The filled places are listed one by one, in their order. -/
theorem store_only_grows {store : TypeStore} {log : List (Call × Answer)}
    (reached : Reached store log) :
    (∀ call id, (store.answer call).1 = .place id →
      (id.index = store.size ∧ (store.answer call).2.size = store.size + 1 ∧
          ∀ earlier, (earlier, .place id) ∉ log) ∨
        (∃ options, call = .internUnion options) ∧ (call, .place id) ∈ log ∧
          (store.answer call).2 = store) ∧
    (∀ id type, store.get? id = some type ↔ Written log id type) ∧
    (∀ id type call, store.get? id = some type → (store.answer call).2.get? id = some type) ∧
    (∀ id type, (Awaited log id → store.answer (.finish id type) = (.filled, store.fill id type)) ∧
      (¬ Awaited log id → store.answer (.finish id type) = (.refused
        (if id.index < store.size then .finishedTwice id else .neverReserved id), store))) ∧
    (∀ options others one two, (.internUnion options, .place one) ∈ log →
      (.internUnion others, .place two) ∈ log →
        (one = two ↔ options = others) ∧ store.get? one = some (.union options)) ∧
    store.toList.Pairwise (fun one two => one.1.index < two.1.index) ∧
    ∀ id type, (id, type) ∈ store.toList ↔ store.get? id = some type := by
  have said := reached.records
  have holds {options : List TypeId} {id : TypeId} (made : (.internUnion options, .place id) ∈ log) :
      store.get? id = some (.union options) :=
    (said.written id _).mpr (.inr ⟨(.internUnion options, .place id), made, rfl, rfl⟩)
  refine ⟨fun call id given => ?_, said.written, fun id type call held => ?_, fun id type => ?_,
    fun options others one two first second => ?_, toList_increasing store, fun _ _ => mem_toList⟩
  · have effect := answer_effect store call
    rw [given] at effect
    generalize (store.answer call).2 = next at effect
    have fresh (earlier : Call) : (earlier, .place ⟨store.size⟩) ∉ log :=
      fun made => Nat.lt_irrefl _ (said.handed earlier _ made)
    cases effect with
    | pushed _ _ _ slots _ => exact .inl ⟨rfl, by simp [size, slots], fresh⟩
    | known listed => exact .inr ⟨⟨_, rfl⟩, (said.unions ..).mp listed, rfl⟩
  · have after := (reached.call call).records
    rw [after.written, written_cons]
    exact .inl ((said.written id type).mp held)
  · rw [← said.awaited]
    constructor
    · intro vacant
      rw [answer, finish_of_empty vacant.1 vacant.2]
    · intro full
      rw [answer, finish_of_full type full]
  · refine ⟨⟨?_, ?_⟩, holds first⟩
    · rintro rfl
      simpa using (holds first).symm.trans (holds second)
    · rintro rfl
      simpa using ((said.unions _ _).mpr first).symm.trans ((said.unions _ _).mpr second)

/-- A place is handed out, a union is asked for, and the place is filled. It is not filled again,
and the union with its options exchanged is another one. -/
theorem store_only_grows_once : ∃ store log, Reached store log ∧
    ((.internUnion [void, never], .place ⟨4⟩) ∈ log ∧ (.internUnion [never, void], .place ⟨5⟩) ∈ log ∧
      store.get? ⟨4⟩ = some (.union [void, never])) ∧
    ((.finish ⟨3⟩ .error, .filled) ∈ log ∧
      store.answer (.finish ⟨3⟩ (.intrinsic .void)) = (.refused (.finishedTwice ⟨3⟩), store)) ∧
    (store.answer (.internUnion [void, never])).1 = .place ⟨4⟩ ∧
      (store.answer (.internUnion [void, never])).2 = store := by
  have reached := (((Reached.new.call .reserve).call (.internUnion [void, never])).call
    (.finish ⟨3⟩ .error)).call (.internUnion [never, void])
  obtain ⟨places, _, _, fills, unions, _⟩ := store_only_grows reached
  have made := (unions [void, never] [void, never] ⟨4⟩ ⟨4⟩ (by decide) (by decide)).2
  have full := (fills ⟨3⟩ (.intrinsic .void)).2 fun awaited => awaited.2 .error (by decide)
  refine ⟨_, _, reached, ⟨by decide, by decide, made⟩, ⟨by decide, full⟩, rfl, ?_⟩
  rcases places (.internUnion [void, never]) ⟨4⟩ rfl with ⟨_, _, new⟩ | ⟨_, _, same⟩
  · exact absurd (by decide) (new (.internUnion [void, never]))
  · exact same

end Idl.TypeStore
