import Idl.CheckedType
import Idl.Dictionary

/-!
The store of all types of a program.

A place in the store is handed out when work on a type starts, so that others can refer to it, and
is filled exactly once. Nothing is ever taken out or changed. A union has one place for each list
of options.
-/

namespace Idl

inductive SlotError where
  | finishedTwice (id : TypeId)
  | neverReserved (id : TypeId)
deriving DecidableEq, Repr

def SlotError.message : SlotError → String
  | finishedTwice id => s!"type slot TypeId({id.index}) finished twice"
  | neverReserved id => s!"type slot TypeId({id.index}) was never reserved"

structure TypeStore where
  /-- The places handed out so far; a place that is not yet filled holds nothing. -/
  slots : Array (Option CheckedType)
  unions : Dictionary (List TypeId) TypeId := {}

namespace TypeStore

def void : TypeId := ⟨0⟩
def never : TypeId := ⟨1⟩
def error : TypeId := ⟨2⟩

def empty : TypeStore :=
  { slots := #[some (.intrinsic .void), some (.intrinsic .never), some .error] }

def intrinsic : Intrinsic → TypeId
  | .void => void
  | .never => never

def size (store : TypeStore) : Nat := store.slots.size

def get? (store : TypeStore) (id : TypeId) : Option CheckedType := store.slots[id.index]?.join

def isFinished (store : TypeStore) (id : TypeId) : Bool := (store.get? id).isSome

/-- The place of errors, or a place that was filled with an error. -/
def isError (store : TypeStore) (id : TypeId) : Bool :=
  id == error || ((store.get? id).map CheckedType.isError).getD false

def alloc (store : TypeStore) (type : CheckedType) : TypeId × TypeStore :=
  (⟨store.size⟩, { store with slots := store.slots.push (some type) })

/-- Hands out a place to be filled later. -/
def reserve (store : TypeStore) : TypeId × TypeStore :=
  (⟨store.size⟩, { store with slots := store.slots.push none })

/-- Fills a place that was handed out and not yet filled. -/
def finish (store : TypeStore) (id : TypeId) (type : CheckedType) : Except SlotError TypeStore :=
  match store.slots[id.index]? with
  | some none => .ok { store with slots := store.slots.setIfInBounds id.index (some type) }
  | some (some _) => .error (.finishedTwice id)
  | none => .error (.neverReserved id)

/-- The union of some options, in this order. -/
def internUnion (store : TypeStore) (options : List TypeId) : TypeId × TypeStore :=
  match store.unions.get? options with
  | some id => (id, store)
  | none =>
    let (id, store) := store.alloc (.union options)
    (id, { store with unions := store.unions.insert options id })

/-- The filled places in order. -/
def toList (store : TypeStore) : List (TypeId × CheckedType) :=
  store.slots.toList.zipIdx.filterMap fun (slot, index) => slot.map (⟨index⟩, ·)

def unfinished (store : TypeStore) : List TypeId :=
  store.slots.toList.zipIdx.filterMap fun (slot, index) =>
    if slot.isNone then some ⟨index⟩ else none

def model? (store : TypeStore) (id : TypeId) : Option ModelType :=
  (store.get? id).bind CheckedType.model?

def operation? (store : TypeStore) (id : TypeId) : Option OperationType :=
  (store.get? id).bind CheckedType.operation?

def interface? (store : TypeStore) (id : TypeId) : Option InterfaceType :=
  (store.get? id).bind CheckedType.interface?

/-! What each operation does to the places of the store. -/

theorem slots_alloc (store : TypeStore) (type : CheckedType) :
    (store.alloc type).2.slots = store.slots.push (some type) := rfl

theorem slots_reserve (store : TypeStore) : store.reserve.2.slots = store.slots.push none := rfl

theorem get?_alloc (store : TypeStore) (type : CheckedType) (id : TypeId) :
    (store.alloc type).2.get? id = if id.index = store.size then some type else store.get? id := by
  simp only [get?, slots_alloc, Array.getElem?_push, size]
  by_cases last : id.index = store.slots.size
  · simp [last]
  · simp [last]

theorem get?_alloc_self (store : TypeStore) (type : CheckedType) :
    (store.alloc type).2.get? (store.alloc type).1 = some type := by
  rw [get?_alloc]
  exact if_pos rfl

theorem get?_reserve (store : TypeStore) (id : TypeId) : store.reserve.2.get? id = store.get? id := by
  simp only [get?, slots_reserve, Array.getElem?_push]
  split
  · rename_i last
    simp [last]
  · rfl

theorem get?_finish {store after : TypeStore} {id : TypeId} {type : CheckedType}
    (ran : store.finish id type = .ok after) (other : TypeId) :
    after.get? other = if other = id then some type else store.get? other := by
  unfold finish at ran
  split at ran
  · rename_i reserved
    cases ran
    obtain ⟨inside, _⟩ := Array.getElem?_eq_some_iff.mp reserved
    have same : id.index = other.index ↔ other = id := by
      constructor
      · intro equal
        cases id; cases other; simp_all
      · rintro rfl; rfl
    simp only [get?, Array.getElem?_setIfInBounds]
    by_cases named : other = id
    · subst named
      simp [inside]
    · simp [named, mt same.mp named]
  · cases ran
  · cases ran

@[simp] theorem size_alloc (store : TypeStore) (type : CheckedType) :
    (store.alloc type).2.size = store.size + 1 := by
  simp [size, slots_alloc]

@[simp] theorem size_reserve (store : TypeStore) : store.reserve.2.size = store.size + 1 := by
  simp [size, slots_reserve]

/-- What has been filled was handed out. -/
theorem lt_size_of_get? {store : TypeStore} {id : TypeId} {type : CheckedType}
    (found : store.get? id = some type) : id.index < store.size := by
  cases slot : store.slots[id.index]? with
  | none => simp [get?, slot] at found
  | some held => exact (Array.getElem?_eq_some_iff.mp slot).1

/-- A place is empty when it is handed out. -/
theorem vacant_reserve (store : TypeStore) : store.reserve.2.get? ⟨store.size⟩ = none := by
  rw [get?_reserve]
  cases found : store.get? ⟨store.size⟩ with
  | none => rfl
  | some type => exact absurd (lt_size_of_get? found) (Nat.lt_irrefl _)

/-- The store with a place filled. -/
def fill (store : TypeStore) (id : TypeId) (type : CheckedType) : TypeStore :=
  { store with slots := store.slots.setIfInBounds id.index (some type) }

@[simp] theorem size_fill (store : TypeStore) (id : TypeId) (type : CheckedType) :
    (store.fill id type).size = store.size := by
  simp [size, fill]

/-- A place that was handed out and is empty can be filled. -/
theorem finish_of_empty {store : TypeStore} {id : TypeId} (held : id.index < store.size)
    (empty : store.get? id = none) (type : CheckedType) :
    store.finish id type = .ok (store.fill id type) := by
  have slot : store.slots[id.index]? = some none := by
    unfold get? at empty
    rw [Array.getElem?_eq_getElem held] at empty ⊢
    simpa using empty
  simp [finish, slot, fill]

theorem get?_fill {store : TypeStore} {id : TypeId} (held : id.index < store.size)
    (empty : store.get? id = none) (type : CheckedType) (other : TypeId) :
    (store.fill id type).get? other = if other = id then some type else store.get? other :=
  get?_finish (finish_of_empty held empty type) other

/-- Filling an empty place leaves every filled one as it is. -/
theorem get?_fill_of_some {store : TypeStore} {id other : TypeId} {found : CheckedType}
    (empty : store.get? id = none) (held : store.get? other = some found) (type : CheckedType) :
    (store.fill id type).get? other = some found := by
  by_cases inside : id.index < store.size
  · have different : other ≠ id := by
      rintro rfl
      rw [empty] at held
      cases held
    rw [get?_fill inside empty, if_neg different, held]
  · have same : store.fill id type = store := by
      simp only [fill, Array.setIfInBounds, size] at inside ⊢
      simp [inside]
    rw [same, held]

end TypeStore

end Idl
