/-!
Dictionaries that remember the order in which their keys first came in.

A key holds one value. Giving a key a new value leaves the key in its place. `get?` is the view
through which the other operations are described.
-/

namespace Idl

structure Dictionary (κ ν : Type) where
  entries : List (κ × ν) := []
deriving Repr

namespace Dictionary

variable {κ ν : Type} [DecidableEq κ]

def find? (key : κ) : List (κ × ν) → Option ν
  | [] => none
  | (k, v) :: rest => if k = key then some v else find? key rest

/-- Gives a key a value in a list of entries, in its place or at the end. -/
def place (key : κ) (value : ν) : List (κ × ν) → List (κ × ν)
  | [] => [(key, value)]
  | (k, v) :: rest => if k = key then (k, value) :: rest else (k, v) :: place key value rest

def get? (d : Dictionary κ ν) (key : κ) : Option ν := find? key d.entries

def getD (d : Dictionary κ ν) (key : κ) (fallback : ν) : ν := (d.get? key).getD fallback

def contains (d : Dictionary κ ν) (key : κ) : Bool := (d.get? key).isSome

def insert (d : Dictionary κ ν) (key : κ) (value : ν) : Dictionary κ ν :=
  ⟨place key value d.entries⟩

def erase (d : Dictionary κ ν) (key : κ) : Dictionary κ ν :=
  ⟨d.entries.filter fun entry => entry.1 ≠ key⟩

omit [DecidableEq κ] in
def keys (d : Dictionary κ ν) : List κ := d.entries.map (·.1)

omit [DecidableEq κ] in
def values (d : Dictionary κ ν) : List ν := d.entries.map (·.2)

omit [DecidableEq κ] in
def size (d : Dictionary κ ν) : Nat := d.entries.length

/-- The entries of a list one after the other, so that a later one of a key wins. -/
def ofList (entries : List (κ × ν)) : Dictionary κ ν :=
  entries.foldl (fun d entry => d.insert entry.1 entry.2) {}

/-- The first dictionary with the entries of the second laid over it. -/
def layer (d upper : Dictionary κ ν) : Dictionary κ ν :=
  upper.entries.foldl (fun d entry => d.insert entry.1 entry.2) d

private theorem find?_place (entries : List (κ × ν)) (key other : κ) (value : ν) :
    find? other (place key value entries) = if key = other then some value else find? other entries := by
  induction entries with
  | nil => simp [place, find?]
  | cons entry rest ih =>
    obtain ⟨k, v⟩ := entry
    simp only [place]
    by_cases same : k = key
    · subst same
      simp only [if_pos, find?]
      split <;> rfl
    · rw [if_neg same]
      simp only [find?, ih]
      by_cases named : k = other
      · subst named
        simp [Ne.symm same]
      · simp [named]

private theorem mem_of_find? {entries : List (κ × ν)} {key : κ} {value : ν}
    (found : find? key entries = some value) : key ∈ entries.map (·.1) := by
  induction entries with
  | nil => cases found
  | cons entry rest ih =>
    obtain ⟨k, v⟩ := entry
    simp only [find?] at found
    split at found
    · rename_i same
      simp [same]
    · exact List.mem_cons_of_mem _ (ih found)

theorem mem_keys_of_get? {d : Dictionary κ ν} {key : κ} {value : ν}
    (found : d.get? key = some value) : key ∈ d.keys :=
  mem_of_find? found

@[simp] theorem get?_empty (key : κ) : ({} : Dictionary κ ν).get? key = none := rfl

theorem get?_insert (d : Dictionary κ ν) (key other : κ) (value : ν) :
    (d.insert key value).get? other = if key = other then some value else d.get? other :=
  find?_place d.entries key other value

@[simp] theorem get?_insert_self (d : Dictionary κ ν) (key : κ) (value : ν) :
    (d.insert key value).get? key = some value := by
  simp [get?_insert]

theorem get?_insert_of_ne (d : Dictionary κ ν) {key other : κ} (different : key ≠ other) (value : ν) :
    (d.insert key value).get? other = d.get? other := by
  simp [get?_insert, different]

private theorem get?_foldl_insert {entries : List (κ × ν)} {d : Dictionary κ ν} {key : κ} {value : ν}
    (found : (entries.foldl (fun d entry => d.insert entry.1 entry.2) d).get? key = some value) :
    d.get? key = some value ∨ (key, value) ∈ entries := by
  induction entries generalizing d with
  | nil => exact .inl found
  | cons entry rest ih =>
    rcases ih found with early | late
    · rw [get?_insert] at early
      split at early
      · rename_i same
        cases early
        exact .inr (by simp [← same])
      · exact .inl early
    · exact .inr (List.mem_cons_of_mem _ late)

theorem mem_of_get?_ofList {entries : List (κ × ν)} {key : κ} {value : ν}
    (found : (ofList entries).get? key = some value) : (key, value) ∈ entries :=
  (get?_foldl_insert found).resolve_left nofun

private theorem get?_foldl_insert_ne_none {entries : List (κ × ν)} {d : Dictionary κ ν} {key : κ}
    (listed : d.get? key ≠ none ∨ key ∈ entries.map (·.1)) :
    (entries.foldl (fun d entry => d.insert entry.1 entry.2) d).get? key ≠ none := by
  induction entries generalizing d with
  | nil => exact listed.resolve_right nofun
  | cons entry rest ih =>
    refine ih ?_
    rw [get?_insert]
    by_cases same : entry.1 = key
    · exact .inl (by simp [same])
    · rw [if_neg same]
      refine listed.imp_right fun member => ?_
      rcases List.mem_cons.mp member with rfl | member
      · exact absurd rfl same
      · exact member

theorem get?_ofList_ne_none {entries : List (κ × ν)} {key : κ}
    (listed : key ∈ entries.map (·.1)) : (ofList entries).get? key ≠ none :=
  get?_foldl_insert_ne_none (.inr listed)

end Dictionary

end Idl
