import Idl.Path
import Mathlib.Data.List.Basic

/-! Where a path leads. Walking a path from a directory goes into the entries it names and
out again at each `..`, and stays at the root where there is nothing further out. What
normalizing makes of a path is told by two things: the names that are left when every
`..` has been carried out, and how far the path rises above its start. Of the rise only
one step out can be kept, so normalizing keeps where a path leads as long as it rises by
one step at most. From the root nothing is lost, since there is no way out of it. -/
namespace Idl.Path

/-! ### Walking -/

/-- The directory that one step leads to. A directory is the list of the names on the way to it from
the root, the last one first. -/
def Step.follow (place : List String) : Step → List String
  | .here => place
  | .up => place.tail
  | .entry name => name :: place

/-- Where steps lead from a directory. -/
def follow (steps : List Step) (place : List String) : List String :=
  steps.foldl Step.follow place

/-- Where a path leads from a directory. An absolute path starts at the root. -/
def walk (path : Path) (place : List String) : List String :=
  follow path.steps (if path.absolute then [] else place)

/-- The number of levels by which steps get above the directory where they start. -/
def rise : List Step → Nat
  | [] => 0
  | .here :: rest => rise rest
  | .up :: rest => rise rest + 1
  | .entry _ :: rest => rise rest - 1

theorem rise_le_ups (steps : List Step) : rise steps ≤ steps.count .up := by
  induction steps with
  | nil => exact Nat.le_refl 0
  | cons step rest ih =>
    cases step with
    | here => simpa [rise] using ih
    | up => simpa [rise] using ih
    | entry name =>
      rw [rise, List.count_cons_of_ne (by simp)]
      omega

theorem follow_append (first second : List Step) (place : List String) :
    follow (first ++ second) place = follow second (follow first place) :=
  List.foldl_append

/-- The names that are left stand above the place that the steps rise to. -/
theorem follow_eq (steps : List Step) (place : List String) :
    follow steps place = follow steps [] ++ place.drop (rise steps) := by
  induction steps generalizing place with
  | nil => rfl
  | cons step rest ih =>
    cases step with
    | here => exact ih place
    | up =>
      show follow rest place.tail = follow rest [] ++ place.drop (rise rest + 1)
      rw [ih place.tail, List.drop_tail]
    | entry name =>
      show follow rest (name :: place) = follow rest [name] ++ place.drop (rise rest - 1)
      rw [ih (name :: place), ih [name]]
      cases rise rest <;> simp

/-! ### Carrying out `..` -/

/-- What is kept of a rise: taking back a kept `..` leaves nothing of the two. -/
def kept (levels : Nat) : List Step := if levels % 2 = 1 then [.up] else []

theorem kept_succ (levels : Nat) : collapseStep (kept levels) .up = kept (levels + 1) := by
  unfold kept
  rcases Nat.mod_two_eq_zero_or_one levels with even | odd
  · rw [if_neg (by omega), if_pos (by omega)]
    rfl
  · rw [if_pos odd, if_neg (by omega)]
    rfl

/-- While steps are carried out, what is done is a list of names on top of what is kept. -/
theorem foldl_collapseStep (steps : List Step) (names : List String) (levels : Nat) :
    steps.foldl collapseStep (names.map .entry ++ kept levels) =
      (follow steps names).map .entry ++ kept (levels + (rise steps - names.length)) := by
  induction steps generalizing names levels with
  | nil => simp [follow, rise]
  | cons step rest ih =>
    rw [List.foldl_cons]
    cases step with
    | here => exact ih names levels
    | up =>
      cases names with
      | nil =>
        show rest.foldl collapseStep (collapseStep (kept levels) .up) = _
        rw [kept_succ]
        have onward := ih [] (levels + 1)
        simp only [List.map_nil, List.nil_append] at onward
        rw [onward]
        congr 2
        simp only [rise, List.length_nil]
        omega
      | cons name names =>
        show rest.foldl collapseStep (names.map .entry ++ kept levels) = _
        rw [ih names levels]
        congr 2
        simp only [rise, List.length_cons]
        omega
    | entry name =>
      show rest.foldl collapseStep ((name :: names).map .entry ++ kept levels) = _
      rw [ih (name :: names) levels]
      congr 2
      simp only [rise, List.length_cons]
      omega

/-- A path that has been carried out: at most one `..`, and the names that are left. -/
theorem collapse_eq (steps : List Step) :
    collapse steps = kept (rise steps) ++ ((follow steps []).map .entry).reverse := by
  have whole := foldl_collapseStep steps [] 0
  simp only [kept, List.map_nil, List.nil_append, Nat.zero_mod, Nat.zero_add, List.length_nil,
    Nat.sub_zero] at whole
  rw [collapse, show steps.foldl collapseStep [] = _ from whole, List.reverse_append, kept]
  congr 1
  split <;> rfl

theorem follow_kept (levels : Nat) (place : List String) :
    follow (kept levels) place = place.drop (levels % 2) := by
  unfold kept
  rcases Nat.mod_two_eq_zero_or_one levels with even | odd
  · rw [if_neg (by omega), even]
    rfl
  · rw [if_pos odd, odd, List.drop_one]
    rfl

theorem follow_entries (names : List String) (place : List String) :
    follow (names.map .entry).reverse place = names ++ place := by
  induction names with
  | nil => rfl
  | cons name rest ih =>
    rw [List.map_cons, List.reverse_cons, follow_append, ih]
    rfl

theorem follow_collapse (steps : List Step) (place : List String) :
    follow (collapse steps) place = follow steps [] ++ place.drop (rise steps % 2) := by
  rw [collapse_eq, follow_append, follow_kept, follow_entries]

/-- Carrying `..` out keeps where steps lead if they rise by one level at most, and only then. -/
theorem follow_collapse_iff {steps : List Step} (room : steps.count .up ≤ place.length) :
    follow (collapse steps) place = follow steps place ↔ rise steps ≤ 1 := by
  have below := rise_le_ups steps
  rw [follow_collapse, follow_eq steps place, List.append_cancel_left_eq]
  constructor
  · intro same
    have lengths := congrArg List.length same
    simp only [List.length_drop] at lengths
    omega
  · intro small
    rw [Nat.mod_eq_of_lt (by omega)]

/-- At the root there is nothing to rise to. -/
theorem follow_collapse_root (steps : List Step) : follow (collapse steps) [] = follow steps [] := by
  rw [follow_collapse, List.drop_nil, List.append_nil]

/-! ### Imports -/

/-- Steps that stay where they are do not matter. -/
theorem collapse_filter (first second : List Step) :
    collapse (first ++ second.filter (· ≠ .here)) = collapse (first ++ second) := by
  unfold collapse
  rw [List.foldl_append, List.foldl_append]
  generalize first.foldl collapseStep [] = done
  congr 1
  induction second generalizing done with
  | nil => rfl
  | cons step rest ih =>
    cases step with
    | here => exact ih done
    | up => exact ih (collapseStep done .up)
    | entry name => exact ih (collapseStep done (.entry name))

theorem normalize_join {path : Path} (relative : next.absolute = false) :
    (path.join next).normalize = ⟨path.absolute, collapse (path.steps ++ next.steps)⟩ := by
  unfold join normalize
  rw [if_neg (by simp [relative])]
  split
  · rename_i nowhere
    rw [nowhere, relative]
    rfl
  · exact congrArg (Path.mk path.absolute) (collapse_filter ..)

theorem absolute_directory {path : Path} (file : path.steps ≠ []) :
    path.directory.absolute = path.absolute := by
  rw [directory, if_neg file]

theorem resolveImport_eq {importing : Path} (relative : (ofString specifier).absolute = false) :
    importing.resolveImport specifier = ⟨importing.directory.absolute,
      collapse (importing.directory.steps ++ (ofString specifier).steps)⟩ := by
  unfold resolveImport
  rw [if_neg (by simp [relative])]
  exact normalize_join relative

/-- Where an import leads, and whether normalizing it keeps that. -/
theorem walk_resolveImport_iff {importing : Path} (outer : importing.absolute = false)
    (relative : (ofString specifier).absolute = false)
    (room : (importing.directory.steps ++ (ofString specifier).steps).count .up ≤ place.length) :
    (importing.resolveImport specifier).walk place =
        (ofString specifier).walk (importing.directory.walk place) ↔
      rise (importing.directory.steps ++ (ofString specifier).steps) ≤ 1 := by
  have around : importing.directory.absolute = false := by
    unfold directory
    split
    · rfl
    · exact outer
  rw [resolveImport_eq relative]
  simp only [walk, around, relative, Bool.false_eq_true, if_false]
  rw [← follow_append]
  exact follow_collapse_iff room

theorem walk_resolveImport_absolute {importing : Path} (file : importing.steps ≠ [])
    (outer : importing.absolute = true) (relative : (ofString specifier).absolute = false)
    (place : List String) :
    (importing.resolveImport specifier).walk place =
      (ofString specifier).walk (importing.directory.walk place) := by
  rw [resolveImport_eq relative]
  simp only [walk, absolute_directory file, outer, relative, Bool.false_eq_true, if_false, if_true]
  rw [← follow_append]
  exact follow_collapse_root _

/-- Normalizing keeps where a relative path leads exactly if the path rises by one level at most, and
it always keeps where an absolute path leads. The same holds of the file that an import names. -/
theorem walk_normalize_iff (path importing : Path) (specifier : String) (place : List String) :
    (path.absolute = false → path.steps.count .up ≤ place.length →
      (path.normalize.walk place = path.walk place ↔ rise path.steps ≤ 1)) ∧
    (path.absolute = true → path.normalize.walk place = path.walk place) ∧
    ((ofString specifier).absolute = false →
      (importing.absolute = false →
        (importing.directory.steps ++ (ofString specifier).steps).count .up ≤ place.length →
        ((importing.resolveImport specifier).walk place =
            (ofString specifier).walk (importing.directory.walk place) ↔
          rise (importing.directory.steps ++ (ofString specifier).steps) ≤ 1)) ∧
      (importing.absolute = true → importing.steps ≠ [] →
        (importing.resolveImport specifier).walk place =
          (ofString specifier).walk (importing.directory.walk place))) := by
  refine ⟨fun relative room => ?_, fun absolute => ?_,
    fun relative => ⟨fun outer room => ?_, fun outer file => ?_⟩⟩
  · simp only [walk, normalize, relative, Bool.false_eq_true, if_false]
    exact follow_collapse_iff room
  · simp only [walk, normalize, absolute, if_true]
    exact follow_collapse_root path.steps
  · exact walk_resolveImport_iff outer relative room
  · exact walk_resolveImport_absolute file outer relative place

/-- One step out is kept, and of an import that rises by two levels both are lost. -/
theorem walk_normalize_shared :
    (ofString "a/../../b").normalize.walk ["src", "proj"] = ["b", "proj"] ∧
    (ofString "a/../../b").normalize.walk ["src", "proj"] =
      (ofString "a/../../b").walk ["src", "proj"] ∧
    (ofString "/../a").normalize.walk [] = (ofString "/../a").walk [] ∧
    ((ofString "main").resolveImport "../../lib").walk ["src", "proj"] ≠
      (ofString "../../lib").walk ((ofString "main").directory.walk ["src", "proj"]) := by
  obtain ⟨kept, _, imports⟩ :=
    walk_normalize_iff (ofString "a/../../b") (ofString "main") "../../lib" ["src", "proj"]
  obtain ⟨_, outer, _⟩ := walk_normalize_iff (ofString "/../a") (ofString "main") "../../lib" []
  refine ⟨by decide +kernel, (kept (by decide +kernel) (by decide +kernel)).mpr (by decide +kernel),
    outer (by decide +kernel), ?_⟩
  exact mt ((imports (by decide +kernel)).1 (by decide +kernel) (by decide +kernel)).mp
    (by decide +kernel)

/-- Two steps out are both lost: a kept `..` is taken back by the next one. -/
theorem normalize_loses_rise :
    (ofString "../..").absolute = false ∧
    (ofString "../..").steps.count .up ≤ ["src", "proj"].length ∧
    (ofString "../..").normalize.walk ["src", "proj"] = ["src", "proj"] ∧
    (ofString "../..").walk ["src", "proj"] = [] := by
  decide +kernel

end Idl.Path
