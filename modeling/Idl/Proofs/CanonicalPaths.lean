import Idl.Proofs.LoadingOrder
import Idl.Proofs.WalkedPaths

/-! The form of a path that normalizing gives. It is at most one step out and then names,
so normalizing it again changes nothing, and it can be written down and read back
without loss. Loading compares paths of this form only: the files it is asked to
load by itself are normalized, and what a file imports is normalized from there. So
two ways to spell a file that normalize to the same path are one text, and a file is
loaded once however it is spelled. -/
namespace Idl

namespace Path

/-! ### Normal forms -/

/-- A name that stands for a file or directory between two slashes. -/
def IsName (name : String) : Prop :=
  name ≠ "" ∧ name ≠ "." ∧ name ≠ ".." ∧ '/' ∉ name.toList

/-- Every name on the way is one that a text can spell. -/
def Named (path : Path) : Prop := ∀ name, .entry name ∈ path.steps → IsName name

/-- A path without `.` and empty names in it, and without `..` after a name. -/
structure Tidy (path : Path) : Prop where
  moving : .here ∉ path.steps
  named : path.Named
  outward : path.steps.Pairwise fun earlier later => later = .up → ∀ name, earlier ≠ .entry name

/-- A path that normalizing leaves as it is, and that its own text spells. -/
structure Canonical (path : Path) : Prop extends Tidy path where
  fixed : path.normalize = path
  spelled : ofString path.text = path
  /-- Between the slashes of the text stand the steps and nothing else. -/
  pieces : path.steps ≠ [] → path.text.toList.splitOn '/' =
    (if path.absolute then [[]] else []) ++ path.steps.map (·.text.toList)

theorem rise_entries (names : List String) : rise (names.map .entry).reverse = 0 := by
  have below := rise_le_ups (names.map .entry).reverse
  have level : (names.map Step.entry).reverse.count .up = 0 := by simp [List.count_eq_zero]
  omega

theorem rise_settled (levels : Nat) (names : List String) :
    rise (kept levels ++ (names.map .entry).reverse) = levels % 2 := by
  unfold kept
  rcases Nat.mod_two_eq_zero_or_one levels with even | odd
  · rw [if_neg (by omega), List.nil_append, rise_entries, even]
  · rw [if_pos odd, List.singleton_append, rise, rise_entries, odd]

/-- Where nothing is left to carry out, nothing changes. -/
theorem collapse_settled (levels : Nat) (names : List String) :
    collapse (kept levels ++ (names.map .entry).reverse) =
      kept levels ++ (names.map .entry).reverse := by
  have level : kept (levels % 2) = kept levels := by simp [kept]
  rw [collapse_eq, rise_settled, level, follow_append, follow_kept, List.drop_nil, follow_entries,
    List.append_nil]

theorem collapse_collapse (steps : List Step) : collapse (collapse steps) = collapse steps := by
  rw [collapse_eq steps, collapse_settled]

theorem normalize_fixed (path : Path) : path.normalize.normalize = path.normalize :=
  congrArg (Path.mk path.absolute) (collapse_collapse path.steps)

/-- What normalizing leaves as it is: at most one step out, and then names. -/
theorem normalize_eq_self_iff (path : Path) : path.normalize = path ↔
    ∃ names : List String,
      path.steps = names.map .entry ∨ path.steps = .up :: names.map .entry := by
  obtain ⟨absolute, steps⟩ := path
  constructor
  · intro same
    have steps_eq : collapse steps = steps := congrArg Path.steps same
    refine ⟨(follow steps []).reverse, ?_⟩
    rw [collapse_eq, kept, ← List.map_reverse] at steps_eq
    split at steps_eq
    · exact .inr steps_eq.symm
    · exact .inl steps_eq.symm
  · rintro ⟨names, rfl | rfl⟩
    · exact congrArg (Path.mk absolute) (by simpa [kept] using collapse_settled 0 names.reverse)
    · exact congrArg (Path.mk absolute) (by simpa [kept] using collapse_settled 1 names.reverse)

/-- The names that are left were on the way. -/
theorem mem_of_mem_follow {steps : List Step} (left : name ∈ follow steps place) :
    .entry name ∈ steps ∨ name ∈ place := by
  induction steps generalizing place with
  | nil => exact .inr left
  | cons step rest ih =>
    rcases ih left with later | there
    · exact .inl (List.mem_cons_of_mem _ later)
    · cases step with
      | here => exact .inr there
      | up => exact .inr (List.mem_of_mem_tail there)
      | entry first =>
        rcases List.mem_cons.mp there with rfl | there
        · exact .inl (List.mem_cons_self ..)
        · exact .inr there

theorem mem_of_mem_collapse {steps : List Step} (left : .entry name ∈ collapse steps) :
    .entry name ∈ steps := by
  have among : name ∈ follow steps [] := by
    rw [collapse_eq, kept] at left
    rcases List.mem_append.mp left with out | inside
    · split at out <;> simp at out
    · simpa using inside
  exact (mem_of_mem_follow among).resolve_right (by simp)

theorem Tidy.normalize {path : Path} (named : path.Named) : path.normalize.Tidy where
  moving := by
    show .here ∉ collapse path.steps
    rw [collapse_eq, kept]
    split <;> simp
  named := fun name left => named name (mem_of_mem_collapse left)
  outward := by
    show (collapse path.steps).Pairwise _
    have below : ((follow path.steps []).map Step.entry).reverse.Pairwise
        fun earlier later => later = .up → ∀ name, earlier ≠ .entry name := by
      refine List.Pairwise.imp_of_mem (fun _ mem _ out => ?_)
        (List.pairwise_of_forall fun _ _ => trivial)
      simp [out] at mem
    rw [collapse_eq, kept]
    split
    · exact List.pairwise_cons.mpr ⟨fun _ _ _ _ => by simp, below⟩
    · exact below

/-! ### Writing a path down -/

theorem splitOn_slash_cons (text : List Char) :
    ('/' :: text).splitOn '/' = [] :: text.splitOn '/' := by
  rw [List.splitOn_eq_splitOnP, List.splitOnP_cons_eq_if_modifyHead, List.splitOn_eq_splitOnP]
  rfl

/-- No piece between two marks has the mark in it. -/
theorem not_mem_piece {text : List Char} (among : piece ∈ text.splitOn mark) : mark ∉ piece := by
  rw [List.splitOn_eq_splitOnP] at among
  induction text generalizing piece with
  | nil =>
    obtain rfl : piece = [] := by simpa using among
    simp
  | cons char rest ih =>
    rw [List.splitOnP_cons_eq_if_modifyHead] at among
    split at among
    · rcases List.mem_cons.mp among with rfl | later
      · simp
      · exact ih later
    · rename_i other
      obtain ⟨first, others, split⟩ :=
        List.exists_cons_of_ne_nil (List.splitOnP_ne_nil (· == mark) rest)
      rw [split, List.modifyHead_cons] at among
      rcases List.mem_cons.mp among with rfl | later
      · have inner : mark ∉ first := ih (split ▸ List.mem_cons_self ..)
        rw [List.mem_cons, not_or]
        exact ⟨fun same => other (beq_iff_eq.mpr same.symm), inner⟩
      · exact ih (split ▸ List.mem_cons_of_mem _ later)

/-- What a piece between two slashes stands for, if it is a name, is spelled by the piece. -/
theorem Step.isName_of_ofPiece? (inside : '/' ∉ piece)
    (read : Step.ofPiece? piece = some (.entry name)) : IsName name := by
  unfold Step.ofPiece? at read
  split at read
  · cases read
  · rename_i short
    split at read
    · cases read
    · rename_i out
      cases read
      simp only [not_or] at short
      refine ⟨?_, ?_, ?_, by simpa using inside⟩
      · exact fun same => short.1 (by simpa using congrArg String.toList same)
      · exact fun same => short.2 (by simpa using congrArg String.toList same)
      · exact fun same => out (by simpa using congrArg String.toList same)

theorem named_ofString (text : String) : (ofString text).Named := by
  have pieces (name : String) (mem : .entry name ∈
      (text.toList.splitOn '/').filterMap Step.ofPiece?) : IsName name := by
    obtain ⟨piece, among, read⟩ := List.mem_filterMap.mp mem
    exact Step.isName_of_ofPiece? (not_mem_piece among) read
  intro name mem
  unfold ofString at mem
  dsimp only at mem
  split at mem
  · exact pieces name mem
  · exact pieces name ((List.mem_cons.mp mem).resolve_left (by simp))
  · exact pieces name mem

/-- A step of a path without `.` is read back from its text. -/
theorem Step.ofPiece?_text (moving : step ≠ .here)
    (named : ∀ name, step = .entry name → IsName name) :
    Step.ofPiece? step.text.toList = some step := by
  cases step with
  | here => exact absurd rfl moving
  | up => rfl
  | entry name =>
    obtain ⟨something, here, out, _⟩ := named name rfl
    have other (word : String) (different : name ≠ word) : name.toList ≠ word.toList :=
      fun same => different (String.toList_inj.mp same)
    have short : ¬ (name.toList = [] ∨ name.toList = ['.']) :=
      not_or.mpr ⟨other "" something, other "." here⟩
    have long : name.toList ≠ ['.', '.'] := other ".." out
    rw [Step.text, Step.ofPiece?, if_neg short, if_neg long, String.ofList_toList]

namespace Tidy
variable {path : Path} (tidy : path.Tidy)
include tidy

theorem step {step : Step} (mem : step ∈ path.steps) :
    step ≠ .here ∧ '/' ∉ step.text.toList ∧ Step.ofPiece? step.text.toList = some step := by
  have moving : step ≠ .here := fun same => tidy.moving (same ▸ mem)
  refine ⟨moving, ?_, Step.ofPiece?_text moving fun name same => tidy.named name (same ▸ mem)⟩
  cases step with
  | here => exact absurd rfl moving
  | up => decide
  | entry name => exact (tidy.named name mem).2.2.2

/-- The pieces of the text are those of the steps. -/
theorem splitOn_steps (some : path.steps ≠ []) :
    ("/".intercalate (path.steps.map Step.text)).toList.splitOn '/' =
      path.steps.map fun step => step.text.toList := by
  have joined : ("/".intercalate (path.steps.map Step.text)).toList =
      ['/'].intercalate (path.steps.map fun step => step.text.toList) := by
    rw [String.toList_intercalate, List.map_map]
    rfl
  rw [joined]
  refine List.splitOn_intercalate '/' ?_ (by simpa using some)
  rintro _ among inside
  obtain ⟨step, mem, rfl⟩ := List.mem_map.mp among
  exact (tidy.step mem).2.1 inside

/-- The text of an absolute path starts with a slash. -/
theorem splitOn_text (some : path.steps ≠ []) : path.text.toList.splitOn '/' =
    (if path.absolute then [[]] else []) ++ path.steps.map (·.text.toList) := by
  have steps := tidy.splitOn_steps some
  unfold Path.text
  split
  · rw [String.toList_append]
    exact (splitOn_slash_cons _).trans (congrArg ([] :: ·) steps)
  · exact steps

theorem ofString_text : ofString path.text = path := by
  obtain ⟨absolute, steps⟩ := path
  have spelled : ((("/".intercalate (steps.map Step.text)).toList.splitOn '/').filterMap
      Step.ofPiece?) = steps := by
    by_cases none : steps = []
    · rw [none]
      rfl
    · rw [tidy.splitOn_steps none, List.filterMap_map]
      exact (List.filterMap_congr fun _ among => (tidy.step among).2.2).trans List.filterMap_some
  cases absolute with
  | true =>
    have text : (Path.text ⟨true, steps⟩).toList =
        '/' :: ("/".intercalate (steps.map Step.text)).toList := by
      simp [Path.text]
    unfold ofString
    simp only [text, splitOn_slash_cons]
    exact congrArg (Path.mk true) spelled
  | false =>
    have text : Path.text ⟨false, steps⟩ = "/".intercalate (steps.map Step.text) := rfl
    cases steps with
    | nil => rfl
    | cons first rest =>
      have pieces := tidy.splitOn_steps (by simp)
      have own := (tidy.step (List.mem_cons_self ..)).2.2
      rw [← text] at pieces spelled
      unfold ofString
      dsimp only
      split
      · -- A text that starts with a slash has an empty first piece, which is no step.
        rename_i after start
        rw [start, splitOn_slash_cons] at pieces
        have none : [] = first.text.toList := (List.cons.inj pieces).1
        rw [← none] at own
        cases own
      · rename_i start _
        rw [start] at pieces
        have dot : ['.'] = first.text.toList := (List.cons.inj pieces).1
        rw [← dot] at own
        cases own
      · exact congrArg (Path.mk false) spelled

end Tidy

theorem Canonical.normalize {path : Path} (named : path.Named) : path.normalize.Canonical :=
  { Tidy.normalize named with
    fixed := normalize_fixed path
    spelled := (Tidy.normalize named).ofString_text
    pieces := (Tidy.normalize named).splitOn_text }

/-- Paths of this form are the same if their texts are. -/
theorem Canonical.text_inj {two : Path} (first : one.Canonical) (second : two.Canonical)
    (same : one.text = two.text) : one = two := by
  rw [← first.spelled, same, second.spelled]

/-! ### Imports -/

/-- What an import names is normalized, whatever the importing file. -/
theorem exists_resolveImport (importing : Path) (specifier : String) :
    ∃ path : Path, importing.resolveImport specifier = path.normalize ∧
      (importing.Named → path.Named) := by
  have given := named_ofString specifier
  unfold resolveImport
  dsimp only
  split
  · exact ⟨_, rfl, fun _ => given⟩
  · rename_i relative
    refine ⟨_, rfl, fun named name mem => ?_⟩
    have around (inside : .entry name ∈ importing.directory.steps) : IsName name := by
      unfold directory at inside
      split at inside
      · cases inside
      · exact named name (List.dropLast_subset _ inside)
    unfold join at mem
    rw [if_neg relative] at mem
    split at mem
    · exact given name mem
    · rcases List.mem_append.mp mem with before | after
      · exact around before
      · exact given name (List.mem_of_mem_filter after)

theorem Canonical.resolveImport {importing : Path} (named : importing.Named) (specifier : String) :
    (importing.resolveImport specifier).Canonical := by
  obtain ⟨path, same, inherited⟩ := exists_resolveImport importing specifier
  rw [same]
  exact .normalize (inherited named)

end Path

/-! ### Loading -/

namespace Loading

/-- All that loading follows is in normal form. -/
theorem canonical_visits (host : Host) (options : Options) (entry : String) :
    ∀ visit ∈ visits host (roots options entry) [], visit.path.Canonical := by
  refine forall_visits (fun path canonical next imported => ?_) fun request asked => ?_
  · unfold Host.importsOf at imported
    split at imported
    · cases imported
    · obtain ⟨decl, _, rfl⟩ := List.mem_map.mp imported
      exact .resolveImport canonical.named decl.path
  · obtain ⟨text, _, rfl⟩ := List.mem_map.mp asked
    exact .normalize (Path.named_ofString text)

/-- The files beside the library are those of the order. -/
theorem Holds.paths (holds : Holds host options order loading) :
    (loading.files.filter (·.id ≠ .library)).map (·.path) = order := by
  have user (number : Nat) (path : Path) (mem : (path, number) ∈ order.zipIdx 1) :
      (⟨number⟩ : FileId) ≠ .library := by
    have positive := (List.mem_zipIdx mem).1
    rintro same
    cases same
    exact absurd positive (by decide)
  have numbers : (order.zipIdx 1).filter (fun entry => (⟨entry.2⟩ : FileId) ≠ .library) =
      order.zipIdx 1 := by
    rw [List.filter_eq_self]
    exact fun entry mem => by simpa using user entry.2 entry.1 mem
  have entries := congrArg (fun list : List (FileId × Path) =>
    (list.filter (·.1 ≠ .library)).map (·.2)) holds.numbered
  rw [List.filter_append, List.filter_map, List.filter_map] at entries
  have library : (if options.nostdlib then [] else [((⟨0⟩ : FileId),
      Path.ofString StandardLibrary.path)]).filter (·.1 ≠ .library) = [] := by
    split <;> rfl
  rw [library, List.nil_append, Function.comp_def, Function.comp_def, numbers, List.map_map,
    List.map_map] at entries
  simpa [Function.comp_def] using entries

/-- Loading asks for paths in normal form, each once, and what it has loaded it has asked for. -/
theorem canonical_asked (ran : ofEntry host options entry = some (loading, error)) :
    (∀ path ∈ loading.asked, path.Canonical) ∧ loading.asked.Nodup ∧
      (loading.files.filter (·.id ≠ .library)).map (·.path) <+: loading.asked := by
  have plain : ∀ request ∈ roots options entry, request.importedFrom = none := by
    unfold roots
    exact List.forall_mem_map.mpr fun _ _ => rfl
  have ends := endsAlong_visits host options plain
  have once := (breadthFirst_visits host (roots options entry)).once
  have canonical := List.forall_mem_map.mpr (canonical_visits host options entry)
  rw [ofEntry] at ran
  cases error with
  | none =>
    obtain ⟨holds, asked⟩ := ends.success loading ran
    rw [asked, holds.paths]
    exact ⟨canonical, once, List.prefix_rfl⟩
  | some error =>
    obtain ⟨before, path, ⟨⟨after, split⟩, _⟩, _, _, holds, asked⟩ := ends.failure loading error ran
    have front : before ++ [path] <+: (visits host (roots options entry) []).map (·.path) :=
      ⟨after, by rw [split, List.append_assoc]; rfl⟩
    rw [asked, holds.paths]
    exact ⟨fun other mem => canonical other (front.subset mem), once.sublist front.sublist,
      List.prefix_append ..⟩

end Loading

/-- Normalizing gives a normal form and leaves just those as they are, and what an import names is
one. Loading asks for normal forms only, so that paths are the same where their texts are, and it
asks for each text once. -/
theorem Path.normalize_canonical (host : Host) (options : Options) (entry : String) :
    (∀ path : Path, path.normalize.normalize = path.normalize ∧
      (path.normalize = path ↔ ∃ names : List String,
        path.steps = names.map .entry ∨ path.steps = .up :: names.map .entry)) ∧
    (∀ text, (ofString text).normalize.Canonical) ∧
    (∀ (importing : Path) specifier,
      (importing.resolveImport specifier).normalize = importing.resolveImport specifier) ∧
    (∀ file specifier, ((ofString file).resolveImport specifier).Canonical) ∧
    ∀ loading error, Loading.ofEntry host options entry = some (loading, error) →
      (∀ path ∈ loading.asked, path.Canonical) ∧ (loading.asked.map text).Nodup ∧
        (loading.files.filter (·.id ≠ .library)).map (·.path) <+: loading.asked := by
  refine ⟨fun path => ⟨normalize_fixed path, normalize_eq_self_iff path⟩,
    fun text => .normalize (named_ofString text), fun importing specifier => ?_,
    fun file => .resolveImport (named_ofString file), fun loading error ran => ?_⟩
  · obtain ⟨path, same, _⟩ := exists_resolveImport importing specifier
    rw [same, normalize_fixed]
  · obtain ⟨canonical, once, loaded⟩ := Loading.canonical_asked ran
    refine ⟨canonical, ?_, loaded⟩
    exact once.map_on fun one first two second =>
      (canonical one first).text_inj (canonical two second)

/-- A file that is imported under three spellings is loaded once. -/
theorem Path.normalize_canonical_respelled :
    let host : Host := Dictionary.ofList
      [(ofString "/p/main", .text "import \"./a\"; import \"../p//b/../a\"; import \"/p/./a\";"),
        (ofString "/p/a", .text "")]
    ∃ loading, Loading.ofEntry host { nostdlib := true } "/p/x/../main" = some (loading, none) ∧
      loading.asked.map text = ["/p/main", "/p/a"] ∧ (loading.asked.map text).Nodup := by
  intro host
  have ran : ((Loading.ofEntry host { nostdlib := true } "/p/x/../main").map fun outcome =>
      (outcome.1.asked.map text, outcome.2)) = some (["/p/main", "/p/a"], none) := by
    decide +kernel
  obtain ⟨⟨loading, error⟩, ended, same⟩ := Option.map_eq_some_iff.mp ran
  obtain ⟨texts, rfl⟩ := Prod.mk.inj same
  obtain ⟨_, _, _, _, loads⟩ := Path.normalize_canonical host { nostdlib := true } "/p/x/../main"
  exact ⟨loading, ended, texts, (loads loading none ended).2.1⟩

end Idl
