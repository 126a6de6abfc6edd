import Idl.Options
import Idl.Proofs.CanonicalPaths

/-! Option texts and the options of emitters. What is an option text is said by what is
written: a setting is a key and a value, with an emitter before the key or not, and the
text for it has the marks between them. Reading takes back exactly the texts of
settings without a mark in a part. The options that an emitter runs with are said by
the texts alone: of those for one of its keys the last one counts. -/
namespace Idl

namespace Dictionary
variable [DecidableEq κ]

private theorem keys_place (key : κ) (value : ν) (entries : List (κ × ν)) :
    (place key value entries).map (·.1) =
      if key ∈ entries.map (·.1) then entries.map (·.1) else entries.map (·.1) ++ [key] := by
  induction entries with
  | nil => rfl
  | cons entry rest ih =>
    unfold place
    by_cases same : entry.1 = key
    · simp [same]
    · simp only [if_neg same, List.map_cons, ih, List.mem_cons, Ne.symm same, false_or]
      split <;> rfl

/-- No key stands twice. -/
theorem nodup_insert {d : Dictionary κ ν} (distinct : d.keys.Nodup) (key : κ) (value : ν) :
    (d.insert key value).keys.Nodup := by
  unfold insert keys
  rw [keys_place]
  split
  · exact distinct
  · rename_i new
    exact List.Nodup.append distinct (List.nodup_singleton key) (by simpa using new)

theorem nodup_ofList (entries : List (κ × ν)) : (ofList entries).keys.Nodup := by
  have kept (d : Dictionary κ ν) (distinct : d.keys.Nodup) :
      (entries.foldl (fun d entry => d.insert entry.1 entry.2) d).keys.Nodup := by
    induction entries generalizing d with
    | nil => exact distinct
    | cons entry rest ih => exact ih _ (nodup_insert distinct ..)
  exact kept {} List.nodup_nil

/-- Each key has what the upper dictionary gives it, or else what it had. -/
theorem get?_layer (distinct : upper.keys.Nodup) (d : Dictionary κ ν) (key : κ) :
    (d.layer upper).get? key = (upper.get? key).or (d.get? key) := by
  obtain ⟨entries⟩ := upper
  unfold layer
  induction entries generalizing d with
  | nil => rfl
  | cons entry rest ih =>
    obtain ⟨new, distinct⟩ := List.nodup_cons.mp distinct
    rw [List.foldl_cons, ih _ distinct, get?_insert]
    by_cases same : entry.1 = key
    · subst same
      have none : find? entry.1 rest = none := by
        by_contra found
        obtain ⟨value, found⟩ := Option.ne_none_iff_exists'.mp found
        exact new (mem_keys_of_get? (d := ⟨rest⟩) found)
      simp [get?, find?, none]
    · simp [get?, find?, same]

end Dictionary

/-! ### Texts -/

/-- A text with one mark in it, and the two parts of it. -/
theorem splitOn_eq_pair_iff {second : List Char} :
    text.splitOn mark = [first, second] ↔
      mark ∉ first ∧ mark ∉ second ∧ text = first ++ mark :: second := by
  constructor
  · intro split
    have pieces : ∀ piece ∈ text.splitOn mark, mark ∉ piece := fun _ => Path.not_mem_piece
    have whole : [mark].intercalate (text.splitOn mark) = text := List.intercalate_splitOn mark
    rw [split] at pieces whole
    exact ⟨pieces _ (by simp), pieces _ (by simp), by simpa [List.intercalate] using whole.symm⟩
  · rintro ⟨before, after, rfl⟩
    rw [List.splitOn_append_cons_self_of_not_mem before, List.splitOn_eq_singleton after]

/-- Where the mark stands once there is one way to part a text at it. -/
theorem eq_of_append_mark {left : List Char} (before : mark ∉ first) (after : mark ∉ second)
    (same : first ++ mark :: second = left ++ mark :: right) : first = left ∧ second = right := by
  have counted := congrArg (List.count mark) same
  simp only [List.count_append, List.count_cons_self, List.count_eq_zero_of_not_mem before,
    List.count_eq_zero_of_not_mem after] at counted
  have one : mark ∉ left := List.count_eq_zero.mp (by omega)
  have two : mark ∉ right := List.count_eq_zero.mp (by omega)
  have split := congrArg (List.splitOn mark) same
  rw [splitOn_eq_pair_iff.mpr ⟨before, after, rfl⟩, splitOn_eq_pair_iff.mpr ⟨one, two, rfl⟩]
    at split
  simpa using split

namespace Overrides

namespace Setting

/-- How a setting is written. -/
def text : Setting → String
  | misc key value => key ++ "=" ++ value
  | emitter owner key value => owner ++ "." ++ key ++ "=" ++ value

/-- A part of a key is not empty and has no mark in it. -/
def IsPart (part : String) : Prop := part ≠ "" ∧ '.' ∉ part.toList ∧ '=' ∉ part.toList

def WellFormed : Setting → Prop
  | misc key value => IsPart key ∧ '=' ∉ value.toList
  | emitter owner key value => IsPart owner ∧ IsPart key ∧ '=' ∉ value.toList

/-- A text with one `=`, and with an empty part among those of the key. -/
def HasEmptyPart (text : String) : Prop :=
  ∃ key value, text.toList = key ++ '=' :: value ∧ '=' ∉ key ∧ '=' ∉ value ∧
    ∃ parts, key = ['.'].intercalate parts ∧ [] ∈ parts ∧ ∀ part ∈ parts, '.' ∉ part

/-- A text that is written for a setting. -/
def Written (text : String) : Prop := ∃ setting : Setting, setting.WellFormed ∧ setting.text = text

theorem isPart_ofList (full : part ≠ []) (dot : '.' ∉ part) (mark : '=' ∉ part) :
    IsPart (String.ofList part) := by
  simpa [IsPart] using ⟨full, dot, mark⟩

theorem read_eq_ok_iff {text : String} :
    read text = .ok setting ↔ setting.WellFormed ∧ setting.text = text := by
  constructor
  · intro ran
    unfold read at ran
    split at ran
    · rename_i key value split
      obtain ⟨plain, free, whole⟩ := splitOn_eq_pair_iff.mp split
      have pieces : ∀ piece ∈ key.splitOn '.', '.' ∉ piece := fun _ => Path.not_mem_piece
      have joined : ['.'].intercalate (key.splitOn '.') = key := List.intercalate_splitOn '.'
      dsimp only at ran
      generalize key.splitOn '.' = parts at ran pieces joined
      split at ran
      · cases ran
      · rename_i full
        split at ran
        · rename_i part
          cases ran
          obtain rfl : part = key := by simpa [List.intercalate] using joined
          refine ⟨⟨isPart_ofList (by simpa using full) (pieces _ (by simp)) plain,
            by simpa using free⟩, ?_⟩
          rw [← String.toList_inj]
          simp [Setting.text, whole]
        · rename_i owner part
          cases ran
          obtain rfl : owner ++ '.' :: part = key := by simpa [List.intercalate] using joined
          simp only [List.mem_append, List.mem_cons, not_or] at plain full
          refine ⟨⟨isPart_ofList (Ne.symm full.1) (pieces _ (by simp)) plain.1,
            isPart_ofList (Ne.symm full.2.1) (pieces _ (by simp)) plain.2.2,
            by simpa using free⟩, ?_⟩
          rw [← String.toList_inj]
          simp [Setting.text, whole]
        · cases ran
    · cases ran
  · rintro ⟨fine, rfl⟩
    cases setting with
    | misc key value =>
      have split : (misc key value).text.toList.splitOn '=' = [key.toList, value.toList] :=
        splitOn_eq_pair_iff.mpr ⟨fine.1.2.2, fine.2, by simp [text]⟩
      have single : key.toList.splitOn '.' = [key.toList] := List.splitOn_eq_singleton fine.1.2.1
      simp [read, split, single, fine.1.1]
    | emitter owner key value =>
      obtain ⟨first, second, free⟩ := fine
      have split : (emitter owner key value).text.toList.splitOn '=' =
          [owner.toList ++ '.' :: key.toList, value.toList] :=
        splitOn_eq_pair_iff.mpr ⟨by simp [first.2.2, second.2.2], free, by simp [text]⟩
      have pair : (owner.toList ++ '.' :: key.toList).splitOn '.' = [owner.toList, key.toList] :=
        splitOn_eq_pair_iff.mpr ⟨first.2.1, second.2.1, rfl⟩
      simp [read, split, pair, first.1, second.1]

theorem hasEmptyPart_iff {text : String} : HasEmptyPart text ↔
    ∃ key value, text.toList.splitOn '=' = [key, value] ∧ [] ∈ key.splitOn '.' := by
  constructor
  · rintro ⟨key, value, whole, plain, free, parts, rfl, empty, pieces⟩
    refine ⟨_, value, splitOn_eq_pair_iff.mpr ⟨plain, free, whole⟩, ?_⟩
    rwa [List.splitOn_intercalate _ pieces (List.ne_nil_of_mem empty)]
  · rintro ⟨key, value, split, empty⟩
    obtain ⟨plain, free, whole⟩ := splitOn_eq_pair_iff.mp split
    exact ⟨key, value, whole, plain, free, _, (List.intercalate_splitOn '.').symm, empty,
      fun _ => Path.not_mem_piece⟩

/-- What a refused text is called. -/
theorem read_eq_error {text : String} (ran : read text = .error error) :
    HasEmptyPart text ∧ error = .emptyKey text ∨ ¬ HasEmptyPart text ∧ error = .malformed text := by
  rw [hasEmptyPart_iff]
  unfold read at ran
  split at ran
  · rename_i key value split
    dsimp only at ran
    split at ran
    · rename_i empty
      cases ran
      exact .inl ⟨⟨key, value, split, empty⟩, rfl⟩
    · rename_i full
      split at ran
      · cases ran
      · cases ran
      · cases ran
        refine .inr ⟨?_, rfl⟩
        rintro ⟨other, last, same, empty⟩
        cases split.symm.trans same
        exact full empty
  · rename_i other
    cases ran
    refine .inr ⟨?_, rfl⟩
    rintro ⟨key, value, split, _⟩
    exact other key value split

/-- The text of an option of an emitter is written for nothing else. -/
theorem eq_of_text_eq {setting : Setting} (fine : setting.WellFormed)
    (same : setting.text = (emitter owner key value).text) :
    setting = .emitter owner key value := by
  have chars := congrArg String.toList same
  cases setting with
  | misc other last =>
    obtain ⟨⟨_, dot, plain⟩, free⟩ := fine
    have parted : other.toList ++ '=' :: last.toList =
        (owner.toList ++ '.' :: key.toList) ++ '=' :: value.toList := by simpa [text] using chars
    rw [(eq_of_append_mark plain free parted).1] at dot
    simp at dot
  | emitter first other last =>
    obtain ⟨⟨_, dot, plain⟩, ⟨_, point, clear⟩, free⟩ := fine
    have parted : (first.toList ++ '.' :: other.toList) ++ '=' :: last.toList =
        (owner.toList ++ '.' :: key.toList) ++ '=' :: value.toList := by simpa [text] using chars
    obtain ⟨keys, values⟩ := eq_of_append_mark (by simp [plain, clear]) free parted
    obtain ⟨owners, keys⟩ := eq_of_append_mark dot point keys
    rw [String.toList_inj] at owners keys values
    rw [owners, keys, values]

end Setting

/-! ### Lists of texts -/

/-- All texts are read, or the first one that is refused ends it. -/
theorem mapM_read_cases (texts : List String) :
    (∃ settings : List Setting, (∀ setting ∈ settings, setting.WellFormed) ∧
      settings.map Setting.text = texts ∧ texts.mapM Setting.read = .ok settings) ∨
    ∃ before text after error, texts = before ++ text :: after ∧
      (∀ one ∈ before, Setting.Written one) ∧ Setting.read text = .error error ∧
      texts.mapM Setting.read = .error error := by
  induction texts with
  | nil => exact .inl ⟨[], by simp, rfl, rfl⟩
  | cons text rest ih =>
    rw [List.mapM_cons]
    cases first : Setting.read text with
    | error error => exact .inr ⟨[], text, rest, error, rfl, by simp, first, rfl⟩
    | ok setting =>
      obtain ⟨proper, rfl⟩ := Setting.read_eq_ok_iff.mp first
      rcases ih with ⟨settings, fine, written, ran⟩ |
        ⟨before, last, after, error, split, fine, refused, ran⟩
      · exact .inl ⟨setting :: settings, List.forall_mem_cons.mpr ⟨proper, fine⟩,
          congrArg (_ :: ·) written, by rw [ran]; rfl⟩
      · exact .inr ⟨setting.text :: before, last, after, error, congrArg (_ :: ·) split,
          List.forall_mem_cons.mpr ⟨⟨setting, proper, rfl⟩, fine⟩, refused, by rw [ran]; rfl⟩

/-! ### Options of an emitter -/

variable {overrides : Overrides} {settings : List Setting}

/-- What the overrides say of an option of an emitter. -/
def value? (overrides : Overrides) (owner key : String) : Option String :=
  (overrides.emitters.getD owner {}).get? key

theorem value?_add_self :
    (overrides.add (.emitter owner key value)).value? owner key = some value := by
  simp [value?, add, Dictionary.getD]

theorem value?_add_of_ne (other : ∀ value, setting ≠ .emitter owner key value) :
    (overrides.add setting).value? owner key = overrides.value? owner key := by
  cases setting with
  | misc name given => rfl
  | emitter first name given =>
    simp only [value?, add, Dictionary.getD, Dictionary.get?_insert]
    split
    · rename_i same
      subst same
      rw [Option.getD_some, Dictionary.get?_insert_of_ne]
      rintro rfl
      exact other given rfl
    · rfl

/-- Settings of other options change nothing. -/
theorem value?_foldl_of_not_mem (other : ∀ value, .emitter owner key value ∉ settings) :
    (settings.foldl add overrides).value? owner key = overrides.value? owner key := by
  induction settings generalizing overrides with
  | nil => rfl
  | cons setting rest ih =>
    simp only [List.mem_cons, not_or] at other
    rw [List.foldl_cons, ih fun value => (other value).2, value?_add_of_ne]
    rintro value rfl
    exact (other value).1 rfl

/-- The overrides of an emitter have no key twice. -/
theorem nodup_foldl (settings : List Setting) (owner : String) :
    ((settings.foldl add {}).emitters.getD owner {}).keys.Nodup := by
  have kept (overrides : Overrides)
      (distinct : ∀ owner, (overrides.emitters.getD owner {}).keys.Nodup) :
      ((settings.foldl add overrides).emitters.getD owner {}).keys.Nodup := by
    induction settings generalizing overrides with
    | nil => exact distinct owner
    | cons setting rest ih =>
      refine ih _ fun owner => ?_
      cases setting with
      | misc name given => exact distinct owner
      | emitter first name given =>
        simp only [add, Dictionary.getD, Dictionary.get?_insert]
        split
        · exact Dictionary.nodup_insert (distinct first) name given
        · exact distinct owner
  exact kept {} fun _ => List.nodup_nil

/-- Of the texts for an option the last one counts. -/
theorem value?_of_last (fine : ∀ setting ∈ settings, setting.WellFormed)
    (split : settings.map Setting.text = before ++ (Setting.emitter owner key value).text :: after)
    (last : ∀ later, (Setting.emitter owner key later).text ∉ after) :
    (settings.foldl add overrides).value? owner key = some value := by
  obtain ⟨first, rest, rfl, _, further⟩ := List.map_eq_append_iff.mp split
  obtain ⟨setting, others, rfl, same, rfl⟩ := List.map_eq_cons_iff.mp further
  cases Setting.eq_of_text_eq (fine setting (by simp)) same
  rw [List.foldl_append, List.foldl_cons, value?_foldl_of_not_mem, value?_add_self]
  intro later member
  exact last later (List.mem_map_of_mem member)

/-- The emitters that run are those asked for, each with its overrides over what is configured. -/
theorem get?_emittersToRun (distinct : (overrides.emitters.getD owner {}).keys.Nodup)
    (configured : EmitterBags) (selected : Option (List String)) :
    ((overrides.emittersToRun configured selected).get? owner ≠ none ↔
      owner ∈ selected.getD configured.keys) ∧
    ∀ bag, (overrides.emittersToRun configured selected).get? owner = some bag → ∀ key,
      bag.get? key = (overrides.value? owner key).or ((configured.getD owner {}).get? key) := by
  have made {bag : OptionBag}
      (found : (overrides.emittersToRun configured selected).get? owner = some bag) :=
    List.mem_map.mp (Dictionary.mem_of_get?_ofList found)
  refine ⟨⟨fun found => ?_, fun listed => ?_⟩, fun bag found key => ?_⟩
  · obtain ⟨bag, found⟩ := Option.ne_none_iff_exists'.mp found
    obtain ⟨name, listed, same⟩ := made found
    cases same
    exact listed
  · exact Dictionary.get?_ofList_ne_none (by simpa using listed)
  · obtain ⟨name, listed, same⟩ := made found
    cases same
    exact Dictionary.get?_layer distinct ..

/-- Texts are read exactly if all of them are written for settings, and otherwise the first one
that is not is reported. The emitters that are asked for run, and an option of one of them is what
the last text for it says, or else what is configured. -/
theorem read_then_layered (texts : List String) :
    ((∃ overrides, read texts = .ok overrides) ↔ ∀ text ∈ texts, Setting.Written text) ∧
    (∀ error, read texts = .error error → ∃ before text after, texts = before ++ text :: after ∧
      (∀ one ∈ before, Setting.Written one) ∧ ¬ Setting.Written text ∧
      (Setting.HasEmptyPart text ∧ error = .emptyKey text ∨
        ¬ Setting.HasEmptyPart text ∧ error = .malformed text)) ∧
    ∀ overrides, read texts = .ok overrides → ∀ (configured : EmitterBags) selected,
      (overrides.emittersToRun configured selected).keys.Nodup ∧
      ∀ owner, ((overrides.emittersToRun configured selected).get? owner ≠ none ↔
          owner ∈ selected.getD configured.keys) ∧
        ∀ bag, (overrides.emittersToRun configured selected).get? owner = some bag → ∀ key,
          (∀ before value after, texts = before ++ (Setting.emitter owner key value).text :: after →
            (∀ later, (Setting.emitter owner key later).text ∉ after) → bag.get? key = some value) ∧
          ((∀ value, (Setting.emitter owner key value).text ∉ texts) →
            bag.get? key = (configured.getD owner {}).get? key) := by
  rcases mapM_read_cases texts with ⟨settings, fine, rfl, ran⟩ |
    ⟨before, text, after, error, rfl, fine, refused, ran⟩
  · have ran : read (settings.map Setting.text) = .ok (settings.foldl add {}) := by
      rw [read, ran]
      rfl
    rw [ran]
    refine ⟨⟨fun _ => ?_, fun _ => ⟨_, rfl⟩⟩, by simp, ?_⟩
    · rintro text member
      obtain ⟨setting, listed, rfl⟩ := List.mem_map.mp member
      exact ⟨setting, fine setting listed, rfl⟩
    · rintro _ ⟨⟩ configured selected
      refine ⟨Dictionary.nodup_ofList _, fun owner => ?_⟩
      obtain ⟨listed, layered⟩ :=
        get?_emittersToRun (nodup_foldl settings owner) configured selected
      refine ⟨listed, fun bag found key =>
        ⟨fun before value after split last => ?_, fun none => ?_⟩⟩
      · rw [layered bag found, value?_of_last fine split last]
        rfl
      · rw [layered bag found, value?_foldl_of_not_mem]
        · rfl
        · exact fun value member => none value (List.mem_map_of_mem member)
  · have unwritten : ¬ Setting.Written text := by
      rintro ⟨setting, written⟩
      cases refused.symm.trans (Setting.read_eq_ok_iff.mpr written)
    have ran : read (before ++ text :: after) = .error error := by
      rw [read, ran]
      rfl
    rw [ran]
    refine ⟨⟨by simp, fun all => absurd (all text (by simp)) unwritten⟩, ?_, by simp⟩
    rintro _ ⟨⟩
    exact ⟨before, text, after, rfl, fine, unwritten, Setting.read_eq_error refused⟩

/-- An option is set twice, and a free option of the same name stands between. -/
theorem read_then_layered_repeated : ∃ overrides bag,
    read ["e.k=1", "k=2", "e.k=3"] = .ok overrides ∧
      (overrides.emittersToRun {} (some ["e"])).get? "e" = some bag ∧ bag.get? "k" = some "3" := by
  obtain ⟨_, _, layered⟩ := read_then_layered ["e.k=1", "k=2", "e.k=3"]
  have ran : ∃ overrides, read ["e.k=1", "k=2", "e.k=3"] = .ok overrides := ⟨_, rfl⟩
  obtain ⟨overrides, ran⟩ := ran
  obtain ⟨listed, values⟩ := (layered overrides ran {} (some ["e"])).2 "e"
  obtain ⟨bag, found⟩ := Option.ne_none_iff_exists'.mp (listed.mpr (by simp))
  exact ⟨overrides, bag, ran, found,
    (values bag found "k").1 ["e.k=1", "k=2"] "3" [] (by decide) (by simp)⟩

end Overrides

end Idl
