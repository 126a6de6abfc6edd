import Idl.Proofs.WholeRuns

/-! How long a cycle counts that was found at a key. The key is marked as an error
while its own frame is still under work, and from then on every demand for it gives
the error type. What can undo the mark is that the frame is given up after all: the
key is then put off like any other, and done again as if no cycle had been found. -/
namespace Idl

/-- A cycle was found at a key, and the work on the key has not begun to be given up since. -/
def Condemned (key : ResolutionKey) : List Event → Prop
  | [] => False
  | .changed other .errored :: earlier => other = key ∨ Condemned key earlier
  | .abandoned keys :: earlier => key ∉ keys ∧ Condemned key earlier
  | _ :: earlier => Condemned key earlier

/-- Work on a key began to be given up, and the key has not been put off since. -/
def GivenUp (key : ResolutionKey) : List Event → Prop
  | [] => False
  | .abandoned keys :: earlier => key ∈ keys ∨ GivenUp key earlier
  | .changed other (.deferred _) :: earlier => other ≠ key ∧ GivenUp key earlier
  | _ :: earlier => GivenUp key earlier

/-- A key is left in its state, and an answer for it is an error. -/
def Event.LeavesErrored (key : ResolutionKey) : Event → Prop
  | .changed other _ => other ≠ key
  | .answered other _ id => other = key → id = TypeStore.error
  | _ => True

/-- Each event leaves alone the keys at which a cycle had been found. -/
def Sticking : List Event → Prop
  | [] => True
  | event :: earlier => (∀ key, Condemned key earlier → event.LeavesErrored key) ∧ Sticking earlier

/-- An event that is no change of a key, no answer, and does not give up work. -/
def Event.Calm : Event → Prop
  | .changed .. | .answered .. | .abandoned _ => False
  | _ => True

/-- The frame of a key is one of those that are being given up. -/
def Checker.Unwinds (c : Checker) (key : ResolutionKey) : Prop :=
  ∃ below, c.abandoning = some below ∧
    ∃ frame ∈ c.stack.take (c.stack.length - below), frame.key = key

/-- The keys at which a cycle was found are errors, but for those that are being given up. -/
structure Checker.KeepsErrors (c : Checker) : Prop where
  sticking : Sticking c.history
  errored : ∀ key, Condemned key c.history → c.resolutions.get? key = some .errored
  lifted : ∀ key, c.Unwinds key → ¬ Condemned key c.history
  unwound : ∀ key, GivenUp key c.history → c.Unwinds key

/-- A calm event changes nothing for a key. -/
theorem Event.Calm.neutral (calm : event.Calm) (earlier : List Event) : event.LeavesErrored key ∧
    (Condemned key (event :: earlier) ↔ Condemned key earlier) ∧
    (GivenUp key (event :: earlier) ↔ GivenUp key earlier) := by
  cases event <;> first | exact ⟨trivial, .rfl, .rfl⟩ | cases calm

theorem condemned_changed (unlike : state ≠ .errored) :
    Condemned key (.changed other state :: earlier) ↔ Condemned key earlier := by
  cases state <;> first | exact Iff.rfl | exact absurd rfl unlike

theorem Checker.Notes.calm {c : Checker} (notes : c.Notes env event) : event.Calm := by
  cases notes <;> trivial

namespace Checker.KeepsErrors
variable {c after : Checker}

/-- Something is written down. -/
theorem note (keeps : c.KeepsErrors) (calm : event.Calm)
    (history : after.history = event :: c.history) (resolutions : after.resolutions = c.resolutions)
    (unwinds : ∀ key, after.Unwinds key ↔ c.Unwinds key) : after.KeepsErrors := by
  constructor
  · rw [history]
    exact ⟨fun key _ => (calm.neutral []).1, keeps.sticking⟩
  · intro key condemned
    rw [history, (calm.neutral _).2.1] at condemned
    rw [resolutions]
    exact keeps.errored key condemned
  · intro key unwinding
    rw [history, (calm.neutral _).2.1]
    exact keeps.lifted key ((unwinds key).mp unwinding)
  · intro key given
    rw [history, (calm.neutral _).2.2] at given
    exact (unwinds key).mpr (keeps.unwound key given)

/-- A key at which no cycle counts comes into another state. -/
theorem change (keeps : c.KeepsErrors) (unlike : state ≠ .errored)
    (safe : ¬ Condemned key c.history) (history : after.history = .changed key state :: c.history)
    (resolutions : after.resolutions = c.resolutions.insert key state)
    (lifted : ∀ other, after.Unwinds other → c.Unwinds other)
    (unwound : ∀ other, c.Unwinds other →
      after.Unwinds other ∨ other = key ∧ ∃ id, state = .deferred id) : after.KeepsErrors := by
  constructor
  · rw [history]
    refine ⟨fun other condemned => ?_, keeps.sticking⟩
    rintro rfl
    exact safe condemned
  · intro other condemned
    rw [history, condemned_changed unlike] at condemned
    have different : key ≠ other := by
      rintro rfl
      exact safe condemned
    rw [resolutions, Dictionary.get?_insert_of_ne _ different]
    exact keeps.errored other condemned
  · intro other unwinding
    rw [history, condemned_changed unlike]
    exact keeps.lifted other (lifted other unwinding)
  · intro other given
    rw [history] at given
    have before : GivenUp other c.history := by
      cases state <;> first | exact given | exact given.2
    rcases unwound other (keeps.unwound other before) with still | ⟨rfl, id, rfl⟩
    · exact still
    · exact absurd rfl given.1

/-- Where no frame is given up, no key is. -/
theorem not_unwinds (idle : c.abandoning = none) : ¬ c.Unwinds key := by
  rintro ⟨below, given, _⟩
  cases idle.symm.trans given

theorem not_condemned (keeps : c.KeepsErrors) (other : c.resolutions.get? key ≠ some .errored) :
    ¬ Condemned key c.history :=
  fun condemned => other (keeps.errored key condemned)

/-- The same while no frame is given up. -/
theorem change_idle (keeps : c.KeepsErrors) (unlike : state ≠ .errored)
    (other : c.resolutions.get? key ≠ some .errored) (idle : c.abandoning = none)
    (calm : after.abandoning = none) (history : after.history = .changed key state :: c.history)
    (resolutions : after.resolutions = c.resolutions.insert key state) : after.KeepsErrors :=
  keeps.change unlike (keeps.not_condemned other) history resolutions
    (fun _ unwinding => absurd unwinding (not_unwinds calm))
    fun _ unwinding => absurd unwinding (not_unwinds idle)

/-- The frames of an abandonment are those it names. -/
theorem unwinds_iff (stacked : c.stack = above ++ frame :: rest)
    (given : c.abandoning = some rest.length) :
    c.Unwinds key ↔ key ∈ (above ++ [frame]).map Frame.key := by
  have top : c.stack.take (c.stack.length - rest.length) = above ++ [frame] := by
    have height : (above ++ frame :: rest).length - rest.length = (above ++ [frame]).length := by
      simp only [List.length_append, List.length_cons, List.length_nil]
      omega
    rw [stacked, height, show above ++ frame :: rest = (above ++ [frame]) ++ rest by simp,
      List.take_left]
  unfold Checker.Unwinds
  simp only [given, Option.some.injEq, exists_eq_left', top, List.mem_map]

theorem abandon (keeps : c.KeepsErrors) (idle : c.abandoning = none)
    (stacked : c.stack = above ++ frame :: rest) :
    Checker.KeepsErrors { c with
      abandoning := some rest.length
      history := .abandoned ((above ++ [frame]).map Frame.key) :: c.history } := by
  constructor
  · exact ⟨fun _ _ => trivial, keeps.sticking⟩
  · exact fun key condemned => keeps.errored key condemned.2
  · rintro key unwinding ⟨outside, _⟩
    exact outside ((unwinds_iff (c := { c with abandoning := some rest.length }) stacked rfl).mp
      unwinding)
  · rintro key (inside | given)
    · exact (unwinds_iff (c := { c with abandoning := some rest.length }) stacked rfl).mpr inside
    · exact absurd (keeps.unwound key given) (not_unwinds idle)

theorem condemn (keeps : c.KeepsErrors) {id : TypeId} (idle : c.abandoning = none)
    (resolving : c.resolutions.get? key = some (.resolving id)) :
    (c.setState key .errored).KeepsErrors := by
  have safe : ¬ Condemned key c.history := keeps.not_condemned (by simp [resolving])
  constructor
  · refine ⟨fun other condemned => ?_, keeps.sticking⟩
    rintro rfl
    exact safe condemned
  · intro other condemned
    simp only [Checker.setState, Checker.log, Dictionary.get?_insert]
    split
    · rfl
    · rename_i different
      exact keeps.errored other (condemned.resolve_left different)
  · exact fun other unwinding => absurd unwinding (not_unwinds idle)
  · exact fun other given => absurd (keeps.unwound other given) (not_unwinds idle)

/-- A frame that is given up ends. -/
theorem giveUp (keeps : c.KeepsErrors) (unwinding : c.abandoning = some below)
    (stacked : c.stack = frame :: rest) (inside : below ≤ rest.length) :
    ({ c with
      stack := rest
      abandoning := if c.abandoning = some rest.length then none else c.abandoning }.defer
      frame.key frame.id).KeepsErrors := by
  have top : c.stack.take (c.stack.length - below) = frame :: rest.take (rest.length - below) := by
    rw [stacked, List.length_cons, Nat.succ_sub inside, List.take_succ_cons]
  have own : c.Unwinds frame.key := ⟨below, unwinding, frame, by simp [top], rfl⟩
  have unlike : ResolutionState.deferred frame.id ≠ .errored := by simp
  refine keeps.change unlike (keeps.lifted _ own) rfl rfl ?_ ?_
  · rintro other ⟨height, given, found, mem, named⟩
    simp only [Checker.defer, Checker.setState, Checker.log] at given mem
    split at given
    · cases given
    · cases unwinding.symm.trans given
      exact ⟨below, unwinding, found, by simp [top, mem], named⟩
  · rintro other ⟨height, given, found, mem, named⟩
    cases unwinding.symm.trans given
    rw [top] at mem
    rcases List.mem_cons.mp mem with rfl | mem
    · exact .inr ⟨named.symm, _, rfl⟩
    · left
      have higher : below ≠ rest.length := by
        rintro rfl
        simp at mem
      refine ⟨below, ?_, found, mem, named⟩
      simp [Checker.defer, Checker.setState, Checker.log, unwinding, higher]

end Checker.KeepsErrors

private theorem step_keepsErrors (step : Step env c after) (keeps : c.KeepsErrors) :
    after.KeepsErrors := by
  cases step with
  | note notes => exact keeps.note notes.calm rfl rfl fun _ => Iff.rfl
  | alloc | placeParam | fillParam | fill | settle | need =>
    refine keeps.note ?_ rfl rfl fun _ => Iff.rfl
    trivial
  | answer demand right errored =>
    refine ⟨⟨fun key condemned => ?_, keeps.sticking⟩, keeps.errored, keeps.lifted, keeps.unwound⟩
    rintro rfl
    exact errored (keeps.errored _ condemned)
  | @begin key demand idle unfilled new =>
    have calm : (Event.placed key (c.place env.symbols key).1).Calm := trivial
    have placed : (c.place env.symbols key).2.KeepsErrors :=
      keeps.note calm rfl rfl fun _ => Iff.rfl
    exact placed.change_idle (by simp) (show c.resolutions.get? key ≠ _ by simp [new]) idle idle
      rfl rfl
  | @postpone key unwinding new =>
    have calm : (Event.placed key (c.place env.symbols key).1).Calm := trivial
    have placed : (c.place env.symbols key).2.KeepsErrors :=
      keeps.note calm rfl rfl fun _ => Iff.rfl
    exact placed.change (by simp)
      (placed.not_condemned (show c.resolutions.get? key ≠ _ by simp [new])) rfl rfl
      (fun _ held => held) fun _ held => .inl held
  | again demand idle unfilled waiting | resume idle settled queued waiting =>
    exact keeps.change_idle (by simp) (by simp [waiting]) idle idle rfl rfl
  | postponeAgain unwinding waiting =>
    exact keeps.change (by simp) (keeps.not_condemned (by simp [waiting])) rfl rfl
      (fun _ held => held) fun _ held => .inl held
  | abandon idle stacked => exact keeps.abandon idle stacked
  | condemn idle _ _ _ _ _ resolving => exact keeps.condemn idle resolving
  | giveUp unwinding stacked inside => exact keeps.giveUp unwinding stacked inside
  | complete idle stacked resolving =>
    exact keeps.change_idle (by simp) (by simp [resolving]) idle idle rfl rfl
  | completeErrored idle =>
    exact ⟨keeps.sticking, keeps.errored,
      fun _ unwinding => absurd unwinding (Checker.KeepsErrors.not_unwinds idle),
      fun _ given => absurd (keeps.unwound _ given) (Checker.KeepsErrors.not_unwinds idle)⟩
  | _ => exact ⟨keeps.sticking, keeps.errored, keeps.lifted, keeps.unwound⟩

theorem Ended.keepsErrors (ended : Ended env c) : c.KeepsErrors :=
  (consistent_start env).preserves Checker.KeepsErrors
    ⟨trivial, by simp [Condemned], by simp [Checker.Unwinds], by simp [GivenUp]⟩
    (fun _ _ _ => step_keepsErrors) ended.steps

/-! Histories in which a cycle was found. -/

/-- A cycle counts until the work on the key is given up. -/
theorem condemned_append (kept : ∀ keys, .abandoned keys ∈ later → key ∉ keys) :
    Condemned key (later ++ .changed key .errored :: earlier) := by
  induction later with
  | nil => exact .inl rfl
  | cons event later ih =>
    have before := ih fun keys mem => kept keys (List.mem_cons_of_mem _ mem)
    cases event with
    | abandoned keys => exact ⟨kept keys (List.mem_cons_self ..), before⟩
    | changed other state =>
      cases state with
      | errored => exact .inr before
      | _ => exact before
    | _ => exact before

/-- All that long nothing happens to the key. -/
theorem Sticking.leavesErrored (sticking : Sticking (later ++ .changed key .errored :: earlier))
    (kept : ∀ keys, .abandoned keys ∈ later → key ∉ keys) :
    ∀ event ∈ later, event.LeavesErrored key := by
  induction later with
  | nil => simp
  | cons event later ih =>
    have before : ∀ keys, .abandoned keys ∈ later → key ∉ keys :=
      fun keys mem => kept keys (List.mem_cons_of_mem _ mem)
    exact List.forall_mem_cons.mpr ⟨sticking.1 key (condemned_append before), ih sticking.2 before⟩

/-- Work that began to be given up has led to the key being put off, or is still being given up. -/
theorem givenUp_append (given : .abandoned keys ∈ later) (inside : key ∈ keys)
    (kept : ∀ id, .changed key (.deferred id) ∉ later) : GivenUp key (later ++ earlier) := by
  induction later with
  | nil => cases given
  | cons event later ih =>
    have others : ∀ id, .changed key (.deferred id) ∉ later :=
      fun id mem => kept id (List.mem_cons_of_mem _ mem)
    rcases List.mem_cons.mp given with rfl | mem
    · exact .inl inside
    · have before := ih mem others
      cases event with
      | abandoned keys => exact .inr before
      | changed other state =>
        cases state with
        | deferred id =>
          refine ⟨?_, before⟩
          rintro rfl
          exact kept id (List.mem_cons_self ..)
        | _ => exact before
      | _ => exact before

/-- A key is an error for good: since then its state has not changed, and each answer for it was the
error type. -/
structure Checker.Sticks (c : Checker) (key : ResolutionKey) (later : List Event) : Prop where
  state : c.resolutions.get? key = some .errored
  unchanged : ∀ state, .changed key state ∉ later
  answers : ∀ demand id, .answered key demand id ∈ later → id = TypeStore.error

/-- A key at which a cycle was found is an error for good, exactly if its frame is not among those
that are given up after that. -/
theorem check_errors_stick_iff (library : Library) (options : Options) (scripts : List Script)
    (rounds : Nat) (final : Checker)
    (checked : check (Environment.ofScripts library options scripts) rounds = some final)
    (key : ResolutionKey) (later earlier : List Event)
    (found : final.history = later ++ .changed key .errored :: earlier) :
    final.Sticks key later ↔ ∀ keys, .abandoned keys ∈ later → key ∉ keys := by
  have ended := check_ended (Environment.ofScripts_bound library options scripts) checked
  have keeps := ended.keepsErrors
  constructor
  · intro sticks keys given inside
    have owed : GivenUp key final.history := by
      rw [found]
      exact givenUp_append given inside fun id => sticks.unchanged (.deferred id)
    exact Checker.KeepsErrors.not_unwinds ended.idle (keeps.unwound key owed)
  · intro kept
    have leaves : ∀ event ∈ later, event.LeavesErrored key :=
      (found ▸ keeps.sticking : Sticking (later ++ _)).leavesErrored kept
    constructor
    · apply keeps.errored
      rw [found]
      exact condemned_append kept
    · exact fun state mem => leaves _ mem rfl
    · exact fun demand id mem => leaves _ mem rfl

/-- Two models that spread each other, and one that refers to the first. -/
private def lastingText : String :=
  "model A \x7b ...B \x7d model B \x7b ...A \x7d model C \x7b a: A \x7d"

private def Event.finds (key : ResolutionKey) : Event → Bool
  | .changed other .errored => other = key
  | _ => false

private def Event.abandons : Event → Bool
  | .abandoned _ => true
  | _ => false

private theorem Event.finds_iff {event : Event} :
    event.finds key = true ↔ event = .changed key .errored := by
  cases event with
  | changed other state => cases state <;> simp [finds]
  | _ => simp [finds]

theorem check_errors_stick_lasting :
    ∃ final later earlier, check (Environment.ofText lastingText) 8 = some final ∧
      final.history = later ++ .changed ⟨⟨1⟩, []⟩ .errored :: earlier ∧
      final.Sticks ⟨⟨1⟩, []⟩ later := by
  have returns : (check (Environment.ofText lastingText) 8).any (fun final =>
      final.history.any (·.finds ⟨⟨1⟩, []⟩) && !final.history.any (·.abandons)) = true := by
    decide +kernel
  obtain ⟨final, checked, holds⟩ := (Option.any_eq_true _ _).mp returns
  simp only [Bool.and_eq_true, List.any_eq_true, Bool.not_eq_true', List.any_eq_false] at holds
  obtain ⟨⟨event, mem, found⟩, calm⟩ := holds
  rw [Event.finds_iff] at found
  subst found
  obtain ⟨later, earlier, split⟩ := List.append_of_mem mem
  refine ⟨final, later, earlier, checked, split, ?_⟩
  rw [check_errors_stick_iff _ _ _ _ _ checked _ _ _ split]
  intro keys given
  exact absurd rfl (calm (.abandoned keys) (by rw [split]; exact List.mem_append_left _ given))

/-- A model that is found to be a cycle before its frame is given up. -/
private def revivedText : String :=
  "model J \x7b k: K \x7d model K \x7b ...F; ...J \x7d model F \x7b ...K \x7d " ++
    "model L \x7b ...K \x7d"

/-- The error at `K` does not last: in the end `K` has a type. -/
theorem check_errors_do_not_stick :
    ∃ final, check (Environment.ofText revivedText) 8 = some final ∧
      .changed ⟨⟨2⟩, []⟩ .errored ∈ final.history ∧
      final.resolutions.get? ⟨⟨2⟩, []⟩ = some (.resolved ⟨4⟩) := by
  have returns : (check (Environment.ofText revivedText) 8).any (fun final =>
      final.history.any (·.finds ⟨⟨2⟩, []⟩) &&
        final.resolutions.get? ⟨⟨2⟩, []⟩ = some (.resolved ⟨4⟩)) = true := by
    decide +kernel
  obtain ⟨final, checked, holds⟩ := (Option.any_eq_true _ _).mp returns
  simp only [Bool.and_eq_true, List.any_eq_true, decide_eq_true_eq] at holds
  obtain ⟨⟨event, mem, found⟩, resolved⟩ := holds
  rw [Event.finds_iff] at found
  exact ⟨final, checked, found ▸ mem, resolved⟩

end Idl
