import Idl.Watch.Driver
import Mathlib.Data.List.TakeWhile

/-! What the recompile loop makes of every history of changes and runs. A history is the
list of what the calls came to, and the runs are read off it: a run starts where a
change or an ending run says so, and ends where the next run ending is told. The state
of the loop tells of a history whether a run is going and whether something changed
since it started, and every call keeps that so. No change is lost and no result that is
out of date is handed on. Driving the loop makes such a history. -/
namespace Idl.RecompileLoop

/-! ### Histories -/

namespace Happening

/-- A run starts here. -/
def starts : Happening → Bool
  | notified starts => starts
  | completed completion => completion = .rerun
  | aborted => false

/-- A run ends here. -/
def ends : Happening → Bool
  | notified _ => false
  | completed _ | aborted => true

/-- Something changed. -/
def notifies : Happening → Bool
  | notified _ => true
  | completed _ | aborted => false

end Happening

/-- The number of runs that were started. -/
def started (past : List Happening) : Nat := past.countP Happening.starts

def ended (past : List Happening) : Nat := past.countP Happening.ends

/-- A run was started that has not ended. -/
def InFlight (past : List Happening) : Prop := ended past < started past

instance (past : List Happening) : Decidable (InFlight past) :=
  inferInstanceAs (Decidable (_ < _))

/-- What happened since the latest start of a run, the latest first. -/
def sinceStart (past : List Happening) : List Happening := past.takeWhile fun h => !h.starts

/-- The loop after a history, the latest first, in which runs end only while one is going. -/
inductive Reached : List Happening → RecompileLoop → Prop where
  | fresh : Reached [] {}
  | notify {past : List Happening} {loop : RecompileLoop} (earlier : Reached past loop) :
      Reached (.notified loop.notify.1 :: past) loop.notify.2
  | complete {past : List Happening} {loop : RecompileLoop} (earlier : Reached past loop)
      (going : InFlight past) : Reached (.completed loop.complete.1 :: past) loop.complete.2
  | abort {past : List Happening} {loop : RecompileLoop} (earlier : Reached past loop)
      (going : InFlight past) : Reached (.aborted :: past) loop.abort

variable {loop : RecompileLoop}

@[simp] theorem started_cons (h : Happening) (past : List Happening) :
    started (h :: past) = started past + if h.starts then 1 else 0 := List.countP_cons

@[simp] theorem ended_cons (h : Happening) (past : List Happening) :
    ended (h :: past) = ended past + if h.ends then 1 else 0 := List.countP_cons

theorem sinceStart_cons (h : Happening) (past : List Happening) :
    sinceStart (h :: past) = if h.starts then [] else h :: sinceStart past := by
  cases starts : h.starts <;> simp [sinceStart, starts]

/-! ### What the state tells -/

/-- The loop agrees with its history. -/
structure Tells (past : List Happening) (loop : RecompileLoop) : Prop where
  runs : started past = ended past + if loop.state = .idle then 0 else 1
  changed : loop.state ≠ .idle →
    (loop.state = .pendingRerun ↔ ∃ h ∈ sinceStart past, h.notifies)
  started : loop.runsStarted = started past
  discarded : loop.resultsDiscarded = past.count (.completed .rerun)

theorem Tells.going (tells : Tells past loop) : InFlight past ↔ loop.state ≠ .idle := by
  have runs := tells.runs
  unfold InFlight
  split at runs <;> simp_all

theorem Tells.notify (tells : Tells past loop) :
    Tells (.notified loop.notify.1 :: past) loop.notify.2 := by
  obtain ⟨state, runs, discarded⟩ := loop
  have count := tells.runs
  cases state with
  | idle =>
    refine ⟨?_, fun _ => ?_, ?_, ?_⟩
    · simpa [RecompileLoop.notify, Happening.starts, Happening.ends] using count
    · simp [RecompileLoop.notify, sinceStart_cons, Happening.starts]
    · simpa [RecompileLoop.notify, Happening.starts] using tells.started
    · simpa [RecompileLoop.notify] using tells.discarded
  | compiling | pendingRerun =>
    refine ⟨?_, fun _ => ?_, ?_, ?_⟩
    · simpa [RecompileLoop.notify, Happening.starts, Happening.ends] using count
    · simp [RecompileLoop.notify, sinceStart_cons, Happening.starts, Happening.notifies]
    · simpa [RecompileLoop.notify, Happening.starts] using tells.started
    · simpa [RecompileLoop.notify] using tells.discarded

theorem Tells.complete (tells : Tells past loop) (going : InFlight past) :
    Tells (.completed loop.complete.1 :: past) loop.complete.2 := by
  have busy := tells.going.mp going
  obtain ⟨state, runs, discarded⟩ := loop
  have count := tells.runs
  cases state with
  | idle => exact absurd rfl busy
  | compiling =>
    refine ⟨?_, fun other => absurd rfl other, ?_, ?_⟩
    · simpa [RecompileLoop.complete, Happening.starts, Happening.ends] using count
    · simpa [RecompileLoop.complete, Happening.starts] using tells.started
    · simpa [RecompileLoop.complete] using tells.discarded
  | pendingRerun =>
    refine ⟨?_, fun _ => ?_, ?_, ?_⟩
    · simpa [RecompileLoop.complete, Happening.starts, Happening.ends] using count
    · simp [RecompileLoop.complete, sinceStart_cons, Happening.starts]
    · simpa [RecompileLoop.complete, Happening.starts] using tells.started
    · simpa [RecompileLoop.complete] using tells.discarded

theorem Tells.abort (tells : Tells past loop) (going : InFlight past) :
    Tells (.aborted :: past) loop.abort := by
  have count := tells.runs
  rw [if_neg (tells.going.mp going)] at count
  refine ⟨?_, fun other => absurd rfl other, ?_, ?_⟩
  · simpa [RecompileLoop.abort, Happening.starts, Happening.ends] using count
  · simpa [RecompileLoop.abort, Happening.starts] using tells.started
  · simpa [RecompileLoop.abort] using tells.discarded

theorem Reached.tells (reached : Reached past loop) : Tells past loop := by
  induction reached with
  | fresh => exact ⟨rfl, fun other => absurd rfl other, rfl, rfl⟩
  | notify _ ih => exact ih.notify
  | complete _ going ih => exact ih.complete going
  | abort _ going ih => exact ih.abort going

/-! ### Results that stand -/

theorem complete_deliver_iff (loop : RecompileLoop) :
    loop.complete.1 = .deliver ↔ loop.state ≠ .pendingRerun := by
  obtain ⟨state, runs, discarded⟩ := loop
  cases state <;> simp [RecompileLoop.complete]

/-- A result stands if nothing changed since its run started, and only then. -/
theorem Tells.delivers (tells : Tells past loop) (going : InFlight past) :
    loop.complete.1 = .deliver ↔ ∀ h ∈ sinceStart past, h.notifies = false := by
  rw [complete_deliver_iff, Ne, tells.changed (tells.going.mp going)]
  simp

/-- A history in which a run was started has a latest start. -/
theorem exists_latest_start (some : started past ≠ 0) :
    ∃ first before, past = sinceStart past ++ first :: before ∧ first.starts := by
  induction past with
  | nil => exact absurd rfl some
  | cons h past ih =>
    rw [sinceStart_cons]
    split
    · exact ⟨h, past, rfl, ‹_›⟩
    · obtain ⟨first, before, split, starts⟩ := ih (by simp_all)
      exact ⟨first, before, congrArg (h :: ·) split, starts⟩

/-- The run whose result stands started at the latest change or after it. -/
theorem Tells.fresh (tells : Tells past loop) (going : InFlight past)
    (stands : loop.complete.1 = .deliver) :
    ∃ recent first before, past = recent ++ first :: before ∧ first.starts ∧
      ∀ h ∈ recent, h.starts = false ∧ h.notifies = false := by
  obtain ⟨first, before, split, starts⟩ := exists_latest_start (Nat.ne_zero_of_lt going)
  refine ⟨sinceStart past, first, before, split, starts, fun h member => ⟨?_, ?_⟩⟩
  · simpa using List.mem_takeWhile_imp member
  · exact (tells.delivers going).mp stands h member

/-! ### Changes -/

/-- A change is served by a run that started with it or later, or waits for the end of a run, or was
dropped with a run that broke off. -/
def Minded (later : List Happening) (change : Happening) (loop : RecompileLoop) : Prop :=
  (∃ h ∈ change :: later, h.starts) ∨ loop.state = .pendingRerun ∨ .aborted ∈ later

theorem Minded.onward (minded : Minded later change loop)
    (waiting : loop.state = .pendingRerun → Minded (latest :: later) change next) :
    Minded (latest :: later) change next := by
  rcases minded with ⟨h, member, starts⟩ | state | dropped
  · refine .inl ⟨h, ?_, starts⟩
    rcases List.mem_cons.mp member with rfl | member
    · exact List.mem_cons_self ..
    · exact List.mem_cons_of_mem _ (List.mem_cons_of_mem _ member)
  · exact waiting state
  · exact .inr (.inr (List.mem_cons_of_mem _ dropped))

theorem Reached.minded (reached : Reached past loop) (split : past = later ++ change :: earlier)
    (notifies : change.notifies) : Minded later change loop := by
  induction reached generalizing later with
  | fresh => simp at split
  | @notify past loop _ ih =>
    rcases later with _ | ⟨latest, later⟩
    · -- The change is the one that was just made.
      obtain ⟨rfl, rfl⟩ := List.cons.inj split
      obtain ⟨state, runs, discarded⟩ := loop
      cases state <;> simp [Minded, RecompileLoop.notify, Happening.starts]
    · obtain ⟨rfl, rest⟩ := List.cons.inj split
      refine (ih rest).onward fun waiting => .inr (.inl ?_)
      simp [RecompileLoop.notify, waiting]
  | @complete past loop _ going ih =>
    rcases later with _ | ⟨latest, later⟩
    · obtain ⟨rfl, rfl⟩ := List.cons.inj split
      cases notifies
    · obtain ⟨rfl, rest⟩ := List.cons.inj split
      refine (ih rest).onward fun waiting => .inl ⟨.completed loop.complete.1, by simp, ?_⟩
      simp [RecompileLoop.complete, waiting, Happening.starts]
  | @abort past loop _ going ih =>
    rcases later with _ | ⟨latest, later⟩
    · obtain ⟨rfl, rfl⟩ := List.cons.inj split
      cases notifies
    · obtain ⟨rfl, rest⟩ := List.cons.inj split
      exact .inr (.inr (List.mem_cons_self ..))

/-- The loop after a number of changes. -/
def noted : Nat → RecompileLoop → RecompileLoop
  | 0, loop => loop
  | count + 1, loop => noted count loop.notify.2

section
variable (busy : loop.state ≠ .idle)
include busy

theorem noted_succ (count : Nat) :
    noted (count + 1) loop = ⟨.pendingRerun, loop.runsStarted, loop.resultsDiscarded⟩ := by
  have step : loop.notify.2 = ⟨.pendingRerun, loop.runsStarted, loop.resultsDiscarded⟩ := by
    obtain ⟨state, runs, discarded⟩ := loop
    cases state with
    | idle => exact absurd rfl busy
    | compiling | pendingRerun => rfl
  rw [noted, step]
  induction count with
  | zero => rfl
  | succ count ih => exact ih

theorem notify_busy : loop.notify.1 = false := by
  obtain ⟨state, runs, discarded⟩ := loop
  cases state with
  | idle => exact absurd rfl busy
  | compiling | pendingRerun => rfl

/-- However many changes come in during a run, they start no run before it ends, and one after. -/
theorem complete_noted (count : Nat) : (noted count loop).notify.1 = false ∧
    (noted (count + 1) loop).complete =
      (.rerun, ⟨.compiling, loop.runsStarted + 1, loop.resultsDiscarded + 1⟩) ∧
    (noted (count + 1) loop).complete.2.complete.1 = .deliver := by
  refine ⟨notify_busy ?_, ?_, ?_⟩
  · cases count with
    | zero => exact busy
    | succ count => simp [noted_succ busy]
  · rw [noted_succ busy]
    rfl
  · rw [noted_succ busy]
    rfl

end

/-! ### Counting -/

/-- A run that has ended was delivered, dropped for a rerun, or broke off. -/
theorem ended_eq (past : List Happening) :
    ended past = past.count (.completed .deliver) + past.count (.completed .rerun) +
      past.count .aborted := by
  induction past with
  | nil => rfl
  | cons h past ih =>
    simp only [ended_cons, List.count_cons, ih]
    rcases h with starts | (_ | _) | _ <;> simp [Happening.ends] <;> omega

/-- What a history of the loop guarantees at every moment. -/
structure Sound (past : List Happening) (loop : RecompileLoop) : Prop where
  /-- One run is going or none. -/
  single : started past = ended past ∨ started past = ended past + 1
  idle : loop.state = .idle ↔ ¬ InFlight past
  delivers : InFlight past →
    (loop.complete.1 = .deliver ↔ ∀ h ∈ sinceStart past, h.notifies = false)
  fresh : InFlight past → loop.complete.1 = .deliver →
    ∃ recent first before, past = recent ++ first :: before ∧ first.starts ∧
      ∀ h ∈ recent, h.starts = false ∧ h.notifies = false
  minded : ∀ later change earlier, past = later ++ change :: earlier → change.notifies →
    Minded later change loop
  /-- However many changes come in during a run, they cause one rerun. -/
  coalesces : InFlight past → ∀ count,
    (noted count loop).notify.1 = false ∧
    (noted (count + 1) loop).complete =
      (.rerun, ⟨.compiling, loop.runsStarted + 1, loop.resultsDiscarded + 1⟩) ∧
    (noted (count + 1) loop).complete.2.complete.1 = .deliver
  runs : loop.runsStarted = started past
  discarded : loop.resultsDiscarded = past.count (.completed .rerun)
  counts : loop.runsStarted = past.count (.completed .deliver) + loop.resultsDiscarded +
    past.count .aborted + if InFlight past then 1 else 0

theorem Reached.sound (reached : Reached past loop) : Sound past loop := by
  have tells := reached.tells
  have going := tells.going
  have runs := tells.runs
  refine ⟨?_, ?_, tells.delivers, tells.fresh, fun later change earlier split notifies =>
    reached.minded split notifies, fun flying => complete_noted (going.mp flying), tells.started,
    tells.discarded, ?_⟩
  · split at runs
    · exact .inl runs
    · exact .inr runs
  · rw [going, not_not]
  · rw [tells.started, tells.discarded, runs, ended_eq]
    by_cases idle : loop.state = .idle
    · rw [if_pos idle, if_neg (fun flying => going.mp flying idle)]
    · rw [if_neg idle, if_pos (going.mpr idle)]

end Idl.RecompileLoop

/-! ### Driving the loop -/

namespace Idl.Watch
open RecompileLoop

/-- How the last run of a change ends, and what the change led to. -/
inductive Ending (compile : Nat → α) (run : Nat) : Happening → Outcome α → Prop where
  | delivered : Ending compile run (.completed .deliver) (.delivered (compile run))
  | brokeOff : Ending compile run .aborted .brokeOff

/-- The calls that driving runs as planned makes, the latest first. Each change during a run is a
call that starts no run. A run ends once: it breaks off, or its result stands if nothing changed
during it, or else the next run starts. -/
def planned : List RunPlan → List Happening
  | [] => [.completed .deliver]
  | plan :: plans =>
    (if plan.breaksOff then [.aborted]
      else if plan.changes = 0 then [.completed .deliver]
      else planned plans ++ [.completed .rerun]) ++
    List.replicate plan.changes (.notified false)

namespace Session
variable {compile : Nat → α} {session : Session α} {plans : List RunPlan}

/-- A run is going, and the calls so far make a history of the loop. -/
structure Going (session : Session α) : Prop where
  reached : Reached session.calls session.loop
  busy : session.loop.state ≠ .idle

theorem Going.complete (going : session.Going) :
    Reached session.complete.2.calls session.complete.2.loop :=
  going.reached.complete (going.reached.tells.going.mpr going.busy)

theorem Going.abort (going : session.Going) : Reached session.abort.calls session.abort.loop :=
  going.reached.abort (going.reached.tells.going.mpr going.busy)

/-- A change during a run is a call that starts no run. -/
theorem Going.changeDuring (going : session.Going) : session.changeDuring.Going ∧
    session.changeDuring.calls = .notified false :: session.calls := by
  refine ⟨⟨going.reached.notify, ?_⟩, ?_⟩
  · show (noted 1 session.loop).state ≠ .idle
    simp [noted_succ going.busy]
  · show Happening.notified session.loop.notify.1 :: session.calls = _
    rw [notify_busy going.busy]

/-- Nothing but the changes that are planned happens during a run. -/
theorem Going.during (going : session.Going) (plan : RunPlan) : (session.during plan).Going ∧
    (session.during plan).calls =
      List.replicate plan.changes (.notified false) ++ session.calls ∧
    (session.during plan).loop = noted plan.changes session.loop := by
  have changes (count : Nat) (session : Session α) (going : session.Going) :
      let after := (List.replicate count ()).foldl (fun s _ => s.changeDuring) session
      after.Going ∧ after.calls = List.replicate count (.notified false) ++ session.calls ∧
        after.loop = noted count session.loop := by
    induction count generalizing session with
    | zero => exact ⟨going, rfl, rfl⟩
    | succ count ih =>
      obtain ⟨next, called⟩ := going.changeDuring
      obtain ⟨still, calls, loop⟩ := ih _ next
      refine ⟨still, calls.trans ?_, loop⟩
      rw [called, List.append_cons, ← List.replicate_succ']
  exact changes plan.changes _ ⟨going.reached, going.busy⟩

/-- What driving runs leads to. -/
structure Drives (compile : Nat → α) (past : List Happening) (plans : List RunPlan)
    (result : Outcome α × Session α) : Prop where
  history : Reached result.2.calls result.2.loop
  calls : result.2.calls = planned plans ++ past
  ends : ∃ ending earlier, result.2.calls = ending :: earlier ∧
    Ending compile result.2.loop.runsStarted ending result.1

/-- The run that is going is the last one. -/
theorem Going.last (going : session.Going) (plan : RunPlan) (history : Reached next.calls next.loop)
    (calls : next.calls = ending :: (session.during plan).calls)
    (only : planned plans = ending :: List.replicate plan.changes (.notified false))
    (same : next.loop.runsStarted = (session.during plan).loop.runsStarted)
    (ends : Ending compile session.loop.runsStarted ending outcome) :
    Drives compile session.calls plans (outcome, next) := by
  obtain ⟨_, during, loop⟩ := going.during plan
  refine ⟨history, ?_, ending, _, calls, ?_⟩
  · rw [calls, during, only]
    rfl
  · have count : (session.during plan).loop.runsStarted = session.loop.runsStarted := by
      rw [loop]
      cases plan.changes with
      | zero => rfl
      | succ count => rw [noted_succ going.busy]
    rw [same, count]
    exact ends

/-- The result of a run stands exactly if nothing changes during it. -/
theorem stands_iff {loop : RecompileLoop} (state : loop.state = .compiling) (count : Nat) :
    (noted count loop).complete.1 = .deliver ↔ count = 0 := by
  cases count with
  | zero => simp [noted, complete_deliver_iff, state]
  | succ count =>
    have busy : loop.state ≠ .idle := by simp [state]
    simp [(complete_noted busy count).2.1]

theorem runsStarted_complete {loop : RecompileLoop} (stands : loop.complete.1 = .deliver) :
    loop.complete.2.runsStarted = loop.runsStarted := by
  obtain ⟨state, runs, discarded⟩ := loop
  cases state with
  | idle | compiling => rfl
  | pendingRerun => cases stands

theorem state_rerun {loop : RecompileLoop} (again : loop.complete.1 = .rerun) :
    loop.complete.2.state = .compiling := by
  obtain ⟨state, runs, discarded⟩ := loop
  cases state with
  | idle | compiling => cases again
  | pendingRerun => rfl

theorem runAll_drives (plans : List RunPlan) (reached : Reached session.calls session.loop)
    (state : session.loop.state = .compiling) :
    Drives compile session.calls plans (runAll compile session plans) := by
  have going : session.Going := ⟨reached, by simp [state]⟩
  induction plans generalizing session with
  | nil =>
    obtain ⟨during, _, loop⟩ := going.during {}
    have stands : (session.during {}).loop.complete.1 = .deliver := by
      rw [loop, stands_iff state]
    unfold runAll
    refine going.last {} during.complete ?_ rfl (runsStarted_complete stands) .delivered
    show Happening.completed (session.during {}).loop.complete.1 :: _ = _
    rw [stands]
  | cons plan plans ih =>
    obtain ⟨during, called, loop⟩ := going.during plan
    have stands := stands_iff state plan.changes
    rw [← loop] at stands
    unfold runAll
    dsimp only
    split
    · rename_i broken
      exact going.last plan during.abort rfl (by simp [planned, broken]) rfl .brokeOff
    · rename_i whole
      split
      · rename_i next ran
        have given : (session.during plan).loop.complete.1 = .deliver := congrArg Prod.fst ran
        obtain rfl : (session.during plan).complete.2 = next := congrArg Prod.snd ran
        refine going.last plan during.complete ?_ (by simp [planned, whole, stands.mp given])
          (runsStarted_complete given) .delivered
        show Happening.completed (session.during plan).loop.complete.1 :: _ = _
        rw [given]
      · rename_i next ran
        have given : (session.during plan).loop.complete.1 = .rerun := congrArg Prod.fst ran
        obtain rfl : (session.during plan).complete.2 = next := congrArg Prod.snd ran
        have some : plan.changes ≠ 0 := fun none => by simp [stands.mpr none] at given
        have state : (session.during plan).complete.2.loop.state = .compiling := state_rerun given
        obtain ⟨history, calls, ends⟩ := ih during.complete state ⟨during.complete, by simp [state]⟩
        refine ⟨history, calls.trans ?_, ends⟩
        show planned plans ++ Happening.completed (session.during plan).loop.complete.1 :: _ = _
        simp [given, called, planned, whole, some]

/-- What one change from outside makes of a session, and what it leads to. -/
structure Changes (compile : Nat → α) (session : Session α) : Prop where
  history : Reached (session.change compile).2.calls (session.change compile).2.loop
  /-- While a run is going it is left to pick the change up. -/
  busy : InFlight session.calls → (session.change compile).1 = .coalesced ∧
    (session.change compile).2.calls = .notified false :: session.calls
  /-- Otherwise runs are driven as planned, and the outcome is that of the last one. -/
  idle : ¬ InFlight session.calls → Drives compile (.notified true :: session.calls) session.plans
    (session.change compile)

theorem change_changes (compile : Nat → α) (reached : Reached session.calls session.loop) :
    session.Changes compile := by
  have going := reached.tells.going
  by_cases idle : session.loop.state = .idle
  · have starts : session.loop.notify.1 = true ∧ session.loop.notify.2.state = .compiling := by
      simp [RecompileLoop.notify, idle]
    have same : session.change compile = runAll compile session.notify.2 session.plans :=
      if_pos starts.1
    have first : session.notify.2.calls = .notified true :: session.calls := by
      show Happening.notified session.loop.notify.1 :: _ = _
      rw [starts.1]
    have drives : Drives compile session.notify.2.calls session.plans (session.change compile) :=
      same ▸ runAll_drives session.plans reached.notify starts.2
    rw [first] at drives
    exact ⟨drives.history, fun flying => absurd idle (going.mp flying), fun _ => drives⟩
  · have silent := notify_busy idle
    have same : session.change compile = (.coalesced, session.notify.2) :=
      if_neg (ne_of_eq_of_ne silent (by simp))
    have first : session.notify.2.calls = .notified false :: session.calls := by
      show Happening.notified session.loop.notify.1 :: _ = _
      rw [silent]
    refine ⟨?_, fun _ => ?_, fun grounded => absurd (going.mpr idle) grounded⟩
    · rw [same]
      exact reached.notify
    · rw [same]
      exact ⟨rfl, first⟩

/-- Any number of changes from outside makes a history of the loop. -/
theorem after_reached (compile : Nat → α) (plans : List RunPlan) (changes : Nat) :
    Reached (after compile plans changes).calls (after compile plans changes).loop := by
  induction changes with
  | zero => exact .fresh
  | succ changes ih => exact (change_changes compile ih).history

/-- The recompile loop loses no change and hands on no result that is out of date, whatever the history
of changes and runs. Driving it makes such a history: what a change from outside calls is what the
plans of the runs say, a change for each that is planned, and the change is answered with the result
of the last run. -/
theorem recompiling_loses_nothing :
    (∀ past loop, Reached past loop → Sound past loop) ∧
    (∀ (α : Type) (compile : Nat → α) plans changes,
      Reached (after compile plans changes).calls (after compile plans changes).loop) ∧
    ∀ (α : Type) (compile : Nat → α) (session : Session α),
      Reached session.calls session.loop → session.Changes compile :=
  ⟨fun _ _ reached => reached.sound, fun _ => after_reached,
    fun _ compile _ reached => change_changes compile reached⟩

/-- A change, two more during its run, and then a run that breaks off with a change behind it. -/
def brokenHistory : List Happening :=
  [.aborted, .notified false, .completed .rerun, .notified false, .notified false, .notified true]

theorem recompiling_loses_nothing_broken :
    Sound brokenHistory ⟨.idle, 2, 1⟩ ∧
    (after id [⟨2, false⟩, ⟨1, true⟩] 1).calls = brokenHistory ∧
    Changes id { loop := ⟨.idle, 2, 1⟩, calls := brokenHistory, plans := [⟨1, false⟩] } :=
  have reached : Reached brokenHistory ⟨.idle, 2, 1⟩ :=
    recompiling_loses_nothing.2.1 Nat id [⟨2, false⟩, ⟨1, true⟩] 1
  ⟨recompiling_loses_nothing.1 _ _ reached, rfl, recompiling_loses_nothing.2.2 _ id _ reached⟩

end Session

end Idl.Watch
