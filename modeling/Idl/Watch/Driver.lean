import Idl.Watch

/-!
Driving the recompile loop: a change that finds no run going compiles, and compiles again as long
as changes come in meanwhile. Compiling is a parameter: what the first run gives, what the second
one gives, and so on.

What happens during a run is given as a plan: how many changes come in while it goes on, and
whether it breaks off without a result. Every call of the loop is recorded, and so is each step
together with the state of the loop.
-/

namespace Idl

namespace Watch

structure RunPlan where
  changes : Nat := 0
  breaksOff : Bool := false
deriving DecidableEq, Repr

inductive Outcome (α : Type) where
  /-- A run was already going and picks the change up. -/
  | coalesced
  /-- The runs that the change started ended with this result. -/
  | delivered (result : α)
  | brokeOff
deriving DecidableEq, Repr

inductive Event (α : Type) where
  | started (run : Nat) (state : LoopState)
  /-- A change came in during a run. -/
  | changedDuring (outcome : Outcome α) (state : LoopState)
  /-- A change from outside has been dealt with. -/
  | changed (outcome : Outcome α) (state : LoopState) (runsStarted : Nat)
deriving DecidableEq, Repr

/-- The loop, what its calls came to, what the runs to come will do, and what has happened so far,
the latest first. -/
structure Session (α : Type) where
  loop : RecompileLoop := {}
  calls : List RecompileLoop.Happening := []
  plans : List RunPlan := []
  events : List (Event α) := []
deriving DecidableEq, Repr

namespace Session
variable {α : Type}

def record (session : Session α) (event : Event α) : Session α :=
  { session with events := event :: session.events }

def notify (session : Session α) : Bool × Session α :=
  let (starts, loop) := session.loop.notify
  (starts, { session with loop, calls := .notified starts :: session.calls })

def complete (session : Session α) : Completion × Session α :=
  let (completion, loop) := session.loop.complete
  (completion, { session with loop, calls := .completed completion :: session.calls })

def abort (session : Session α) : Session α :=
  { session with loop := session.loop.abort, calls := .aborted :: session.calls }

/-- A change while a run is going, which starts none. -/
def changeDuring (session : Session α) : Session α :=
  let changed := session.notify.2
  changed.record (.changedDuring .coalesced changed.loop.state)

/-- Everything that happens between the start and the end of a run. -/
def during (session : Session α) (plan : RunPlan) : Session α :=
  let begun := session.record (.started session.loop.runsStarted session.loop.state)
  (List.replicate plan.changes ()).foldl (fun s _ => s.changeDuring) begun

/-- Runs until a result stands or a run breaks off. A run without a plan brings no change. -/
def runAll (compile : Nat → α) (session : Session α) : List RunPlan → Outcome α × Session α
  | [] =>
    let result := compile session.loop.runsStarted
    (.delivered result, { (session.during {}).complete.2 with plans := [] })
  | plan :: plans =>
    let result := compile session.loop.runsStarted
    let ended := session.during plan
    if plan.breaksOff then (.brokeOff, { ended.abort with plans })
    else match ended.complete with
      | (.deliver, session) => (.delivered result, { session with plans })
      | (.rerun, session) => runAll compile session plans

/-- A change from outside, and what it leads to. -/
def change (compile : Nat → α) (session : Session α) : Outcome α × Session α :=
  let (starts, session) := session.notify
  if starts then runAll compile session session.plans else (.coalesced, session)

/-- The session after a number of changes from outside. -/
def after (compile : Nat → α) (plans : List RunPlan) : Nat → Session α
  | 0 => { plans }
  | changes + 1 =>
    let (outcome, session) := (after compile plans changes).change compile
    session.record (.changed outcome session.loop.state session.loop.runsStarted)

/-- The events of a number of changes from outside, the first of them first. Every run gives its
number. -/
def eventsOf (plans : List RunPlan) (changes : Nat) : List (Event Nat) :=
  (after id plans changes).events.reverse

end Session

end Watch

end Idl
