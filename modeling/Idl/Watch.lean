/-!
The loop that compiles again when sources change.

At most one run is going at any time. Changes that come in during a run are gathered into one
rerun, and the result of a run with a rerun behind it is dropped, since it may be out of date.
-/

namespace Idl

inductive LoopState where
  | idle
  /-- A run is going, and nothing has changed since it started. -/
  | compiling
  /-- A run is going, and something has changed since it started. -/
  | pendingRerun
deriving DecidableEq, Repr

def LoopState.text : LoopState → String
  | idle => "idle"
  | compiling => "compiling"
  | pendingRerun => "pending-rerun"

inductive Completion where
  /-- Nothing changed during the run, and its result stands. -/
  | deliver
  /-- Something changed during the run: its result is dropped and the next run starts. -/
  | rerun
deriving DecidableEq, Repr

def Completion.text : Completion → String
  | deliver => "deliver"
  | rerun => "rerun"

structure RecompileLoop where
  state : LoopState := .idle
  runsStarted : Nat := 0
  resultsDiscarded : Nat := 0
deriving DecidableEq, Repr

namespace RecompileLoop

/-- Takes note of a change. The answer is whether a run starts now. -/
def notify (loop : RecompileLoop) : Bool × RecompileLoop :=
  match loop.state with
  | .idle => (true, ⟨.compiling, loop.runsStarted + 1, loop.resultsDiscarded⟩)
  | .compiling | .pendingRerun => (false, ⟨.pendingRerun, loop.runsStarted, loop.resultsDiscarded⟩)

/-- Takes note that the run ended with a result. -/
def complete (loop : RecompileLoop) : Completion × RecompileLoop :=
  match loop.state with
  | .pendingRerun =>
    (.rerun, ⟨.compiling, loop.runsStarted + 1, loop.resultsDiscarded + 1⟩)
  | .compiling | .idle => (.deliver, ⟨.idle, loop.runsStarted, loop.resultsDiscarded⟩)

/-- Takes note that the run ended without a result. Changes gathered behind it are dropped. -/
def abort (loop : RecompileLoop) : RecompileLoop :=
  ⟨.idle, loop.runsStarted, loop.resultsDiscarded⟩

/-- What a call came to. -/
inductive Happening where
  /-- A change, and whether a run starts with it. -/
  | notified (starts : Bool)
  /-- The end of a run that has a result, and what becomes of the result. -/
  | completed (completion : Completion)
  /-- The end of a run that has none. -/
  | aborted
deriving DecidableEq, Repr

end RecompileLoop

end Idl
