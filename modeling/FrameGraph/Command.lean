/-
Commands, and what a command context makes of the actions it is asked for.

Passes and the executor ask a context for `Action`s. A recording context writes each of them down as a `Command` and
completes signals at once, since no GPU work is pending; with a wait it writes down whether the fence had already
reached the value. A context that serves one queue only may leave out signals and waits: it does not write them down and
does not move the fence (`syncs := false`).
-/
import FrameGraph.Barrier.Basic
import FrameGraph.Fence

namespace FrameGraph

/-- what a context is asked for -/
inductive Action where
  | beginEvent (name : String)
  | endEvent
  | barriers (batch : Batch)
  | signal (fence : Queue) (value : Nat)
  | wait (fence : Queue) (value : Nat)

/-- what a context writes down -/
inductive Command where
  | beginEvent (name : String)
  | endEvent
  | barriers (batch : Batch)
  | signal (fence : Queue) (value : Nat)
  | wait (fence : Queue) (value : Nat) (satisfied : Bool)

/-- the fences of the two queues -/
abbrev Fences := PerQueue Fence

namespace Action

/-- the fences after an action -/
def advance (syncs : Bool) (fences : Fences) : Action → Fences
  | signal f v => if syncs then fences.set f ((fences.get f).signal v) else fences
  | _ => fences

/-- the command written down for an action, if there is one -/
def command? (syncs : Bool) (fences : Fences) : Action → Option Command
  | beginEvent name => some (.beginEvent name)
  | endEvent => some .endEvent
  | barriers batch => some (.barriers batch)
  | signal f v => if syncs then some (.signal f v) else none
  | wait f v => if syncs then some (.wait f v ((fences.get f).reached v)) else none

/-- the fences after a list of actions -/
def advanceAll (syncs : Bool) (fences : Fences) (actions : List Action) : Fences :=
  actions.foldl (advance syncs) fences

/-- the commands written down for a list of actions -/
def record (syncs : Bool) : Fences → List Action → List Command
  | _, [] => []
  | fences, a :: rest => (a.command? syncs fences).toList ++ record syncs (a.advance syncs fences) rest

end Action

namespace Command

/-- the names of the debug events opened, in order -/
def eventNames (commands : List Command) : List String :=
  commands.filterMap fun
    | beginEvent name => some name
    | _ => none

/-- the barrier batches, in order -/
def batches (commands : List Command) : List Batch :=
  commands.filterMap fun
    | barriers batch => some batch
    | _ => none

end Command

/-! ## A context by itself -/

/-- a recording context and the fences it signals -/
structure Recorder where
  fences : Fences := .both .new
  commands : List Command := []

namespace Recorder

/-- write an action down -/
def ask (r : Recorder) (a : Action) : Recorder :=
  { fences := a.advance true r.fences, commands := r.commands ++ (a.command? true r.fences).toList }

/-- forget the commands, not the fences -/
def clear (r : Recorder) : Recorder := { r with commands := [] }

end Recorder

end FrameGraph
