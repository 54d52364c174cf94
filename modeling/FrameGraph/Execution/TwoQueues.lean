/-
Running a graph on a graphics and a compute queue.

Compute passes are recorded on the compute queue, all others on the graphics queue. A pass changes a resource when it
writes it or carries a barrier on it. Before a pass touches a resource the other queue changed last, or changes one the
other queue has read since, the other queue signals its fence and this queue waits for it. For each resource only the
last change and, per queue, the last read since are remembered (`Recent`); positions count the passes on a queue.

Signals are lazy: a queue signals when a pass on the other queue first needs it, a signal made late enough is used
again, and a wait that an earlier one covers is left out. The exports count as a change, on the graphics queue, of every
resource with an export state.
-/
import FrameGraph.Execution.Log

namespace FrameGraph

/-- the queue passes of a kind run on -/
def PassKind.queue : PassKind → Queue
  | .compute => .compute
  | .graphics | .copy => .graphics

/-! ## What a queue has to wait for -/

/-- the last change of a resource, and the last read on each queue since -/
structure Recent where
  change : Option (Queue × Nat) := none
  read : PerQueue (Option Nat) := .both none
deriving DecidableEq, Repr

/-- the later of two positions -/
def later : Option Nat → Option Nat → Option Nat
  | none, b => b
  | a, none => a
  | some a, some b => some (max a b)

namespace Recent

/-- the position on a queue that an access on the other queue waits for -/
def dependency (r : Recent) (on : Queue) (changes : Bool) : Option Nat :=
  later ((r.change.filter (·.1 = on)).map Prod.snd) (if changes then r.read.get on else none)

/-- one more access -/
def touch (r : Recent) (queue : Queue) (position : Nat) (reads changes : Bool) : Recent :=
  if changes then { change := some (queue, position) }
  else if reads then { r with read := r.read.set queue (some position) }
  else r

end Recent

/-- the recent accesses of each resource, the latest entry first -/
abbrev Accesses := List (Key × Recent)

namespace Accesses

/-- the recent accesses of a resource -/
def of (a : Accesses) (key : Key) : Recent := (a.lookup key).getD {}

end Accesses

/-- the resources a pass has barriers on -/
def Pass.transitioned (p : Pass) : List Key :=
  p.plan.barriers.textures.map (⟨.texture, ·.resource⟩) ++ p.plan.barriers.buffers.map (⟨.buffer, ·.resource⟩)

/-- the pass writes the used resource or carries a barrier on it -/
def Pass.changes (p : Pass) (u : Usage) : Bool := u.writes || p.transitioned.contains u.key

/-- the latest position among some -/
def latest (positions : List (Option Nat)) : Option Nat := positions.foldl later none

/-- the position on the other queue a pass waits for -/
def Pass.dependency (p : Pass) (a : Accesses) : Option Nat :=
  latest (p.usages.map fun u => (a.of u.key).dependency p.kind.queue.other (p.changes u))

/-- the accesses after a pass at a position of its queue -/
def Pass.noteAccesses (p : Pass) (position : Nat) (a : Accesses) : Accesses :=
  p.usages.foldl
    (fun a u => (u.key, (a.of u.key).touch p.kind.queue position u.reads (p.changes u)) :: a) a

/-- the resources with an export state -/
def Registry.exportedKeys (g : Registry) : List Key :=
  (g.textures.zipIdx.filter (·.1.exported.isSome)).map (⟨.texture, ·.2⟩)
    ++ (g.buffers.zipIdx.filter (·.1.exported.isSome)).map (⟨.buffer, ·.2⟩)

/-- the position on the compute queue the exports wait for -/
def Registry.exportDependency (g : Registry) (a : Accesses) : Option Nat :=
  latest (g.exportedKeys.map fun key => (a.of key).dependency .compute true)

/-! ## The run -/

/-- how far a queue is: the passes recorded on it, its last signal (after how many passes, and the value), and the
highest value it has waited for -/
structure Progress where
  recorded : Nat := 0
  signaled : Option (Nat × Nat) := none
  waited : Nat := 0
deriving DecidableEq, Repr

/-- the state of a run on two queues -/
structure TwoQueueRun where
  log : Log
  progress : PerQueue Progress := .both {}
  accesses : Accesses := []

namespace TwoQueueRun

/-- a signal of a queue that covers its work up to a position: the last one if it is late enough, else a new one -/
def signal (syncs : PerQueue Bool) (run : TwoQueueRun) (source : Queue) (position : Nat) :
    Except Fault (Nat × TwoQueueRun) :=
  let progress := run.progress.get source
  match progress.signaled.filter (position ≤ ·.1) with
  | some (_, value) => .ok (value, run)
  | none => do
    let (value, fence) ← (run.log.fences.get source).next
    let log := { run.log with fences := run.log.fences.set source fence }
    return (value, { run with
      log := log.record syncs source .sync [.signal source value]
      progress := run.progress.set source { progress with signaled := some (progress.recorded, value) } })

/-- make a queue wait for the other one's work up to a position -/
def waitFor (syncs : PerQueue Bool) (run : TwoQueueRun) (waiter : Queue) (position : Nat) :
    Except Fault TwoQueueRun := do
  let (value, run) ← run.signal syncs waiter.other position
  let progress := run.progress.get waiter
  if value ≤ progress.waited then return run
  else
    return { run with
      log := run.log.record syncs waiter .sync [.wait waiter.other value]
      progress := run.progress.set waiter { progress with waited := value } }

/-- make a queue wait if there is something to wait for -/
def waitIfNeeded (syncs : PerQueue Bool) (run : TwoQueueRun) (waiter : Queue) :
    Option Nat → Except Fault TwoQueueRun
  | none => .ok run
  | some position => run.waitFor syncs waiter position

/-- run one pass -/
def step (syncs : PerQueue Bool) (events : Bool) (run : TwoQueueRun) (index : Nat) (p : Pass) :
    Except Fault TwoQueueRun := do
  let queue := p.kind.queue
  let run ← run.waitIfNeeded syncs queue (p.dependency run.accesses)
  let progress := run.progress.get queue
  let position := progress.recorded + 1
  return {
    log := run.log.record syncs queue (.pass index) (p.actions events)
    progress := run.progress.set queue { progress with recorded := position }
    accesses := p.noteAccesses position run.accesses }

end TwoQueueRun

/-- run the graph on both queues -/
def Graph.executeAsync (syncs : PerQueue Bool) (fences : Fences) (g : Graph) : Except Fault (Graph × Log) := do
  let run ← g.walk.foldlM
    (fun (run : TwoQueueRun) (i, p) => run.step syncs g.settings.events i p) { log := { fences } }
  let run ← run.waitIfNeeded syncs .graphics (g.registry.exportDependency run.accesses)
  let log ← run.log.recordExports syncs g
  return (g.afterRun, log)

end FrameGraph
