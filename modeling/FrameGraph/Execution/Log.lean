/-
Running a graph on one queue, and the log both ways of running it produce.

A log is a list of blocks in the order they were recorded. Each block is what one pass, one signal or wait, or the
export batch wrote down on one queue; a queue's command stream is the concatenation of its blocks (`Log.stream`). A pass
has a block even if it wrote nothing down, so the log says when it ran.

A pass opens its debug event, issues its barriers if it has any, runs its callback and closes the event. After the last
pass the exported resources are moved from the tracked states to their export states, in one batch.
-/
import FrameGraph.Graph

namespace FrameGraph

variable {k : ResourceKind}

/-! ## Logs -/

/-- where a block comes from -/
inductive Source where
  | pass (index : Nat)
  | sync
  | exports
deriving DecidableEq, Repr

/-- what one source wrote down on a queue -/
structure Block where
  queue : Queue
  source : Source
  commands : List Command

/-- what has been recorded so far, and the fences -/
structure Log where
  fences : Fences
  blocks : List Block := []

namespace Log

/-- record the actions of one source; `syncs` says which queues' contexts keep signals and waits -/
def record (syncs : PerQueue Bool) (log : Log) (queue : Queue) (source : Source) (actions : List Action) : Log :=
  { fences := Action.advanceAll (syncs.get queue) log.fences actions
    blocks := log.blocks ++ [⟨queue, source, Action.record (syncs.get queue) log.fences actions⟩] }

/-- the commands of a queue -/
def stream (log : Log) (queue : Queue) : List Command :=
  (log.blocks.filter (·.queue = queue)).flatMap Block.commands

end Log

/-! ## What is recorded -/

/-- what a pass asks its context for -/
def Pass.actions (events : Bool) (p : Pass) : List Action :=
  (if events then [.beginEvent p.name] else [])
    ++ (if p.plan.barriers.count > 0 then [.barriers p.plan.barriers] else [])
    ++ p.callback (p.runs + 1)
    ++ (if events then [.endEvent] else [])

/-- the barriers from the tracked states of a resource to its export state -/
def Resource.exportBarriers (r : Resource k) (index : Nat) : List (Barrier k) :=
  match r.exported, r.native with
  | some state, some native =>
    (r.tracker.transition none state).2.map fun c => Resource.barrier index native ⟨state, r.tag⟩ c
  | _, _ => []

/-- what can go wrong in working them out -/
def Resource.checkExport (r : Resource k) : Except Fault Unit :=
  match r.exported, r.native with
  | some state, some _ => r.tracker.check none state
  | _, _ => .ok ()

/-- the barriers from the tracked states of all exported resources to their export states -/
def exportBatch (settings : Settings) (g : Registry) : Except Fault Batch := do
  g.textures.forM Resource.checkExport
  g.buffers.forM Resource.checkExport
  let barriers : Batch := .ofFun fun k => ((g.get k).mapIdx fun i r => r.exportBarriers i).flatten
  if settings.merge then
    let textures ← mergeBarriers (g.boundsOf .texture) barriers.textures
    let buffers ← mergeBarriers (g.boundsOf .buffer) barriers.buffers
    return ⟨textures, buffers⟩
  else return barriers

/-- record the export batch on the graphics queue, if there is anything in it -/
def Log.recordExports (syncs : PerQueue Bool) (log : Log) (g : Graph) : Except Fault Log := do
  let batch ← exportBatch g.settings g.registry
  return if batch.count > 0 then log.record syncs .graphics .exports [.barriers batch] else log

/-! ## One queue -/

/-- run the graph on the graphics queue alone -/
def Graph.execute (syncs : PerQueue Bool) (fences : Fences) (g : Graph) : Except Fault (Graph × Log) := do
  let log := g.walk.foldl
    (fun (log : Log) (i, p) => log.record syncs .graphics (.pass i) (p.actions g.settings.events)) { fences }
  let log ← log.recordExports syncs g
  return (g.afterRun, log)

end FrameGraph
