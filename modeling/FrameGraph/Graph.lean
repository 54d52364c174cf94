/-
The graph of one frame: its resources, its passes, and the plan compiled for them.

A graph is declared by creating and importing resources, exporting states and adding passes; `compile` plans it. Any
later declaration discards the plan (`invalidate`): the graph is again as if it had never been compiled, except that
resources keep their native objects, their writers and the statistics of the last plan. `clear` starts over.

`compile` has three outcomes. A fault ends the call. A device that cannot create an object makes it answer the error:
the graph is not compiled, and what was created so far is kept. Otherwise the graph is compiled.
-/
import FrameGraph.Plan.Backing
import FrameGraph.Plan.Compile

namespace FrameGraph

variable {k : ResourceKind} {σ : Type}

/-- the version of the library -/
def version : String := "0.1.0"

/-- the passes and resources of one frame -/
structure Graph where
  settings : Settings := {}
  registry : Registry := .empty
  passes : List Pass := []
  order : List Nat := []
  compiled : Bool := false
  stats : Stats := {}

namespace Graph

/-- an empty graph -/
def new (settings : Settings) : Graph := { settings }

/-! ## Declaring -/

/-- discard the plan, if there is one -/
def invalidate (g : Graph) : Graph :=
  if g.compiled then
    { g with
      compiled := false
      order := []
      passes := g.passes.map Pass.unplanned
      registry := g.registry.rewind }
  else g

/-- a resource made for the graph -/
def create (g : Graph) (d : k.Descriptor) : Graph × Handle k :=
  let g := g.invalidate
  let (registry, h) := g.registry.create d
  ({ g with registry }, h)

/-- a resource owned outside the graph, in the state it is in now -/
def importNative (g : Graph) (native : Nat) (d : k.Descriptor) (s : ResourceState) : Graph × Handle k :=
  let g := g.invalidate
  let (registry, h) := g.registry.importNative native d s
  ({ g with registry }, h)

/-- require a whole resource to be left in a state; a handle without a resource changes nothing -/
def exportState (g : Graph) (h : AnyHandle) (s : ResourceState) : Graph :=
  match g.registry.export? h.key s with
  | some registry => { g with registry }.invalidate
  | none => g

/-- one more pass; also its index and the answers of its setup calls -/
def addPass (g : Graph) (name : String) (kind : PassKind) (setup : List SetupCall) (callback : Nat → List Action) :
    Graph × Nat × List SetupReply :=
  let g := g.invalidate
  let (registry, usages, replies) := Setup.run kind g.registry setup
  ({ g with registry, passes := g.passes ++ [{ name, kind, usages, callback }] }, g.passes.length, replies)

/-- remove every pass and resource, and the statistics -/
def clear (g : Graph) : Graph := new g.settings

/-! ## Compiling -/

/-- plan the graph: the graph after it, its statistics or why an object could not be created, and the device after it -/
def compile (dev : Device σ) (s : σ) (g : Graph) : Except Fault (Graph × Except AllocationError Stats × σ) :=
  match g.registry.back dev s with
  | (registry, some e, s) => .ok ({ g with registry, order := [], compiled := false }, .error e, s)
  | (registry, none, s) => do
    let plan ← compilePasses g.settings registry g.passes
    let g := { g with
      registry := plan.registry, passes := plan.passes, order := plan.order, stats := plan.stats, compiled := true }
    return (g, .ok plan.stats, s)

/-! ## Walking -/

/-- the passes to run, in order and with their indices: the compiled order, or the declared one -/
def walk (g : Graph) : List (Nat × Pass) :=
  ((if g.compiled then g.order else List.range g.passes.length).filterMap fun i => g.passes[i]?.map (i, ·)).filter
    fun (_, p) => !p.plan.culled

/-- the graph after its walk has been run once -/
def afterRun (g : Graph) : Graph :=
  { g with passes := g.passes.mapIdx fun i p => { p with runs := p.runs + (g.walk.map Prod.fst).count i } }

end Graph

end FrameGraph
