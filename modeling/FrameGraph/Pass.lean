/-
Passes: a name, a kind, the usages declared for it, and what its callback does.

The callback is a function from how often the pass has run (counting from one) to the actions it asks its context for.
`Plan` is what compiling adds to a pass: whether it is culled, which resources it reads and writes, and the barriers
issued before it. Setup calls declare the usages (`Setup.run`); a call with a handle that is not registered declares
nothing.
-/
import FrameGraph.Command
import FrameGraph.Registry

namespace FrameGraph

/-! ## Passes -/

/-- what compiling adds to a pass; the resources are in order of first use -/
structure Plan where
  culled : Bool := false
  reads : List Key := []
  writes : List Key := []
  barriers : Batch := .empty

namespace Plan

/-- the indices of the resources of one kind -/
def indices (k : ResourceKind) (keys : List Key) : List Nat :=
  (keys.filter (·.kind = k)).map Key.index

end Plan

/-- one pass -/
structure Pass where
  name : String
  kind : PassKind
  usages : List Usage
  callback : Nat → List Action
  runs : Nat := 0
  plan : Plan := {}

namespace Pass

/-- the resources the usages read, in order of first use -/
def readKeys (p : Pass) : List Key := ((p.usages.filter Usage.reads).map Usage.key).eraseDups

/-- the resources the usages write, in order of first use -/
def writeKeys (p : Pass) : List Key := ((p.usages.filter Usage.writes).map Usage.key).eraseDups

/-- the pass before compiling -/
def unplanned (p : Pass) : Pass := { p with plan := {} }

end Pass

/-! ## Callbacks -/

/-- a step of a scripted callback -/
inductive ScriptStep where
  | act (a : Action)
  /-- open an event named after the number of the run -/
  | numberedEvent

/-- the callback that performs a script at every run -/
def scripted (steps : List ScriptStep) (run : Nat) : List Action :=
  steps.map fun
    | .act a => a
    | .numberedEvent => .beginEvent ("run " ++ toString run)

/-! ## Setup -/

/-- what a pass may do while it is declared -/
inductive SetupCall where
  | access (h : AnyHandle) (state : ResourceState) (access : Access)
  | writeDepth (h : Handle .texture)
  | readDepth (h : Handle .texture)
  | create (k : ResourceKind) (d : k.Descriptor)
  | kind

/-- what a setup call answers -/
inductive SetupReply where
  | handle (h : AnyHandle)
  | kind (k : PassKind)

namespace Setup

/-- the aspect of a depth usage: stencil goes along if the texture has it -/
def depthAspect (g : Registry) (h : Handle .texture) : Aspect :=
  match g.find? h with
  | some r => if r.descriptor.format.hasStencil then .depthStencil else .depth
  | none => .depth

/-- the usage a call declares, before it is checked -/
def usage? (g : Registry) : SetupCall → Option Usage
  | .access h state access => some (.ofHandle h state access)
  | .writeDepth h => some ⟨.texture, ⟨h, some (depthAspect g h), .depthWrite, .write⟩⟩
  | .readDepth h => some ⟨.texture, ⟨h, some (depthAspect g h), .depthRead, .read⟩⟩
  | .create _ _ => none
  | .kind => none

/-- the answer of a call, and the registry after it -/
def reply (kind : PassKind) (g : Registry) : SetupCall → Registry × SetupReply
  | .access h _ _ => (g, .handle h)
  | .writeDepth h => (g, .handle ⟨.texture, h⟩)
  | .readDepth h => (g, .handle ⟨.texture, h⟩)
  | .create k d =>
    let (g, h) := g.create d
    (g, .handle ⟨k, h⟩)
  | .kind => (g, .kind kind)

/-- run the calls in order: the registry after them, the usages of registered resources, and the answers -/
def run (kind : PassKind) (g : Registry) : List SetupCall → Registry × List Usage × List SetupReply
  | [] => (g, [], [])
  | call :: rest =>
    let declared := (usage? g call).toList.filter fun u => g.contains u.key
    let (g, answer) := reply kind g call
    let (g, usages, answers) := run kind g rest
    (g, declared ++ usages, answer :: answers)

end Setup

end FrameGraph
