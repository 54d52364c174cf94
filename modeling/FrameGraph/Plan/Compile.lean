/-
From declared passes and backed resources to a plan.

The steps are: read and write sets, the needed passes, their order, the barriers of each in registration order, merging
within each pass, and elimination across passes in execution order. `Stats` counts what each step did.
-/
import FrameGraph.Barrier.Merge
import FrameGraph.Plan.Barriers
import FrameGraph.Plan.Needed
import FrameGraph.Plan.Order
import FrameGraph.Plan.Redundancy

namespace FrameGraph

/-! ## Settings -/

/-- how to compile and execute: remove passes that are not needed, merge the barriers of a pass, drop barriers that are
redundant across passes, what to do with stale ones, and put debug events around passes -/
structure Settings where
  cull : Bool := true
  merge : Bool := true
  eliminate : Bool := true
  onStale : StalePolicy := .fault
  events : Bool := true
deriving DecidableEq, Repr

/-! ## Statistics -/

/-- what compiling did: `raw` counts are before merging, the plain ones are of the barriers left in the end -/
structure Stats where
  totalPasses : Nat := 0
  culledPasses : Nat := 0
  rawTextureBarriers : Nat := 0
  rawBufferBarriers : Nat := 0
  textureBarriers : Nat := 0
  bufferBarriers : Nat := 0
  mergedAway : Nat := 0
  redundantDropped : Nat := 0
  usedFallbackOrder : Bool := false
deriving DecidableEq, Repr

namespace Stats

/-- the passes that execute -/
def executed (s : Stats) : Except Fault Nat := checkedSub s.totalPasses s.culledPasses

/-- the barriers before merging -/
def raw (s : Stats) : Except Fault Nat := checkedAdd maxWord64 s.rawTextureBarriers s.rawBufferBarriers

/-- the barriers left in the end -/
def total (s : Stats) : Except Fault Nat := checkedAdd maxWord64 s.textureBarriers s.bufferBarriers

end Stats

/-! ## Merging every pass -/

/-- merge the barriers of one pass; also how many were merged away -/
def mergeBatch (g : Registry) (batch : Batch) : Except Fault (Batch × Nat) := do
  let textures ← mergeBarriers (g.boundsOf .texture) batch.textures
  let buffers ← mergeBarriers (g.boundsOf .buffer) batch.buffers
  let counts ← MergeCounts.add ⟨batch.textures.length, textures.length⟩ ⟨batch.buffers.length, buffers.length⟩
  let removed ← counts.removed
  return (⟨textures, buffers⟩, removed)

/-- merge the barriers of each pass; also how many were merged away -/
def mergeAll (g : Registry) : Batches → Except Fault (Batches × Nat)
  | [] => .ok ([], 0)
  | (i, batch) :: rest => do
    let (batch, removed) ← mergeBatch g batch
    let (batches, more) ← mergeAll g rest
    return ((i, batch) :: batches, removed + more)

/-! ## The plan -/

/-- everything compiling decides -/
structure Compiled where
  registry : Registry
  passes : List Pass
  order : List Nat
  stats : Stats

/-- compile passes over a registry in which every resource is as it was before any pass -/
def compilePasses (settings : Settings) (registry : Registry) (declared : List Pass) : Except Fault Compiled := do
  let passes := declared.map Pass.withSets
  let registry := registry.noteWriters passes
  let needed ← keptPasses settings.cull registry passes
  let (order, fallback) ← resolveOrder passes.length needed (dependencyEdges passes needed)
  let (registry, raw) ← synthesize passes registry needed
  let (merged, removed) ← if settings.merge then mergeAll registry raw else pure (raw, 0)
  let (final, dropped) ←
    if settings.eliminate then
      eliminate settings.onStale (fun i => (passes[i]?.map Pass.name).getD "") registry ⟨[], []⟩
        (order.map fun i => (i, merged.ofPass i))
    else pure (merged, 0)
  return {
    registry
    passes := passes.mapIdx fun i p =>
      { p with plan := { p.plan with culled := !needed.contains i, barriers := final.ofPass i } }
    order
    stats := {
      totalPasses := passes.length
      culledPasses := passes.length - needed.length
      rawTextureBarriers := raw.textureCount
      rawBufferBarriers := raw.bufferCount
      textureBarriers := final.textureCount
      bufferBarriers := final.bufferCount
      mergedAway := removed
      redundantDropped := dropped
      usedFallbackOrder := fallback } }

end FrameGraph
