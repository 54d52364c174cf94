/-
Dropping barriers that change nothing across passes.

Several records may stand for one native object. The barriers are replayed in execution order against one state per
native object, which starts in the initial state of the record whose barrier comes first. A barrier that finds
everything in its own before-state is kept; one that finds everything already in its after-state is redundant; any other
is stale, and the policy says whether that is a fault or the barrier is dropped. The native state moves to the
after-state in each case.
-/
import FrameGraph.Registry

namespace FrameGraph

variable {k : ResourceKind}

/-- what to do with a stale barrier -/
inductive StalePolicy where
  | fault | drop
deriving DecidableEq, Repr

/-- what replaying a barrier shows -/
inductive Verdict where
  | keep | redundant | stale
deriving DecidableEq, Repr

/-- compare a barrier with the states of the parts it covers -/
def judge (states : List ResourceState) (before after : ResourceState) : Verdict :=
  if states.all (· = before) then .keep
  else if states.all (· = after) then .redundant
  else .stale

/-- the states of native objects, the latest entry first -/
abbrev Natives (k : ResourceKind) := List (Nat × Tracker k)

namespace Natives

/-- the states of the native object a barrier is on -/
def find (g : Registry) (n : Natives k) (b : Barrier k) : Except Fault (Tracker k) :=
  match n.lookup b.native with
  | some t => .ok t
  | none =>
    match (g.get k)[b.resource]? with
    | some r => .ok (.uniform r.bounds r.initial)
    | none => .error .outOfBounds

/-- replay one barrier: whether it is kept, and the states after it -/
def replay (policy : StalePolicy) (pass : String) (g : Registry) (n : Natives k) (b : Barrier k) :
    Except Fault (Bool × Natives k) := do
  let t ← n.find g b
  t.check b.part b.after
  let moved := (b.native, (t.transition b.part b.after).1) :: n
  match judge (t.states b.part) b.before b.after, policy with
  | .keep, _ => return (true, moved)
  | .redundant, _ => return (false, moved)
  | .stale, .drop => return (false, moved)
  | .stale, .fault => .error (.staleBarrier pass b.text)

/-- replay the barriers of a pass: the ones kept, how many were dropped, and the states after them -/
def sift (policy : StalePolicy) (pass : String) (g : Registry) (n : Natives k) :
    List (Barrier k) → Except Fault (List (Barrier k) × Nat × Natives k)
  | [] => .ok ([], 0, n)
  | b :: bs => do
    let (keep, n) ← n.replay policy pass g b
    let (kept, dropped, n) ← sift policy pass g n bs
    return if keep then (b :: kept, dropped, n) else (kept, dropped + 1, n)

end Natives

/-- replay the batches of passes in execution order: the ones left, and how many barriers were dropped -/
def eliminate (policy : StalePolicy) (passName : Nat → String) (g : Registry) (n : Both Natives) :
    Batches → Except Fault (Batches × Nat)
  | [] => .ok ([], 0)
  | (i, batch) :: rest => do
    let (textures, droppedTextures, textureNatives) ← n.textures.sift policy (passName i) g batch.textures
    let (buffers, droppedBuffers, bufferNatives) ← n.buffers.sift policy (passName i) g batch.buffers
    let (batches, dropped) ← eliminate policy passName g ⟨textureNatives, bufferNatives⟩ rest
    return ((i, ⟨textures, buffers⟩) :: batches, droppedTextures + droppedBuffers + dropped)

end FrameGraph
