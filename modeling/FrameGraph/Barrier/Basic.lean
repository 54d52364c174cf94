/-
Barriers: transitions of a resource, or of one part of it, between two states.

Barriers of one resource with the same states and tag form a group (`groupKey`). Within a sorted list the whole-resource
barriers of a group come first, then the others by place (`sortKey`).
-/
import FrameGraph.Sort
import FrameGraph.Tracker

namespace FrameGraph

variable {k : ResourceKind}

/-- a transition of a resource with a native object behind it; no part means the whole resource -/
structure Barrier (k : ResourceKind) where
  resource : Nat
  native : Nat
  before : ResourceState
  after : ResourceState
  tag : k.Tag
  part : Option k.Part
deriving DecidableEq

/-- the barriers issued at one point -/
abbrev Batch := Both fun k => List (Barrier k)

namespace Batch

/-- no barriers -/
def empty : Batch := ⟨[], []⟩

/-- the number of barriers -/
def count (b : Batch) : Nat := b.textures.length + b.buffers.length

end Batch

/-- the batches of passes, each with the index of its pass -/
abbrev Batches := List (Nat × Batch)

namespace Batches

/-- the batch of a pass -/
def ofPass (b : Batches) (i : Nat) : Batch := (b.lookup i).getD .empty

/-- the number of texture barriers -/
def textureCount (b : Batches) : Nat := (b.flatMap fun (_, batch) => batch.textures).length

/-- the number of buffer barriers -/
def bufferCount (b : Batches) : Nat := (b.flatMap fun (_, batch) => batch.buffers).length

end Batches

/-- the text of a part in a barrier's text -/
def ResourceKind.barrierPartText : (k : ResourceKind) → k.Part → String
  | .texture, r =>
    " mips " ++ toString r.baseMip ++ ".." ++ toString r.mipEnd ++ " layers " ++ toString r.baseLayer ++ ".."
      ++ toString r.layerEnd
  | .buffer, r => " " ++ r.text

namespace Barrier

/-- barriers that can be joined have equal group keys -/
def groupKey (b : Barrier k) : List Nat :=
  b.resource :: b.before.rank :: b.after.rank :: k.tagKey b.tag

/-- the group key, then the place; whole-resource barriers come first -/
def sortKey (b : Barrier k) : List Nat :=
  b.groupKey ++
    match b.part with
    | none => [0]
    | some p => 1 :: k.placeKey p

/-- the barrier as text -/
def text (b : Barrier k) : String :=
  k.title ++ "(" ++ toString b.resource ++ ")" ++ (b.part.map k.barrierPartText).getD "" ++ ": " ++ b.before.name
    ++ " -> " ++ b.after.name

end Barrier

end FrameGraph
