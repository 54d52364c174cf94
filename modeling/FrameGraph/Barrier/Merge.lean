/-
Joining the barriers of one pass into fewer, wider ones.

The barriers are sorted and cut into groups. A group with a whole-resource barrier is that barrier alone. In any other
group the parts are coalesced: byte spans that meet are joined; rectangles are joined along the mip levels of the same
layers first, and the results along the layers of the same levels, each into the earliest run it continues. A result
that covers the resource becomes a whole-resource barrier. What is joined keeps the fields of its first member.

The sums are 32-bit for rectangles and 64-bit for spans, so joining can fault on parts that no resource has.
-/
import FrameGraph.Barrier.Basic

namespace FrameGraph

variable {k : ResourceKind} {β ρ : Type}

/-! ## Coalescing -/

/-- join each element to the run before it as long as they meet. What an element carries beside its part is dropped
when it is joined. -/
def joinNeighbours (meets : ρ → ρ → Bool) (grow : ρ → ρ → Except Fault ρ) (run : β × ρ) :
    List (β × ρ) → Except Fault (List (β × ρ))
  | [] => .ok [run]
  | next :: rest =>
    if meets run.2 next.2 then do
      let part ← grow run.2 next.2
      joinNeighbours meets grow (run.1, part) rest
    else do
      let runs ← joinNeighbours meets grow next rest
      return run :: runs

/-- join an element to the first run it continues, or start a new run at the end -/
def joinFirst (meets : ρ → ρ → Bool) (grow : ρ → ρ → Except Fault ρ) (next : β × ρ) :
    List (β × ρ) → Except Fault (List (β × ρ))
  | [] => .ok [next]
  | run :: runs =>
    if meets run.2 next.2 then do
      let part ← grow run.2 next.2
      return (run.1, part) :: runs
    else do
      let runs ← joinFirst meets grow next runs
      return run :: runs

/-- the runs of neighbours in a list -/
def neighbourRuns (meets : ρ → ρ → Bool) (grow : ρ → ρ → Except Fault ρ) :
    List (β × ρ) → Except Fault (List (β × ρ))
  | [] => .ok []
  | first :: rest => joinNeighbours meets grow first rest

/-- join parts in sort order -/
def ResourceKind.coalesce : (k : ResourceKind) → List (β × k.Part) → Except Fault (List (β × k.Part))
  | .texture, parts => do
    let mipRuns ← neighbourRuns Subresources.meetsMips Subresources.growMips parts
    mipRuns.foldlM (fun runs next => joinFirst Subresources.meetsLayers Subresources.growLayers next runs) []
  | .buffer, parts => neighbourRuns ByteSpan.meets ByteSpan.grow parts

/-! ## Merging -/

/-- join the barriers of one group; `bounds` is asked for the size of the resource only when it is needed -/
def mergeGroup (bounds : Nat → Except Fault k.Bounds) (group : List (Barrier k)) : Except Fault (List (Barrier k)) :=
  match group.find? (·.part.isNone) with
  | some whole => .ok [whole]
  | none => do
    let runs ← k.coalesce (group.filterMap fun b => b.part.map (b, ·))
    match group with
    | [] => return []
    | first :: _ =>
      let size ← bounds first.resource
      return runs.map fun (b, p) => { b with part := if k.covers size p then none else some p }

/-- the groups of a list of barriers, each in sort order -/
def barrierGroups (barriers : List (Barrier k)) : List (List (Barrier k)) :=
  (sortOn Barrier.sortKey barriers).splitBy fun a b => a.groupKey == b.groupKey

/-- join the barriers of one kind -/
def mergeBarriers (bounds : Nat → Except Fault k.Bounds) (barriers : List (Barrier k)) :
    Except Fault (List (Barrier k)) := do
  let merged ← (barrierGroups barriers).mapM (mergeGroup bounds)
  return merged.flatten

/-! ## Counts -/

/-- how many barriers went into merges and how many came out -/
structure MergeCounts where
  input : Nat
  output : Nat
deriving DecidableEq, Repr

namespace MergeCounts

/-- nothing merged -/
def zero : MergeCounts := ⟨0, 0⟩

/-- the counts of two merges together -/
def add (a b : MergeCounts) : Except Fault MergeCounts := do
  let input ← checkedAdd maxWord64 a.input b.input
  let output ← checkedAdd maxWord64 a.output b.output
  return ⟨input, output⟩

/-- the counts of many merges together -/
def sum (counts : List MergeCounts) : Except Fault MergeCounts :=
  counts.foldlM add zero

/-- how many barriers the merges removed -/
def removed (c : MergeCounts) : Except Fault Nat := checkedSub c.input c.output

end MergeCounts

end FrameGraph
