/-
The order the needed passes run in.

Each resource orders the passes that touch it: a write comes after the write before it and after the reads since, a read
after the last write. `dependencyEdges` collects these edges over all resources. `topologicalOrder` is Kahn's algorithm
that always takes the smallest ready pass; on a cycle it stops short, and `resolveOrder` then falls back to the passes
in the order given.

`topologicalOrder` also answers for node lists with repetitions: a repeated node is emitted again and releases its
successors again, which faults when a successor has nothing left to wait for. A node that is not a pass faults.
-/
import FrameGraph.Pass
import FrameGraph.Sort

namespace FrameGraph

/-! ## Edges -/

/-- an earlier and a later pass -/
abbrev Edge := Nat × Nat

/-- what later accesses of a resource may have to wait for -/
structure Hazard where
  lastWriter : Option Nat := none
  readers : List Nat := []
deriving DecidableEq, Repr

namespace Hazard

/-- one more pass touches the resource: the edges into it, and what is to wait for from now on -/
def touch (h : Hazard) (pass : Nat) (writes : Bool) : List Edge × Hazard :=
  let afterWrite := (h.lastWriter.toList.filter (· ≠ pass)).map (·, pass)
  if writes then
    (afterWrite ++ (h.readers.filter (· ≠ pass)).map (·, pass), { lastWriter := some pass, readers := [] })
  else (afterWrite, { h with readers := h.readers ++ [pass] })

end Hazard

/-- the edges one resource makes between the passes of a list -/
def resourceEdges (passes : List Pass) (key : Key) (h : Hazard) : List Nat → List Edge
  | [] => []
  | i :: rest =>
    match passes[i]? with
    | none => resourceEdges passes key h rest
    | some p =>
      if p.plan.writes.contains key || p.plan.reads.contains key then
        let (edges, h) := h.touch i (p.plan.writes.contains key)
        edges ++ resourceEdges passes key h rest
      else resourceEdges passes key h rest

/-- the resources some passes touch -/
def touchedKeys (passes : List Pass) (needed : List Nat) : List Key :=
  ((needed.filterMap (passes[·]?)).flatMap fun p => p.plan.reads ++ p.plan.writes).eraseDups

/-- every edge between needed passes, in ascending order -/
def dependencyEdges (passes : List Pass) (needed : List Nat) : List Edge :=
  ascending (fun (i, j) => [i, j])
    ((touchedKeys passes needed).flatMap fun key => resourceEdges passes key {} needed)

/-! ## Kahn's algorithm -/

/-- take one from the in-degree of each node; a node left with none becomes ready -/
def release : List Nat → List Nat → List Nat → Except Fault (List Nat × List Nat)
  | [], degrees, ready => .ok (degrees, ready)
  | v :: vs, degrees, ready =>
    match checkedSub (degrees[v]?.getD 0) 1 with
    | .error e => .error e
    | .ok d => release vs (degrees.set v d) (if d = 0 then v :: ready else ready)

/-- the in-degrees together -/
def total (degrees : List Nat) : Nat := degrees.foldr (· + ·) 0

theorem total_set_pred {degrees : List Nat} {v d : Nat} (h : degrees[v]? = some (d + 1)) :
    total (degrees.set v d) + 1 = total degrees := by
  unfold total
  induction degrees generalizing v with
  | nil => simp at h
  | cons a as ih =>
    cases v with
    | zero =>
      obtain rfl : a = d + 1 := by simpa using h
      simp only [List.set_cons_zero, List.foldr_cons]
      omega
    | succ v =>
      have := ih (by simpa using h)
      simp only [List.set_cons_succ, List.foldr_cons]
      omega

/-- each release uses up an edge, so nodes become ready no faster than edges go -/
theorem release_measure {vs degrees ready degrees' ready' : List Nat}
    (h : release vs degrees ready = .ok (degrees', ready')) :
    total degrees' + ready'.length ≤ total degrees + ready.length := by
  induction vs generalizing degrees ready with
  | nil =>
    cases h
    exact Nat.le_refl _
  | cons v vs ih =>
    unfold release checkedSub at h
    split at h
    · cases h
    · rename_i d hd
      split at hd
      · obtain rfl : degrees[v]?.getD 0 - 1 = d := Except.ok.inj hd
        have hv : degrees[v]? = some (degrees[v]?.getD 0 - 1 + 1) := by
          cases hx : degrees[v]? with
          | none => simp_all
          | some x =>
            simp only [hx, Option.getD_some] at *
            congr
            omega
        have hs := total_set_pred hv
        have hi := ih h
        split at hi
        · simp only [List.length_cons] at hi
          omega
        · omega
      · cases hd

/-- emit the ready nodes, smallest first, releasing the successors of each -/
def drain (successors : Nat → List Nat) (degrees ready : List Nat) : Except Fault (List Nat) :=
  match _ : ready.min? with
  | none => .ok []
  | some v =>
    match _ : release (successors v) degrees (ready.erase v) with
    | .error e => .error e
    | .ok (degrees', ready') => (drain successors degrees' ready').map (v :: ·)
termination_by total degrees + ready.length
decreasing_by
  have hm : v ∈ ready := List.min?_mem ‹ready.min? = some v›
  have := release_measure ‹release (successors v) degrees (ready.erase v) = .ok (degrees', ready')›
  have := List.length_erase_of_mem hm
  have := List.length_pos_of_mem hm
  omega

/-- a topological order of `nodes`, each time the smallest that is ready; edges that touch other nodes are ignored -/
def topologicalOrder (passCount : Nat) (nodes : List Nat) (edges : List Edge) : Except Fault (List Nat) :=
  if nodes.all (· < passCount) then
    let used := edges.filter fun (i, j) => nodes.contains i && nodes.contains j && i != j
    let degrees := (List.range passCount).map fun j => used.countP (·.2 == j)
    drain (fun i => (used.filter (·.1 == i)).map Prod.snd) degrees
      (nodes.filter fun j => degrees[j]? == some 0)
  else .error .outOfBounds

/-- a topological order, or the nodes as given if there is a cycle; also whether there is one -/
def resolveOrder (passCount : Nat) (nodes : List Nat) (edges : List Edge) : Except Fault (List Nat × Bool) := do
  let order ← topologicalOrder passCount nodes edges
  return if order.length = nodes.length then (order, false) else (nodes, true)

end FrameGraph
