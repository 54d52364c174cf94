/-
Which passes are needed.

A pass is needed if it writes a resource that is seen outside the graph, or a resource that a needed pass reads. The
order of the passes and the parts they touch play no role. `closure` collects the needed passes backwards from the
first kind; it ends because every pass enters the work list at most once. The search looks records up by their index,
and faults if one is missing (`keptPasses`).
-/
import FrameGraph.Pass

namespace FrameGraph

/-! ## Read and write sets -/

/-- the pass with its read and write sets, and nothing else planned -/
def Pass.withSets (p : Pass) : Pass := { p with plan := { reads := p.readKeys, writes := p.writeKeys } }

/-- the passes that write a resource, in registration order -/
def writersOf (passes : List Pass) (key : Key) : List Nat :=
  (passes.zipIdx.filter fun (p, _) => p.plan.writes.contains key).map Prod.snd

/-- every record with the passes that write it -/
def Registry.noteWriters (g : Registry) (passes : List Pass) : Registry :=
  g.mapRecords fun k i r => { r with writers := writersOf passes ⟨k, i⟩ }

/-! ## Backward closure -/

/-- two disjoint selections from a list are together no longer than a selection that includes both -/
theorem length_filter_add_le {α : Type} {p q r : α → Bool} (as : List α)
    (hp : ∀ a ∈ as, p a = true → r a = true ∧ q a = false) (hq : ∀ a ∈ as, q a = true → r a = true) :
    (as.filter p).length + (as.filter q).length ≤ (as.filter r).length := by
  induction as with
  | nil => simp
  | cons a as ih =>
    have ih := ih (fun b hb => hp b (List.mem_cons_of_mem a hb)) fun b hb => hq b (List.mem_cons_of_mem a hb)
    have hpa := hp a List.mem_cons_self
    have hqa := hq a List.mem_cons_self
    simp only [List.filter_cons]
    cases hpv : p a <;> cases hqv : q a <;> cases hrv : r a <;> simp_all <;> omega

/-- the indices below `n` that are not marked -/
def unmarked (n : Nat) (marked : List Nat) : List Nat := (List.range n).filter fun i => !marked.contains i

/-- the unmarked indices below `n` that lead to `j` -/
def sources (n : Nat) (leads : Nat → Nat → Bool) (marked : List Nat) (j : Nat) : List Nat :=
  (unmarked n marked).filter (leads · j)

/-- marking the sources of an index takes them away from the unmarked ones -/
theorem length_sources_add_le (n : Nat) (leads : Nat → Nat → Bool) (marked : List Nat) (j : Nat) :
    (sources n leads marked j).length + (unmarked n (marked ++ sources n leads marked j)).length
      ≤ (unmarked n marked).length := by
  rw [sources, unmarked, List.filter_filter]
  refine length_filter_add_le _ (fun i hi h => ?_) fun i hi h => ?_
  · simp_all
  · simp_all

/-- every index below `n` that leads into `marked`, with `marked` itself; `work` holds the marked indices whose sources
have not been looked for -/
def closure (n : Nat) (leads : Nat → Nat → Bool) (marked : List Nat) : List Nat → List Nat
  | [] => marked
  | j :: work =>
    let found := sources n leads marked j
    closure n leads (marked ++ found) (found ++ work)
termination_by work => 2 * (unmarked n marked).length + work.length
decreasing_by
  have := length_sources_add_le n leads marked j
  simp only [List.length_append, List.length_cons]
  omega

/-- the first pass writes something the second one reads -/
def Pass.feeds (p q : Pass) : Bool := p.plan.writes.any q.plan.reads.contains

/-- pass `i` writes something pass `j` reads -/
def feedsAt (passes : List Pass) (i j : Nat) : Bool :=
  match passes[i]?, passes[j]? with
  | some p, some q => p.feeds q
  | _, _ => false

/-- the passes that write a resource seen outside the graph -/
def visibleWriters (g : Registry) (passes : List Pass) : List Nat :=
  (passes.zipIdx.filter fun (p, _) => p.plan.writes.any g.visible).map Prod.snd

/-- the needed passes, in registration order -/
def neededPasses (g : Registry) (passes : List Pass) : List Nat :=
  let roots := visibleWriters g passes
  (List.range passes.length).filter (closure passes.length (feedsAt passes) roots roots).contains

/-- textures before buffers -/
def texturesFirst (keys : List Key) : List Key :=
  keys.filter (·.kind = .texture) ++ keys.filter (·.kind = .buffer)

/-- looking for the needed passes finds every record it looks up: of what a pass writes those up to the first visible
one, and of what a needed pass reads all -/
def looksUpRegistered (g : Registry) (passes : List Pass) : Bool :=
  (passes.all fun p => ((texturesFirst p.plan.writes).takeWhile fun key => !g.visible key).all g.contains) &&
    (neededPasses g passes).all fun i => passes[i]?.all fun p => p.plan.reads.all g.contains

/-- the passes that are kept: all of them, or the needed ones, whose search faults where a record is missing -/
def keptPasses (cull : Bool) (g : Registry) (passes : List Pass) : Except Fault (List Nat) :=
  if cull then
    if looksUpRegistered g passes then .ok (neededPasses g passes) else .error .outOfBounds
  else .ok (List.range passes.length)

end FrameGraph
