/-
The barriers a pass needs before it runs.

The states the pass asks for are compared with the tracked ones, resource by resource: the usages of a resource are
folded into a demand, the tracker is moved to what the demand asks for, and each change becomes a barrier. Resources do
not influence each other. A pass that asks for a state its kind cannot use faults before anything is compared; what can
go wrong after that is checked apart from what is worked out (`Pass.check`).
-/
import FrameGraph.Demand
import FrameGraph.Pass

namespace FrameGraph

variable {k : ResourceKind}

/-- move parts into states, one after another; also the changes, each with what was asked for -/
def Tracker.serve (t : Tracker k) : List (Option k.Part × Want k) → Tracker k × List (Want k × Transition k)
  | [] => (t, [])
  | (part, w) :: rest =>
    let (t, changes) := t.transition part w.state
    let (t, more) := t.serve rest
    (t, changes.map (w, ·) ++ more)

/-- what can go wrong in moving parts into states, one after another -/
def Tracker.checkAll (t : Tracker k) : List (Option k.Part × Want k) → Except Fault Unit
  | [] => .ok ()
  | (part, w) :: rest => do
    t.check part w.state
    (t.transition part w.state).1.checkAll rest

namespace Resource

/-- the parts some usages ask for, with the states they are to be in -/
def asked (r : Resource k) (uses : List (Use k)) : List (Option k.Part × Want k) :=
  uses.map fun u => (u.handle.part, ⟨u.state, u.tag.getD r.tag⟩)

/-- what some usages ask of the resource -/
def demand (r : Resource k) (uses : List (Use k)) : Demand k := .ofList r.tracker.bounds (r.asked uses)

/-- what can go wrong in working out and meeting what some usages ask of the resource -/
def check (r : Resource k) (uses : List (Use k)) : Except Fault Unit := do
  Demand.nothing.checkAll r.tracker.bounds (r.asked uses)
  if r.native.isSome then r.tracker.checkAll ((r.demand uses).requests r.tracker.bounds)

/-- the barrier of one change -/
def barrier (index native : Nat) (w : Want k) (c : Transition k) : Barrier k :=
  { resource := index, native, before := c.before, after := w.state, tag := w.tag, part := c.part }

/-- move the resource to what some usages ask for; also the barriers that do so. A resource without a native object is
left alone. -/
def meet (r : Resource k) (index : Nat) (uses : List (Use k)) : Resource k × List (Barrier k) :=
  match r.native with
  | none => (r, [])
  | some native =>
    let (t, changes) := r.tracker.serve ((r.demand uses).requests r.tracker.bounds)
    ({ r with tracker := t }, changes.map fun (w, c) => barrier index native w c)

end Resource

namespace Pass

/-- the usages of one resource, in order -/
def usesOf (p : Pass) (k : ResourceKind) (index : Nat) : List (Use k) :=
  (Usage.ofKind k p.usages).filter (·.handle.index = index)

/-- the resources of a kind, in order of first use -/
def touched (p : Pass) (k : ResourceKind) : List Nat :=
  ((Usage.ofKind k p.usages).map (·.handle.index)).eraseDups

/-- the first usage whose state the kind of the pass cannot use -/
def illegal? (p : Pass) : Option Usage := p.usages.find? fun u => !p.kind.allows u.state

/-- the registry once the pass has what it asks for -/
def advance (p : Pass) (g : Registry) : Registry :=
  g.mapRecords fun k i r => (r.meet i (p.usesOf k i)).1

/-- the barriers that lead there, resources in order of first use -/
def barriersFrom (p : Pass) (g : Registry) : Batch :=
  .ofFun fun k => (p.touched k).flatMap fun i =>
    match (g.get k)[i]? with
    | some r => (r.meet i (p.usesOf k i)).2
    | none => []

/-- what can go wrong in working out the barriers of one kind -/
def checkOf (p : Pass) (g : Registry) (k : ResourceKind) : Except Fault Unit :=
  (p.touched k).forM fun i =>
    match (g.get k)[i]? with
    | some r => r.check (p.usesOf k i)
    | none => .ok ()

/-- what can go wrong in working out the barriers of the pass -/
def check (p : Pass) (g : Registry) : Except Fault Unit := do
  p.checkOf g .texture
  p.checkOf g .buffer

end Pass

/-- the barriers of some passes, one pass after another, and the registry they lead to -/
def synthesize (passes : List Pass) (g : Registry) : List Nat → Except Fault (Registry × Batches)
  | [] => .ok (g, [])
  | i :: rest =>
    match passes[i]? with
    | none => .error .outOfBounds
    | some p =>
      match p.illegal? with
      | some u => .error (.stateNotAllowed p.name p.kind u.state)
      | none => do
        p.check g
        let (after, batches) ← synthesize passes (p.advance g) rest
        return (after, (i, p.barriersFrom g) :: batches)

end FrameGraph
