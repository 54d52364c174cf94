/-
What the usages of one pass ask of one resource.

Usages are folded in declaration order. One that covers the resource replaces everything asked before it; one on a part
replaces what was asked of that part; one whose part lies outside the resource asks nothing. So the last usage covering
an address decides what is asked of it, and each address is asked for at most one state.

`requests` lists the parts to be moved: everything, or the pieces of the store that are asked for something.
-/
import FrameGraph.Tracker

namespace FrameGraph

variable {k : ResourceKind}

/-- a requested state, and the tag the barrier is to carry -/
structure Want (k : ResourceKind) where
  state : ResourceState
  tag : k.Tag
deriving DecidableEq

/-- what is asked of one resource -/
inductive Demand (k : ResourceKind) where
  | nothing
  | whole (w : Want k)
  | parts (s : k.Store (Option (Want k)))
deriving DecidableEq

namespace Demand

/-- what is asked of each address -/
def store (bounds : k.Bounds) : Demand k → k.Store (Option (Want k))
  | nothing => k.fill bounds none
  | whole w => k.fill bounds (some w)
  | parts s => s

/-- ask for one more part, for everything if none is given -/
def add (bounds : k.Bounds) (d : Demand k) (part : Option k.Part) (w : Want k) : Demand k :=
  match part with
  | none => .whole w
  | some p =>
    match k.clamp bounds p with
    | none => d
    | some p => if k.covers bounds p then .whole w else .parts (k.write bounds p (some w) (d.store bounds))

/-- everything a list of parts asks for, in order -/
def ofList (bounds : k.Bounds) (asked : List (Option k.Part × Want k)) : Demand k :=
  asked.foldl (fun d (part, w) => d.add bounds part w) .nothing

/-- what can go wrong in asking for one more part -/
def check (bounds : k.Bounds) (d : Demand k) (part : Option k.Part) (w : Want k) : Except Fault Unit :=
  match part.bind (k.clamp bounds) with
  | none => .ok ()
  | some p => if k.covers bounds p then .ok () else k.check bounds p (some w) (d.store bounds)

/-- what can go wrong in asking for a list of parts, in order -/
def checkAll (bounds : k.Bounds) (d : Demand k) : List (Option k.Part × Want k) → Except Fault Unit
  | [] => .ok ()
  | (part, w) :: rest => do
    d.check bounds part w
    (d.add bounds part w).checkAll bounds rest

/-- the parts to be moved -/
def requests (bounds : k.Bounds) : Demand k → List (Option k.Part × Want k)
  | nothing => []
  | whole w => [(none, w)]
  | parts s => (k.filled bounds s).map fun (p, w) => (some p, w)

/-- what is asked of address `i` -/
def wantAt (bounds : k.Bounds) (d : Demand k) (i : Nat) : Option (Want k) :=
  ((k.values (d.store bounds))[i]?).join

end Demand

end FrameGraph
