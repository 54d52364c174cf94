/-
The state of a resource, part by part, and the transitions that change it.

A tracker holds one state for the whole resource, or a store of states once parts differ. `transition` moves a part into
a state and reports what it changed: one entry without a part when the tracker was whole and the part is everything,
otherwise one entry for each piece of the part that was in another state. A store whose addresses agree again is
dropped for the state they agree on.

The meaning of a tracker is `stateAt`, a state for each address: cell number or byte offset.
-/
import FrameGraph.State
import FrameGraph.Region.Kind

namespace FrameGraph

variable {k : ResourceKind}

/-- one value for all of a resource, or a store of them -/
inductive Content (k : ResourceKind) (α : Type) where
  | whole (a : α)
  | split (s : k.Store α)
deriving DecidableEq

/-- the states of one resource -/
structure Tracker (k : ResourceKind) where
  bounds : k.Bounds
  content : Content k ResourceState
deriving DecidableEq

/-- a change of state: of a part, or of the whole resource -/
structure Transition (k : ResourceKind) where
  part : Option k.Part
  before : ResourceState
deriving DecidableEq

namespace Tracker

/-- the whole resource in one state -/
def uniform (bounds : k.Bounds) (s : ResourceState) : Tracker k := ⟨bounds, .whole s⟩

/-- forget the parts and put the whole resource in one state -/
def reset (t : Tracker k) (s : ResourceState) : Tracker k := { t with content := .whole s }

/-- the state of the whole resource, if it is tracked as a whole -/
def whole? (t : Tracker k) : Option ResourceState :=
  match t.content with
  | .whole s => some s
  | .split _ => none

/-- the states of the pieces of a part, of everything if no part is given -/
def states (t : Tracker k) (part : Option k.Part) : List ResourceState :=
  match k.region t.bounds part with
  | none => []
  | some p =>
    match t.content with
    | .whole s => [s]
    | .split s => (k.slice t.bounds p s).map Prod.snd

/-- the pieces of the resource with their states -/
def pieces (t : Tracker k) : List (k.Part × ResourceState) :=
  match t.content with
  | .whole s => (k.everything t.bounds).toList.map (·, s)
  | .split s => k.pieces t.bounds s

/-- drop the store for the state all its addresses agree on -/
def collapse (t : Tracker k) : Tracker k :=
  match t.content with
  | .whole _ => t
  | .split s =>
    match k.uniform? s with
    | some a => t.reset a
    | none => t

/-- keep a store, with one part moved into a state; also the pieces that were in another one -/
def moveIn (t : Tracker k) (s : k.Store ResourceState) (p : k.Part) (after : ResourceState) :
    Tracker k × List (Transition k) :=
  (collapse { t with content := .split (k.write t.bounds p after s) },
    ((k.slice t.bounds p s).filter fun (_, before) => before ≠ after).map fun (q, before) => ⟨some q, before⟩)

/-- move a part, everything if none is given, into a state; also the changes made -/
def transition (t : Tracker k) (part : Option k.Part) (after : ResourceState) : Tracker k × List (Transition k) :=
  match k.region t.bounds part with
  | none => (t, [])
  | some p =>
    match t.content with
    | .split s => t.moveIn s p after
    | .whole before =>
      if before = after then (t, [])
      else if k.covers t.bounds p then (t.reset after, [⟨none, before⟩])
      else t.moveIn (k.fill t.bounds before) p after

/-- what can go wrong in a transition: nothing while the resource stays whole -/
def check (t : Tracker k) (part : Option k.Part) (after : ResourceState) : Except Fault Unit :=
  match k.region t.bounds part with
  | none => .ok ()
  | some p =>
    match t.content with
    | .split s => k.check t.bounds p after s
    | .whole before =>
      if before = after ∨ k.covers t.bounds p then .ok () else k.check t.bounds p after (k.fill t.bounds before)

/-- the state of each address -/
def stateAt (t : Tracker k) (i : Nat) : Option ResourceState :=
  if i < k.size t.bounds then
    match t.content with
    | .whole s => some s
    | .split s => (k.values s)[i]?
  else none

end Tracker

/-- the state of one cell. A texture tracked as a whole has its state at every level and layer; once it is split the
cell is looked up by its number. -/
def Tracker.cell (t : Tracker .texture) (mip layer : Nat) : Except Fault ResourceState :=
  match t.content with
  | .whole s => .ok s
  | .split cells =>
    match cells[t.bounds.cellIndex mip layer]? with
    | some s => .ok s
    | none => .error .outOfBounds

end FrameGraph
