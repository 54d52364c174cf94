/-
The resources a graph knows.

A resource made for the graph gets its native object when the graph is compiled; an imported one comes with it. Both
kinds of resource are kept in registration order, and handles are positions in that order. A resource that is imported
or has an export state is visible outside the graph.

- `register`: appends a record and returns its handle.
- `export?`: notes the state a resource must be left in; a handle without a resource changes nothing.
-/
import FrameGraph.Handle
import FrameGraph.Device

namespace FrameGraph

variable {k : ResourceKind}

/-! ## Records -/

/-- one resource -/
structure Resource (k : ResourceKind) where
  name : String
  descriptor : k.Descriptor
  backing : Option Allocation
  imported : Bool
  initial : ResourceState
  exported : Option ResourceState
  tracker : Tracker k
  writers : List Nat
deriving DecidableEq

namespace Resource

/-- a new record, tracked as a whole in its initial state -/
def new (name : String) (d : k.Descriptor) (backing : Option Allocation) (initial : ResourceState) : Resource k :=
  { name, descriptor := d, backing, imported := backing.isSome, initial, exported := none,
    tracker := .uniform (k.bounds d) initial, writers := [] }

/-- the native object behind the resource -/
def native (r : Resource k) : Option Nat := r.backing.map (·.native)

/-- the heap the native object shares -/
def heap (r : Resource k) : Option Nat := r.backing.bind (·.heap)

/-- the size of the resource -/
def bounds (r : Resource k) : k.Bounds := k.bounds r.descriptor

/-- the tag barriers carry unless a usage says otherwise -/
def tag (r : Resource k) : k.Tag := k.tag r.descriptor

/-- the resource is seen outside the graph -/
def visible (r : Resource k) : Bool := r.imported || r.exported.isSome

/-- the record before any pass has touched the resource -/
def rewind (r : Resource k) : Resource k := { r with tracker := r.tracker.reset r.initial }

end Resource

/-! ## The registry -/

/-- every resource, in registration order -/
abbrev Registry := Both fun k => List (Resource k)

namespace Registry

/-- no resources -/
def empty : Registry := ⟨[], []⟩

/-- append a record -/
def register (g : Registry) (r : Nat → Resource k) : Registry × Handle k :=
  let records := g.get k
  (g.set k (records ++ [r records.length]), ⟨records.length, none⟩)

/-- a resource made for the graph, at first undefined -/
def create (g : Registry) (d : k.Descriptor) : Registry × Handle k :=
  g.register fun i => .new ((k.label d).getD (k.noun ++ "_" ++ toString i)) d none .undefined

/-- a resource owned outside the graph, at first in the given state -/
def importNative (g : Registry) (native : Nat) (d : k.Descriptor) (s : ResourceState) : Registry × Handle k :=
  g.register fun i => .new ((k.label d).getD ("imported_" ++ k.noun ++ "_" ++ toString i)) d (some ⟨native, none⟩) s

/-- the record of a handle -/
def find? (g : Registry) (h : Handle k) : Option (Resource k) := (g.get k)[h.index]?

/-- the key names a registered resource -/
def contains (g : Registry) (key : Key) : Bool := key.index < (g.get key.kind).length

/-- require the whole resource to be left in a state, if it is registered -/
def export? (g : Registry) (key : Key) (s : ResourceState) : Option Registry :=
  if g.contains key then
    some (g.set key.kind ((g.get key.kind).modify key.index fun r => { r with exported := some s }))
  else none

/-- the resource of a key is seen outside the graph -/
def visible (g : Registry) (key : Key) : Bool :=
  ((g.get key.kind)[key.index]?).any Resource.visible

/-- change every record -/
def mapRecords (g : Registry) (f : (k : ResourceKind) → Nat → Resource k → Resource k) : Registry :=
  .ofFun fun k => (g.get k).mapIdx (f k)

/-- every resource as it was before any pass -/
def rewind (g : Registry) : Registry := g.mapRecords fun _ _ r => r.rewind

/-- the size of a registered resource -/
def boundsOf (g : Registry) (k : ResourceKind) (index : Nat) : Except Fault k.Bounds :=
  match (g.get k)[index]? with
  | some r => .ok r.bounds
  | none => .error .outOfBounds

end Registry

end FrameGraph
