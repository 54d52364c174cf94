/-
Handles to resources, and the usages a pass declares with them.

A handle is an index into the registry, perhaps with a part of the resource. It owns nothing and may name a resource
that was never registered; the handle with the largest 32-bit index (`invalid`) names none. A `Key` is a resource
without a part: two usages touch the same resource when their keys are equal.
-/
import FrameGraph.Barrier.Basic

namespace FrameGraph

variable {k : ResourceKind}

/-- a resource, or a part of one -/
structure Handle (k : ResourceKind) where
  index : Nat
  part : Option k.Part
deriving DecidableEq

/-- the text of a part in a handle's text -/
def ResourceKind.handlePartText : (k : ResourceKind) → k.Part → String
  | .texture, r =>
    "mips " ++ toString r.baseMip ++ "+" ++ toString r.mipCount ++ ", layers " ++ toString r.baseLayer ++ "+"
      ++ toString r.layerCount
  | .buffer, r => r.text

namespace Handle

/-- the handle that names no resource -/
def invalid : Handle k := ⟨maxWord32, none⟩

/-- the handle may name a resource -/
def isValid (h : Handle k) : Bool := h.index != maxWord32

/-- the same resource without a part -/
def whole (h : Handle k) : Handle k := { h with part := none }

/-- the same resource, one part of it -/
def restrict (h : Handle k) (p : k.Part) : Handle k := { h with part := some p }

/-- the handle as text -/
def text (h : Handle k) : String :=
  k.title ++ "(" ++ toString h.index ++ ((h.part.map fun p => ", " ++ k.handlePartText p).getD "") ++ ")"

end Handle

/-- a resource, without saying which part -/
structure Key where
  kind : ResourceKind
  index : Nat
deriving DecidableEq, Repr

/-- a handle of either kind -/
structure AnyHandle where
  kind : ResourceKind
  handle : Handle kind

namespace AnyHandle

/-- the resource the handle names -/
def key (h : AnyHandle) : Key := ⟨h.kind, h.handle.index⟩

/-- the handle as text -/
def text (h : AnyHandle) : String := h.handle.text

end AnyHandle

/-- one declared access of a resource of kind `k`; without a tag the resource's own tag is used -/
structure Use (k : ResourceKind) where
  handle : Handle k
  tag : Option k.Tag
  state : ResourceState
  access : Access
deriving DecidableEq

/-- one declared access of a resource of either kind -/
structure Usage where
  kind : ResourceKind
  use : Use kind

namespace Usage

/-- the resource the usage touches -/
def key (u : Usage) : Key := ⟨u.kind, u.use.handle.index⟩

/-- the requested state -/
def state (u : Usage) : ResourceState := u.use.state

/-- the usage reads the resource -/
def reads (u : Usage) : Bool := u.use.access.reads

/-- the usage writes the resource -/
def writes (u : Usage) : Bool := u.use.access.writes

/-- the access of a handle in a state -/
def ofHandle (h : AnyHandle) (state : ResourceState) (access : Access) : Usage :=
  ⟨h.kind, h.handle, none, state, access⟩

/-- the usage as one of kind `k`, if it is -/
def as? : (k : ResourceKind) → Usage → Option (Use k)
  | .texture, ⟨.texture, u⟩ => some u
  | .buffer, ⟨.buffer, u⟩ => some u
  | .texture, ⟨.buffer, _⟩ => none
  | .buffer, ⟨.texture, _⟩ => none

/-- the usages of kind `k`, in order -/
def ofKind (k : ResourceKind) (usages : List Usage) : List (Use k) := usages.filterMap (as? k)

end Usage

end FrameGraph
