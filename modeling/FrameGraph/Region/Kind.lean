/-
The two kinds of resource, and what differs between them.

A texture is addressed by rectangles of mip levels and layers and keeps one value for each cell; a buffer is addressed
by byte spans and keeps runs of equal values. Everything that is built on top (trackers, demands, barriers, records) is
written once for a kind `k`, in terms of the families and operations of this file:

- `k.Part`: a part of a resource; `k.Bounds`: how large a resource is; `k.Store α`: a value for each address.
- `clamp`, `everything`, `covers`: parts against bounds.
- `fill`, `write`, `check`, `slice`, `pieces`, `filled`, `uniform?`: stores.

Both kinds have linear addresses: the number of a cell, the offset of a byte. `size` counts them, `holds` says which of
them a part has, and `values` reads a store as the list of its values by address. These three give the operations one
meaning for both kinds.
-/
import FrameGraph.Descriptor
import FrameGraph.Region.Grid
import FrameGraph.Region.ByteMap

namespace FrameGraph

/-- textures and buffers -/
inductive ResourceKind where
  | texture | buffer
deriving DecidableEq, Repr

namespace ResourceKind

variable {α : Type}

/-! ## Families -/

/-- a part of a resource -/
abbrev Part : ResourceKind → Type
  | texture => Subresources
  | buffer => ByteSpan

/-- how large a resource is -/
abbrev Bounds : ResourceKind → Type
  | texture => Extent
  | buffer => Nat

/-- a value for each address of a resource -/
abbrev Store : ResourceKind → Type → Type
  | texture, α => List α
  | buffer, α => ByteMap α

/-- what a usage says beyond the state: textures have aspects -/
abbrev Tag : ResourceKind → Type
  | texture => Aspect
  | buffer => Unit

/-- what a resource looks like -/
abbrev Descriptor : ResourceKind → Type
  | texture => TextureDescriptor
  | buffer => BufferDescriptor

instance : (k : ResourceKind) → DecidableEq k.Part
  | texture => inferInstanceAs (DecidableEq Subresources)
  | buffer => inferInstanceAs (DecidableEq ByteSpan)

instance : (k : ResourceKind) → DecidableEq k.Bounds
  | texture => inferInstanceAs (DecidableEq Extent)
  | buffer => inferInstanceAs (DecidableEq Nat)

instance [DecidableEq α] : (k : ResourceKind) → DecidableEq (k.Store α)
  | texture => inferInstanceAs (DecidableEq (List α))
  | buffer => inferInstanceAs (DecidableEq (ByteMap α))

instance : (k : ResourceKind) → DecidableEq k.Tag
  | texture => inferInstanceAs (DecidableEq Aspect)
  | buffer => inferInstanceAs (DecidableEq Unit)

instance : (k : ResourceKind) → DecidableEq k.Descriptor
  | texture => inferInstanceAs (DecidableEq TextureDescriptor)
  | buffer => inferInstanceAs (DecidableEq BufferDescriptor)

/-- the lower-case name used in messages and default names -/
def noun : ResourceKind → String
  | texture => "texture"
  | buffer => "buffer"

/-- the capitalised name used in handle and barrier texts -/
def title : ResourceKind → String
  | texture => "Texture"
  | buffer => "Buffer"

/-! ## Descriptors -/

/-- the label of a descriptor -/
def label : (k : ResourceKind) → k.Descriptor → Option String
  | texture, d => d.label
  | buffer, d => d.label

/-- the size a descriptor asks for -/
def bounds : (k : ResourceKind) → k.Descriptor → k.Bounds
  | texture, d => ⟨d.mipLevels, d.arrayLayers⟩
  | buffer, d => d.size.toNat

/-- the tag that stands for all of a resource -/
def tag : (k : ResourceKind) → k.Descriptor → k.Tag
  | texture, d => d.format.aspect
  | buffer, _ => ()

/-- the sort key of a tag -/
def tagKey : (k : ResourceKind) → k.Tag → List Nat
  | texture, a => [a.rank]
  | buffer, _ => []

/-! ## Parts -/

/-- the part inside the bounds, if there is any -/
def clamp : (k : ResourceKind) → k.Bounds → k.Part → Option k.Part
  | texture, e, r => r.clamp e
  | buffer, n, r => r.clamp n

/-- the part that is all of a resource; a resource without addresses has none -/
def everything : (k : ResourceKind) → k.Bounds → Option k.Part
  | texture, e => some (.everything e)
  | buffer, n => if n = 0 then none else some ⟨0, n⟩

/-- a part, all of the resource if none is given, cut to the bounds -/
def region (k : ResourceKind) (b : k.Bounds) : Option k.Part → Option k.Part
  | none => k.everything b
  | some p => k.clamp b p

/-- a part inside the bounds is all of the resource -/
def covers : (k : ResourceKind) → k.Bounds → k.Part → Bool
  | texture, e, r => r.covers e
  | buffer, n, r => r.covers n

/-- the sort key of a part's place -/
def placeKey : (k : ResourceKind) → k.Part → List Nat
  | texture, r => [r.baseLayer, r.baseMip]
  | buffer, r => [r.offset]

/-! ## Stores -/

/-- every address holds `a` -/
def fill : (k : ResourceKind) → k.Bounds → α → k.Store α
  | texture, e, a => Grid.fill e a
  | buffer, n, a => ByteMap.fill n a

/-- set the addresses of a part that lies inside the bounds -/
def write [DecidableEq α] : (k : ResourceKind) → k.Bounds → k.Part → α → k.Store α → k.Store α
  | texture, e, r, a, s => Grid.write e r a s
  | buffer, _, r, a, s => ByteMap.write r a s

/-- what can go wrong in writing a part -/
def check [DecidableEq α] : (k : ResourceKind) → k.Bounds → k.Part → α → k.Store α → Except Fault Unit
  | texture, e, r, _, s => Grid.check e r s
  | buffer, _, r, a, s => ByteMap.check r a s

/-- the pieces of a store: its cells, or its runs -/
def pieces : (k : ResourceKind) → k.Bounds → k.Store α → List (k.Part × α)
  | texture, e, s => Grid.pieces e s
  | buffer, _, s => ByteMap.pieces s

/-- the pieces of a part that lies inside the bounds -/
def slice : (k : ResourceKind) → k.Bounds → k.Part → k.Store α → List (k.Part × α)
  | texture, e, r, s => Grid.slice e r s
  | buffer, _, r, s => ByteMap.slice r s

/-- the pieces that hold something -/
def filled : (k : ResourceKind) → k.Bounds → k.Store (Option α) → List (k.Part × α)
  | texture, e, s => Grid.filled e s
  | buffer, _, s => (ByteMap.pieces s).filterMap fun (r, a) => a.map (r, ·)

/-- the value of every address, if there are addresses and they agree -/
def uniform? [DecidableEq α] : (k : ResourceKind) → k.Store α → Option α
  | texture, s => Grid.uniform? s
  | buffer, s => ByteMap.uniform? s

/-! ## Addresses -/

/-- the number of addresses -/
def size : (k : ResourceKind) → k.Bounds → Nat
  | texture, e => e.cells
  | buffer, n => n

/-- the part has address `i` -/
def holds : (k : ResourceKind) → k.Bounds → k.Part → Nat → Bool
  | texture, e, r, i => e.holds r i
  | buffer, _, r, i => r.contains i

/-- the value of each address -/
def values : (k : ResourceKind) → k.Store α → List α
  | texture, s => s
  | buffer, s => ByteMap.values s

theorem values_fill (k : ResourceKind) (b : k.Bounds) (a : α) :
    k.values (k.fill b a) = List.replicate (k.size b) a := by
  cases k with
  | texture => rfl
  | buffer => exact ByteMap.values_fill b a

end ResourceKind

/-! ## One of each -/

/-- a value for textures and one for buffers -/
structure Both (F : ResourceKind → Type) where
  textures : F .texture
  buffers : F .buffer

namespace Both

variable {F : ResourceKind → Type}

/-- the value for a kind -/
def get (b : Both F) : (k : ResourceKind) → F k
  | .texture => b.textures
  | .buffer => b.buffers

/-- replace the value for a kind -/
def set (b : Both F) : (k : ResourceKind) → F k → Both F
  | .texture, a => { b with textures := a }
  | .buffer, a => { b with buffers := a }

/-- the same value given by kind -/
def ofFun (f : (k : ResourceKind) → F k) : Both F := ⟨f .texture, f .buffer⟩

theorem get_ofFun (f : (k : ResourceKind) → F k) (k : ResourceKind) : (ofFun f).get k = f k := by
  cases k <;> rfl

theorem ext_get {a b : Both F} (h : ∀ k, a.get k = b.get k) : a = b := by
  cases a
  cases b
  exact congr (congrArg Both.mk (h .texture)) (h .buffer)

end Both

end FrameGraph
