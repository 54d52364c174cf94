/-
Rectangles of mip levels and array layers of a texture.

A rectangle is given by a first level and layer and a count of each; the count `remaining` reaches to the end of any
texture. `clamp` is the intersection with a texture, and `none` when that is empty. Ends stop at the largest 32-bit
word, so the end of a rectangle that has not been clamped need not be its base plus its count; `contains` is exact.

- `clamp_eq_some_iff`: a clamped rectangle lies in the texture, is not empty and starts where the given one does.
- `key`: rectangles are ordered by first layer, layer count, first level, level count.
-/
import FrameGraph.Fault

namespace FrameGraph

/-- `layerCount` array layers from `baseLayer`, and of each `mipCount` levels from `baseMip` -/
structure Subresources where
  baseLayer : Nat
  layerCount : Nat
  baseMip : Nat
  mipCount : Nat
deriving DecidableEq, Repr

/-- how many mip levels and array layers a texture has -/
structure Extent where
  mips : Nat
  layers : Nat
deriving DecidableEq, Repr

namespace Extent

/-- an extent of at least one level and one layer -/
def atLeastOne (mips layers : Nat) : Extent := ⟨max mips 1, max layers 1⟩

/-- the number of (level, layer) cells -/
def cells (e : Extent) : Nat := e.mips * e.layers

/-- the number of a cell: levels run fastest -/
def cellIndex (e : Extent) (mip layer : Nat) : Nat := mip + layer * e.mips

end Extent

namespace Subresources

/-- the count that means "up to the last" -/
def remaining : Nat := maxWord32

/-- levels first, as ranges are written down -/
def ofMips (baseMip mipCount baseLayer layerCount : Nat) : Subresources :=
  { baseLayer, layerCount, baseMip, mipCount }

/-- one mip level of every layer -/
def mip (level : Nat) : Subresources := ofMips level 1 0 remaining

/-- every mip level of one layer -/
def layer (layer : Nat) : Subresources := ofMips 0 remaining layer 1

/-- one level of one layer -/
def cell (mip layer : Nat) : Subresources := ofMips mip 1 layer 1

/-- every level and layer of a texture -/
def everything (e : Extent) : Subresources := ofMips 0 e.mips 0 e.layers

/-- one past the last level, at most the largest word -/
def mipEnd (r : Subresources) : Nat := saturatingAdd maxWord32 r.baseMip r.mipCount

/-- one past the last layer, at most the largest word -/
def layerEnd (r : Subresources) : Nat := saturatingAdd maxWord32 r.baseLayer r.layerCount

/-- the rectangle holds the cell -/
def contains (r : Subresources) (mip layer : Nat) : Bool :=
  r.baseMip ≤ mip && mip < r.baseMip + r.mipCount && r.baseLayer ≤ layer && layer < r.baseLayer + r.layerCount

/-- the part of the rectangle inside a texture, if there is any -/
def clamp (r : Subresources) (e : Extent) : Option Subresources :=
  if r.baseMip ≥ e.mips ∨ r.baseLayer ≥ e.layers ∨ r.mipCount = 0 ∨ r.layerCount = 0 then none
  else some (ofMips r.baseMip (min r.mipCount (e.mips - r.baseMip)) r.baseLayer
    (min r.layerCount (e.layers - r.baseLayer)))

/-- the rectangle starts at the first cell and is as large as the texture -/
def covers (r : Subresources) (e : Extent) : Bool :=
  r.baseMip == 0 && r.baseLayer == 0 && e.mips ≤ r.mipCount && e.layers ≤ r.layerCount

/-- the sort key of the natural order -/
def key (r : Subresources) : List Nat := [r.baseLayer, r.layerCount, r.baseMip, r.mipCount]

theorem key_injective {a b : Subresources} (h : a.key = b.key) : a = b := by
  cases a
  cases b
  simpa [key] using h

theorem clamp_eq_some_iff {r c : Subresources} {e : Extent} :
    r.clamp e = some c ↔
      (r.baseMip < e.mips ∧ r.baseLayer < e.layers ∧ 0 < r.mipCount ∧ 0 < r.layerCount) ∧
        c = ofMips r.baseMip (min r.mipCount (e.mips - r.baseMip)) r.baseLayer
          (min r.layerCount (e.layers - r.baseLayer)) := by
  unfold clamp
  split
  · constructor
    · simp
    · rintro ⟨⟨h1, h2, h3, h4⟩, -⟩
      omega
  · constructor
    · intro h
      exact ⟨by omega, (Option.some.inj h).symm⟩
    · rintro ⟨-, rfl⟩
      rfl

/-! ## Growing -/

/-- `b` continues the levels of `a` on the same layers -/
def meetsMips (a b : Subresources) : Bool :=
  a.baseLayer == b.baseLayer && a.layerCount == b.layerCount && a.mipEnd == b.baseMip

/-- `b` continues the layers of `a` on the same levels -/
def meetsLayers (a b : Subresources) : Bool :=
  a.baseMip == b.baseMip && a.mipCount == b.mipCount && a.layerEnd == b.baseLayer

/-- `a` with the levels of `b` added -/
def growMips (a b : Subresources) : Except Fault Subresources :=
  (checkedAdd maxWord32 a.mipCount b.mipCount).map fun n => { a with mipCount := n }

/-- `a` with the layers of `b` added -/
def growLayers (a b : Subresources) : Except Fault Subresources :=
  (checkedAdd maxWord32 a.layerCount b.layerCount).map fun n => { a with layerCount := n }

end Subresources

end FrameGraph
