/-
What a texture or a buffer looks like: formats, usage flags and descriptors.

The graph reads only three things off a descriptor: its label, the extent of the resource (mip levels and array layers,
or bytes) and, for textures, which aspects the format has. The rest is handed to the device.

- `TextureFormat.hasDepth`, `hasStencil`: the aspects of a format.
- `Flags`: a set of named flags, one bit each. A word of the width of the name table holds no other bit, so bits without
  a name are dropped when a set is read.
- `TextureDescriptor`, `BufferDescriptor`: sizes and counts are machine words. A count of zero mip levels or layers is
  kept as given and counts as one (`mipLevels`, `arrayLayers`).
-/
namespace FrameGraph

/-! ## Formats and aspects -/

/-- the format of a texel -/
inductive TextureFormat where
  | r8Unorm | r32Float | r32Uint | rg16Float | rgba8Unorm | rgba8UnormSrgb | bgra8Unorm | rgba16Float | rgba32Float
  | depth16Unorm | depth24PlusStencil8 | depth32Float | depth32FloatStencil8
deriving DecidableEq, Repr

namespace TextureFormat

/-- every format -/
def all : List TextureFormat :=
  [r8Unorm, r32Float, r32Uint, rg16Float, rgba8Unorm, rgba8UnormSrgb, bgra8Unorm, rgba16Float, rgba32Float,
   depth16Unorm, depth24PlusStencil8, depth32Float, depth32FloatStencil8]

/-- the name a format is printed with -/
def name : TextureFormat → String
  | r8Unorm => "R8Unorm"
  | r32Float => "R32Float"
  | r32Uint => "R32Uint"
  | rg16Float => "Rg16Float"
  | rgba8Unorm => "Rgba8Unorm"
  | rgba8UnormSrgb => "Rgba8UnormSrgb"
  | bgra8Unorm => "Bgra8Unorm"
  | rgba16Float => "Rgba16Float"
  | rgba32Float => "Rgba32Float"
  | depth16Unorm => "Depth16Unorm"
  | depth24PlusStencil8 => "Depth24PlusStencil8"
  | depth32Float => "Depth32Float"
  | depth32FloatStencil8 => "Depth32FloatStencil8"

/-- the format with a given name -/
def ofName? (s : String) : Option TextureFormat :=
  all.find? (·.name == s)

/-- the format has a depth or stencil aspect -/
def hasDepth : TextureFormat → Bool
  | depth16Unorm | depth24PlusStencil8 | depth32Float | depth32FloatStencil8 => true
  | _ => false

/-- the format has a stencil aspect -/
def hasStencil : TextureFormat → Bool
  | depth24PlusStencil8 | depth32FloatStencil8 => true
  | _ => false

end TextureFormat

/-- the aspect of a texture a usage or a barrier refers to, in sort order -/
inductive Aspect where
  | color | depth | stencil | depthStencil
deriving DecidableEq, Repr, Inhabited

namespace Aspect

/-- every aspect, in sort order -/
def all : List Aspect := [color, depth, stencil, depthStencil]

/-- the number of aspects sorted before this one -/
def rank : Aspect → Nat
  | color => 0
  | depth => 1
  | stencil => 2
  | depthStencil => 3

/-- the name an aspect is printed with -/
def name : Aspect → String
  | color => "Color"
  | depth => "Depth"
  | stencil => "Stencil"
  | depthStencil => "DepthStencil"

/-- the aspect with a given name -/
def ofName? (s : String) : Option Aspect :=
  all.find? (·.name == s)

end Aspect

/-- the aspect that stands for all of a format -/
def TextureFormat.aspect (f : TextureFormat) : Aspect :=
  if f.hasStencil then .depthStencil else if f.hasDepth then .depth else .color

/-! ## Usage flags -/

/-- a set of flags, one bit for each of `names` -/
abbrev Flags (names : List String) := BitVec names.length

namespace Flags

variable {names : List String}

/-- the flags of a word; bits past the last name are dropped -/
def ofBits (names : List String) (bits : Nat) : Flags names := BitVec.ofNat names.length bits

/-- the set flags with their names, in bit order -/
def toNames (a : Flags names) : List String :=
  (names.zipIdx.filter fun (_, i) => a.getLsbD i).map Prod.fst

/-- the set of the named flags, if all the names are known -/
def ofNames? (names : List String) (chosen : List String) : Option (Flags names) :=
  chosen.foldlM (fun a n => (names.idxOf? n).map fun i => a ||| BitVec.twoPow names.length i) 0#_

/-- `a` holds every flag of `b` -/
def includes (a b : Flags names) : Bool := a &&& b == b

/-- `a` and `b` share a flag -/
def meets (a b : Flags names) : Bool := a &&& b != 0#_

/-- the flags of `a` that are not in `b` -/
def without (a b : Flags names) : Flags names := a &&& ~~~b

/-- no flag is set -/
def isNone (a : Flags names) : Bool := a == 0#_

/-- every flag is set -/
def isAll (a : Flags names) : Bool := a == BitVec.allOnes _

end Flags

/-- what a texture may be used for, from bit 0 -/
def textureFlagNames : List String :=
  ["COPY_SRC", "COPY_DST", "TEXTURE_BINDING", "STORAGE_BINDING", "RENDER_ATTACHMENT"]

/-- what a buffer may be used for, from bit 0 -/
def bufferFlagNames : List String :=
  ["VERTEX", "INDEX", "CONSTANT", "STORAGE", "INDIRECT", "COPY_SRC", "COPY_DST"]

abbrev TextureFlags := Flags textureFlagNames
abbrev BufferFlags := Flags bufferFlagNames

/-! ## Descriptors -/

/-- width, height and depth in texels -/
structure Size where
  width : UInt32
  height : UInt32
  depth : UInt32
deriving DecidableEq, Repr

/-- what a texture looks like -/
structure TextureDescriptor where
  label : Option String
  size : Size
  mipCount : UInt32
  layerCount : UInt32
  sampleCount : UInt32
  format : TextureFormat
  usage : TextureFlags
deriving DecidableEq, Repr

namespace TextureDescriptor

/-- the descriptor of a texture nothing was said about: no texels, one mip level, one layer -/
def blank : TextureDescriptor :=
  { label := none, size := ⟨0, 0, 0⟩, mipCount := 1, layerCount := 1, sampleCount := 1, format := .rgba8Unorm,
    usage := 0#_ }

/-- mip levels, never less than one -/
def mipLevels (d : TextureDescriptor) : Nat := max d.mipCount.toNat 1

/-- array layers, never less than one -/
def arrayLayers (d : TextureDescriptor) : Nat := max d.layerCount.toNat 1

/-- the number of (mip level, layer) cells -/
def cellCount (d : TextureDescriptor) : Nat := d.mipLevels * d.arrayLayers

end TextureDescriptor

/-- what a buffer looks like; a stride of zero means a raw buffer -/
structure BufferDescriptor where
  label : Option String
  size : UInt64
  usage : BufferFlags
  stride : UInt32
deriving DecidableEq, Repr

end FrameGraph
