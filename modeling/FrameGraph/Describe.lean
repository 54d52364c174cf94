/-
A pass described in one line, for debugging.

A record is its name and its fields in braces, a list its items in brackets; a missing value is `None`, a present one
`Some(..)`. The description of a pass leaves out its callback and says so with two dots. In the name of a pass quotes,
backslashes and the usual controls are escaped by a letter, and characters without a glyph of their own by their code.
-/
import FrameGraph.Pass
import FrameGraph.Text.Glyph

namespace FrameGraph

namespace Describe

/-- a record with its fields -/
def record (name : String) (fields : List (String × String)) : String :=
  name ++ " \x7b " ++ ", ".intercalate (fields.map fun (field, value) => field ++ ": " ++ value) ++ " \x7d"

/-- a value that may be missing -/
def option (value : Option String) : String :=
  match value with
  | none => "None"
  | some value => "Some(" ++ value ++ ")"

/-- a list of values -/
def list (values : List String) : String := "[" ++ ", ".intercalate values ++ "]"

/-- a character of quoted text -/
def quotedChar (c : Char) : List Char :=
  if c = '"' ∨ c = '\\' then ['\\', c]
  else if c = '\n' then ['\\', 'n']
  else if c = '\t' then ['\\', 't']
  else if c = '\r' then ['\\', 'r']
  else if c = '\x00' then ['\\', '0']
  else if Glyph.standsAlone c then [c]
  else ['\\', 'u', '\x7b'] ++ Nat.toDigits 16 c.toNat ++ ['\x7d']

/-- text in quotes -/
def quoted (s : String) : String := "\"" ++ String.ofList (s.toList.flatMap quotedChar) ++ "\""

/-- a part of a resource -/
def part : (k : ResourceKind) → k.Part → String
  | .texture, r => record "SubresourceRange"
      [("base_layer", toString r.baseLayer), ("layer_count", toString r.layerCount), ("base_mip", toString r.baseMip),
       ("mip_count", toString r.mipCount)]
  | .buffer, r => record "ByteRange" [("offset", toString r.offset), ("size", toString r.size)]

/-- the aspect field of a usage; buffers have none -/
def useTag : (k : ResourceKind) → Option k.Tag → List (String × String)
  | .texture, tag => [("aspect", option (tag.map Aspect.name))]
  | .buffer, _ => []

/-- the aspect field of a barrier; buffers have none -/
def barrierTag : (k : ResourceKind) → k.Tag → List (String × String)
  | .texture, tag => [("aspect", tag.name)]
  | .buffer, _ => []

/-- one usage -/
def usage (u : Usage) : String :=
  record "ResourceUsage"
    [("target", record u.kind.title
        ([("index", toString u.use.handle.index), ("range", option (u.use.handle.part.map (part u.kind)))]
          ++ useTag u.kind u.use.tag)),
     ("state", u.state.name), ("access", u.use.access.name)]

/-- one barrier -/
def barrier {k : ResourceKind} (b : Barrier k) : String :=
  record (k.title ++ "Barrier")
    ([(k.noun, (⟨b.resource, none⟩ : Handle k).text), ("native", nativeText b.native), ("before", b.before.name),
      ("after", b.after.name)] ++ barrierTag k b.tag ++ [("range", option (b.part.map (part k)))])

end Describe

/-- the pass in one line -/
def Pass.describe (p : Pass) : String :=
  "Pass \x7b name: " ++ Describe.quoted p.name ++ ", kind: " ++ p.kind.title
    ++ ", usages: " ++ Describe.list (p.usages.map Describe.usage)
    ++ ", culled: " ++ toString p.plan.culled
    ++ ", texture_barriers: " ++ Describe.list (p.plan.barriers.textures.map Describe.barrier)
    ++ ", buffer_barriers: " ++ Describe.list (p.plan.barriers.buffers.map Describe.barrier)
    ++ ", .. \x7d"

end FrameGraph
