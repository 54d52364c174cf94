/-
The graph as Graphviz text.

Passes are boxes coloured by kind, dashed when culled. Textures are ellipses and buffers cylinders; imported resources
have a double border and resources in a shared heap a red one. Arrows run from writers to resources and from resources
to readers, each once for a pass. A legend explains the colours.

Names stand between quotes. `escape` puts a backslash before every quote and backslash of a name, so a name cannot end
its label early, and a line break the text adds itself (a backslash and an n) cannot be taken for part of a name.
-/
import FrameGraph.Graph

namespace FrameGraph

namespace Dot

/-- a character of a name, inside quotes -/
def escapeChar (c : Char) : List Char :=
  if c = '\\' ∨ c = '"' then ['\\', c] else [c]

/-- a name, inside quotes -/
def escape (name : String) : String := String.ofList (name.toList.flatMap escapeChar)

/-! ## Nodes -/

/-- the fill of a pass box -/
def passColor : PassKind → String
  | .graphics => "lightblue"
  | .compute => "palegreen"
  | .copy => "khaki"

/-- the node name of pass `i` -/
def passNode (i : Nat) : String := "p" ++ toString i

/-- the node name of a resource -/
def resourceNode (key : Key) : String :=
  match key.kind with
  | .texture => "t" ++ toString key.index
  | .buffer => "b" ++ toString key.index

/-- the line of a pass -/
def passLine (i : Nat) (p : Pass) : String :=
  "  " ++ passNode i ++ " [label=\"" ++ escape p.name ++ "\\n(" ++ p.kind.name ++ ")\", shape=box, style=\""
    ++ (if p.plan.culled then "filled,dashed" else "filled") ++ "\", fillcolor=" ++ passColor p.kind ++ "];\n"

/-- the shape and fill of a resource -/
def look : ResourceKind → String
  | .texture => "shape=ellipse, style=filled, fillcolor=lightsalmon"
  | .buffer => "shape=cylinder, style=filled, fillcolor=plum"

/-- what the label of a resource says about its size -/
def sizeLabel : (k : ResourceKind) → Resource k → String
  | .texture, _ => ""
  | .buffer, r => "\\n" ++ toString r.bounds ++ " bytes"

/-- the line of a resource -/
def resourceLine (k : ResourceKind) (i : Nat) (r : Resource k) : String :=
  "  " ++ resourceNode ⟨k, i⟩ ++ " [label=\"" ++ escape r.name ++ sizeLabel k r
    ++ (if r.imported then "\\n(imported)" else "")
    ++ (r.heap.map fun heap => "\\nheap " ++ toString heap).getD ""
    ++ (r.exported.map fun state => "\\nexport " ++ state.name).getD ""
    ++ "\", " ++ look k
    ++ (if r.imported then ", peripheries=2" else "")
    ++ (if r.heap.isSome then ", color=red" else "")
    ++ "];\n"

/-! ## Arrows -/

/-- pass `pass` writes the resource, or else reads it -/
structure Arrow where
  pass : Nat
  writes : Bool
  key : Key
deriving DecidableEq, Repr

/-- the line of an arrow -/
def Arrow.line (a : Arrow) : String :=
  if a.writes then "  " ++ passNode a.pass ++ " -> " ++ resourceNode a.key ++ ";\n"
  else "  " ++ resourceNode a.key ++ " -> " ++ passNode a.pass ++ ";\n"

/-- the arrows of one usage -/
def usageArrows (pass : Nat) (u : Usage) : List Arrow :=
  (if u.writes then [⟨pass, true, u.key⟩] else []) ++ (if u.reads then [⟨pass, false, u.key⟩] else [])

/-- the arrows of pass `i`, each once -/
def passArrows (i : Nat) (p : Pass) : List Arrow := (p.usages.flatMap (usageArrows i)).eraseDups

/-! ## The text -/

/-- the lines before the nodes -/
def header : String := "digraph render_graph \x7b\n  rankdir=LR;\n  node [fontname=\"Helvetica\"];\n\n"

/-- the box of a pass kind in the legend -/
def legendLine (kind : PassKind) : String :=
  "    legend_" ++ kind.name ++ " [label=\"" ++ kind.name ++ " pass\", shape=box, style=filled, fillcolor="
    ++ passColor kind ++ "];\n"

/-- the legend and the end of the graph -/
def legend : String :=
  "\n  subgraph cluster_legend \x7b\n    label=\"Legend\";\n"
    ++ String.join (PassKind.all.map legendLine)
    ++ "    legend_culled [label=\"culled pass\", shape=box, style=\"filled,dashed\"];\n"
    ++ "    legend_texture [label=\"texture\", " ++ look .texture ++ "];\n"
    ++ "    legend_buffer [label=\"buffer\", " ++ look .buffer ++ "];\n"
    ++ "    legend_imported [label=\"imported\", peripheries=2];\n"
    ++ "    legend_aliased [label=\"aliased heap\", color=red];\n"
    ++ "  \x7d\n\x7d\n"

end Dot

/-- the graph in Graphviz syntax -/
def Graph.toDot (g : Graph) : String :=
  Dot.header
    ++ String.join (g.passes.mapIdx Dot.passLine) ++ "\n"
    ++ String.join (g.registry.textures.mapIdx (Dot.resourceLine .texture))
    ++ String.join (g.registry.buffers.mapIdx (Dot.resourceLine .buffer)) ++ "\n"
    ++ String.join ((g.passes.mapIdx Dot.passArrows).flatten.map Dot.Arrow.line)
    ++ Dot.legend

end FrameGraph
