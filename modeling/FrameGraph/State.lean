/-
The states a GPU resource can be in, the kinds of pass that may ask for them, and the two ways of touching a resource.

- `ResourceState`: fourteen states in one fixed order (`ResourceState.all`), which is also the order barriers are
  sorted by (`rank`).
- `PassKind.allows`: which states a pass of a kind may request. Graphics work may request every state, compute work
  every state that is not bound to the graphics pipeline, copies only the copy states and the two neutral ones.
- `Access`: reading, writing or both.
-/
namespace FrameGraph

/-! ## Resource states -/

/-- the pipeline state of a resource or of a part of it -/
inductive ResourceState where
  | undefined | common | vertexBuffer | indexBuffer | constantBuffer | indirectArgument | renderTarget
  | unorderedAccess | depthWrite | depthRead | shaderResource | copySource | copyDest | present
deriving DecidableEq, Repr, Inhabited

namespace ResourceState

/-- every state, in sort order -/
def all : List ResourceState :=
  [undefined, common, vertexBuffer, indexBuffer, constantBuffer, indirectArgument, renderTarget,
   unorderedAccess, depthWrite, depthRead, shaderResource, copySource, copyDest, present]

/-- the number of states sorted before this one -/
def rank : ResourceState → Nat
  | undefined => 0
  | common => 1
  | vertexBuffer => 2
  | indexBuffer => 3
  | constantBuffer => 4
  | indirectArgument => 5
  | renderTarget => 6
  | unorderedAccess => 7
  | depthWrite => 8
  | depthRead => 9
  | shaderResource => 10
  | copySource => 11
  | copyDest => 12
  | present => 13

/-- the name a state is printed with -/
def name : ResourceState → String
  | undefined => "Undefined"
  | common => "Common"
  | vertexBuffer => "VertexBuffer"
  | indexBuffer => "IndexBuffer"
  | constantBuffer => "ConstantBuffer"
  | indirectArgument => "IndirectArgument"
  | renderTarget => "RenderTarget"
  | unorderedAccess => "UnorderedAccess"
  | depthWrite => "DepthWrite"
  | depthRead => "DepthRead"
  | shaderResource => "ShaderResource"
  | copySource => "CopySource"
  | copyDest => "CopyDest"
  | present => "Present"

/-- the state with a given name -/
def ofName? (s : String) : Option ResourceState :=
  all.find? (·.name == s)

/-- only graphics work can use a resource in this state -/
def graphicsOnly : ResourceState → Bool
  | renderTarget | depthWrite | depthRead | vertexBuffer | indexBuffer | present => true
  | _ => false

/-- the states are listed by rank -/
theorem all_map_rank : all.map rank = List.range 14 := rfl

/-- states of equal rank are equal, so the rank can stand in for the state in a sort key -/
theorem rank_injective {a b : ResourceState} (h : a.rank = b.rank) : a = b := by
  revert h
  cases a <;> cases b <;> decide

end ResourceState

/-! ## Pass kinds -/

/-- the kind of queue work a pass performs -/
inductive PassKind where
  | graphics | compute | copy
deriving DecidableEq, Repr, Inhabited

namespace PassKind

/-- every kind -/
def all : List PassKind := [graphics, compute, copy]

/-- the lower-case name used in messages -/
def name : PassKind → String
  | graphics => "graphics"
  | compute => "compute"
  | copy => "copy"

/-- the capitalised name used for constructors -/
def title : PassKind → String
  | graphics => "Graphics"
  | compute => "Compute"
  | copy => "Copy"

/-- the kind with a given capitalised name -/
def ofTitle? (s : String) : Option PassKind :=
  all.find? (·.title == s)

/-- a pass of this kind may request the state -/
def allows : PassKind → ResourceState → Bool
  | graphics, _ => true
  | compute, s => !s.graphicsOnly
  | copy, .copySource | copy, .copyDest | copy, .common | copy, .undefined => true
  | copy, _ => false

end PassKind

/-! ## Access -/

/-- how a usage touches a resource -/
inductive Access where
  | read | write | readWrite
deriving DecidableEq, Repr, Inhabited

namespace Access

/-- every way of access -/
def all : List Access := [read, write, readWrite]

/-- the name an access is printed with -/
def name : Access → String
  | read => "Read"
  | write => "Write"
  | readWrite => "ReadWrite"

/-- the access with a given name -/
def ofName? (s : String) : Option Access :=
  all.find? (·.name == s)

/-- the access includes reading -/
def reads : Access → Bool
  | read | readWrite => true
  | write => false

/-- the access includes writing -/
def writes : Access → Bool
  | write | readWrite => true
  | read => false

end Access

end FrameGraph
