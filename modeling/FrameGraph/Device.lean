/-
Devices: what creates the native objects behind the graph's own resources.

A device answers requests one after another and may fail any of them. It is a state and a response to the next request
(`Device`), so every theorem about compiling is about every device. `CountingDevice` needs no hardware: it hands out
rising handles, counts what it created and fails on demand.
-/
import FrameGraph.Region.Kind

namespace FrameGraph

/-! ## Allocations and errors -/

/-- a native object, and the heap it shares if the allocator placed it in one -/
structure Allocation where
  native : Nat
  heap : Option Nat
deriving DecidableEq, Repr

/-- why a device could not create an object -/
inductive DeviceError where
  | creationFailed (text : String)
  | outOfMemory
  | deviceLost
  | internal (text : String)
deriving DecidableEq, Repr

namespace DeviceError

/-- the error as text -/
def message : DeviceError → String
  | creationFailed text => "resource creation failed: " ++ text
  | outOfMemory => "out of GPU memory"
  | deviceLost => "GPU device lost"
  | internal text => "internal backend error: " ++ text

end DeviceError

/-- the object behind one resource could not be created -/
structure AllocationError where
  kind : ResourceKind
  name : String
  cause : DeviceError
deriving DecidableEq, Repr

namespace AllocationError

/-- the error as text -/
def message (e : AllocationError) : String :=
  "failed to allocate " ++ e.kind.noun ++ " '" ++ e.name ++ "': " ++ e.cause.message

end AllocationError

/-- the digits of a native handle, in hexadecimal -/
def nativeText (native : Nat) : String :=
  "Native(0x" ++ String.ofList (Nat.toDigits 16 native) ++ ")"

/-! ## Devices -/

/-- what a graph asks a device for -/
structure Request where
  kind : ResourceKind
  descriptor : kind.Descriptor

/-- how a device in a state answers a request -/
structure Device (σ : Type) where
  respond : σ → Request → Except DeviceError Allocation × σ

/-- a device together with the requests it has been sent, oldest first -/
def Device.logged {σ : Type} (d : Device σ) : Device (σ × List Request) where
  respond := fun (s, log) r =>
    let (answer, s) := d.respond s r
    (answer, (s, log ++ [r]))

/-! ## The counting device -/

/-- the next handle, the objects created so far, the heap every object is placed in, and after how many more
successful requests which error is answered -/
structure CountingDevice where
  next : Nat := 0x1000
  textures : Nat := 0
  buffers : Nat := 0
  heap : Option Nat := none
  failing : Option (Nat × DeviceError) := none
deriving DecidableEq, Repr

namespace CountingDevice

/-- the device's name -/
def name : String := "Dummy Device"

/-- place every object in a heap from now on -/
def placeIn (d : CountingDevice) (heap : Nat) : CountingDevice := { d with heap := some heap }

/-- answer `after` more requests, then only the error -/
def failAfter (d : CountingDevice) (after : Nat) (e : DeviceError) : CountingDevice :=
  { d with failing := some (after, e) }

/-- create an object of a kind -/
def create (d : CountingDevice) (k : ResourceKind) : Except DeviceError Allocation × CountingDevice :=
  match d.failing with
  | some (0, e) => (.error e, d)
  | failing =>
    (.ok ⟨d.next, d.heap⟩,
      { d with
        next := d.next + 1
        textures := if k = .texture then d.textures + 1 else d.textures
        buffers := if k = .buffer then d.buffers + 1 else d.buffers
        failing := failing.map fun (left, e) => (left - 1, e) })

/-- the counting device as a device -/
def device : Device CountingDevice where
  respond d r := d.create r.kind

end CountingDevice

end FrameGraph
