/-
What can stop a computation short, and the arithmetic that can.

A `Fault` ends the whole call: nothing it computed is kept. It is not an error of the caller's environment, which is a
returned value (`AllocationError`). Two faults have a message of their own: a pass that requests a state its kind cannot
use, and a barrier that does not start from the state earlier passes left. The other two have none: an index past the
end of a table, and arithmetic that leaves the machine word it is done in.

Counts of mip levels and array layers are 32-bit words, byte offsets and fence values 64-bit words. They are held as
`Nat`; `checkedAdd` and `checkedSub` refuse a result outside the word, `saturatingAdd` stops at its largest value.
-/
import FrameGraph.State

namespace FrameGraph

/-- the largest 32-bit word -/
def maxWord32 : Nat := 4294967295

/-- the largest 64-bit word -/
def maxWord64 : Nat := 18446744073709551615

/-- what ends a computation without a result -/
inductive Fault where
  /-- an index past the end of a table -/
  | outOfBounds
  /-- a sum or difference outside its machine word -/
  | overflow
  /-- a pass requests a state its kind cannot use -/
  | stateNotAllowed (pass : String) (kind : PassKind) (state : ResourceState)
  /-- a barrier does not start from the state the passes before it left; `barrier` is its text -/
  | staleBarrier (pass barrier : String)
deriving DecidableEq, Repr

namespace Fault

/-- the message of a fault that has one -/
def message? : Fault → Option String
  | outOfBounds => none
  | overflow => none
  | stateNotAllowed pass kind state => some <|
      "pass '" ++ pass ++ "' (" ++ kind.name ++ " pass) requests state " ++ state.name ++ " which a " ++ kind.name
        ++ " pass cannot use"
  | staleBarrier pass barrier => some <|
      "pass '" ++ pass ++ "': barrier " ++ barrier
        ++ " does not start from the state earlier passes left the resource in"

end Fault

/-- a computation succeeds when its first step does and what follows that step does -/
theorem bind_eq_ok {α β : Type} {x : Except Fault α} {f : α → Except Fault β} {b : β} :
    x >>= f = .ok b ↔ ∃ a, x = .ok a ∧ f a = .ok b := by
  cases x with
  | error e => exact ⟨fun h => (by cases h), fun ⟨_, h, _⟩ => (by cases h)⟩
  | ok a => exact ⟨fun h => ⟨a, rfl, h⟩, fun ⟨_, h, h'⟩ => by cases h; exact h'⟩

/-! ## Words -/

/-- the sum, stopped at `max` -/
def saturatingAdd (max a b : Nat) : Nat := min (a + b) max

/-- the sum, if it is at most `max` -/
def checkedAdd (max a b : Nat) : Except Fault Nat :=
  if a + b ≤ max then .ok (a + b) else .error .overflow

/-- the difference, if it is not negative -/
def checkedSub (a b : Nat) : Except Fault Nat :=
  if b ≤ a then .ok (a - b) else .error .overflow

theorem saturatingAdd_eq {max a b : Nat} (h : a + b ≤ max) : saturatingAdd max a b = a + b :=
  Nat.min_eq_left h

theorem checkedAdd_eq_ok {max a b : Nat} (h : a + b ≤ max) : checkedAdd max a b = .ok (a + b) :=
  if_pos h

theorem checkedSub_eq_ok {a b : Nat} (h : b ≤ a) : checkedSub a b = .ok (a - b) :=
  if_pos h

end FrameGraph
