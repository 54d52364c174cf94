/-
Timeline fences: counters that one queue advances and another waits for.

A fence knows the highest value signalled so far and the highest value handed out so far. `next` hands out a value above
both; `signal` raises both and ignores lower values. Signals and next values are 64-bit words, so `next` faults once the
largest one has been handed out.

- `signal_completed_le`: a signal never lowers a fence.
- `next_fresh`: a value handed out is above every value handed out or signalled before.

`FencePool` holds fences that can be cloned: clones share a counter.
-/
import FrameGraph.Fault

namespace FrameGraph

/-- a counter: the highest value signalled, and the highest value handed out -/
structure Fence where
  completed : Nat
  issued : Nat
deriving DecidableEq, Repr

namespace Fence

/-- a fence nobody has used -/
def new : Fence := ⟨0, 0⟩

/-- hand out the next value -/
def next (f : Fence) : Except Fault (Nat × Fence) := do
  let value ← checkedAdd maxWord64 f.issued 1
  return (value, { f with issued := value })

/-- advance to a value, if the fence is below it -/
def signal (f : Fence) (value : Nat) : Fence :=
  { completed := max f.completed value, issued := max f.issued value }

/-- the fence is at the value or past it -/
def reached (f : Fence) (value : Nat) : Bool := value ≤ f.completed

theorem signal_completed_le (f : Fence) (value : Nat) : f.completed ≤ (f.signal value).completed :=
  Nat.le_max_left _ _

theorem next_fresh {f g : Fence} {value : Nat} (h : f.next = .ok (value, g)) :
    value = f.issued + 1 ∧ g = { f with issued := f.issued + 1 } := by
  unfold next checkedAdd at h
  split at h
  · cases h
    exact ⟨rfl, rfl⟩
  · cases h

end Fence

/-! ## Queues -/

/-- the two queues work is recorded on -/
inductive Queue where
  | graphics | compute
deriving DecidableEq, Repr

namespace Queue

/-- the other queue -/
def other : Queue → Queue
  | graphics => compute
  | compute => graphics

end Queue

/-- a value for each queue -/
structure PerQueue (α : Type) where
  graphics : α
  compute : α
deriving DecidableEq, Repr

namespace PerQueue

variable {α : Type}

/-- the same value for both queues -/
def both (a : α) : PerQueue α := ⟨a, a⟩

/-- the value of a queue -/
def get (p : PerQueue α) : Queue → α
  | .graphics => p.graphics
  | .compute => p.compute

/-- replace the value of a queue -/
def set (p : PerQueue α) : Queue → α → PerQueue α
  | .graphics, a => { p with graphics := a }
  | .compute, a => { p with compute := a }

theorem get_set_self (p : PerQueue α) (q : Queue) (a : α) : (p.set q a).get q = a := by
  cases q <;> rfl

theorem get_set_other (p : PerQueue α) (q : Queue) (a : α) : (p.set q a).get q.other = p.get q.other := by
  cases q <;> rfl

end PerQueue

/-! ## Pools of fences -/

/-- fences, and for each holder the fence it holds -/
structure FencePool where
  fences : List Fence
  holders : List Nat
deriving DecidableEq, Repr

namespace FencePool

/-- one new fence with one holder -/
def start : FencePool := ⟨[.new], [0]⟩

/-- a new fence with a holder of its own -/
def add (p : FencePool) : FencePool := ⟨p.fences ++ [.new], p.holders ++ [p.fences.length]⟩

/-- the fence a holder holds -/
def get? (p : FencePool) (holder : Nat) : Option Fence := p.holders[holder]?.bind (p.fences[·]?)

/-- replace the fence a holder holds, for every holder of it -/
def set (p : FencePool) (holder : Nat) (f : Fence) : FencePool :=
  match p.holders[holder]? with
  | some i => { p with fences := p.fences.set i f }
  | none => p

/-- one more holder of the same fence -/
def clone (p : FencePool) (holder : Nat) : FencePool :=
  match p.holders[holder]? with
  | some i => { p with holders := p.holders ++ [i] }
  | none => p

/-- two holders hold the same fence -/
def same (p : FencePool) (a b : Nat) : Bool := p.holders[a]? == p.holders[b]?

/-- the value of the fence of each holder -/
def values (p : FencePool) : List Nat := p.holders.map fun i => (p.fences[i]?.getD .new).completed

end FencePool

end FrameGraph
