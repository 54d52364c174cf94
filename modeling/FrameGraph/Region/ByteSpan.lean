/-
Half-open ranges of bytes of a buffer.

A span is an offset and a size. `clamp` is the intersection with a buffer of a given length, and `none` when that is
empty. The end of a span (`stop`) is at most the largest 64-bit word; inside a buffer it is offset plus size.
-/
import FrameGraph.Fault

namespace FrameGraph

/-- the bytes `[offset, offset + size)` -/
structure ByteSpan where
  offset : Nat
  size : Nat
deriving DecidableEq, Repr

namespace ByteSpan

/-- one past the last byte, at most the largest word -/
def stop (r : ByteSpan) : Nat := saturatingAdd maxWord64 r.offset r.size

/-- the span holds the byte -/
def contains (r : ByteSpan) (i : Nat) : Bool := r.offset ≤ i && i < r.offset + r.size

/-- the part of the span inside a buffer of `len` bytes, if there is any -/
def clamp (r : ByteSpan) (len : Nat) : Option ByteSpan :=
  if r.offset ≥ len ∨ r.size = 0 then none else some ⟨r.offset, min r.size (len - r.offset)⟩

/-- the span starts at the first byte and is at least as long as the buffer -/
def covers (r : ByteSpan) (len : Nat) : Bool := r.offset == 0 && len ≤ r.size

/-- the sort key of the natural order -/
def key (r : ByteSpan) : List Nat := [r.offset, r.size]

/-- the span as text, offset and end -/
def text (r : ByteSpan) : String := "[" ++ toString r.offset ++ ", " ++ toString r.stop ++ ")"

theorem key_injective {a b : ByteSpan} (h : a.key = b.key) : a = b := by
  cases a
  cases b
  simpa [key] using h

theorem clamp_eq_some_iff {r c : ByteSpan} {len : Nat} :
    r.clamp len = some c ↔ (r.offset < len ∧ 0 < r.size) ∧ c = ⟨r.offset, min r.size (len - r.offset)⟩ := by
  unfold clamp
  split
  · constructor
    · simp
    · rintro ⟨⟨h1, h2⟩, -⟩
      omega
  · constructor
    · intro h
      exact ⟨by omega, (Option.some.inj h).symm⟩
    · rintro ⟨-, rfl⟩
      rfl

/-- `b` starts where `a` ends -/
def meets (a b : ByteSpan) : Bool := a.stop == b.offset

/-- `a` with the bytes of `b` added -/
def grow (a b : ByteSpan) : Except Fault ByteSpan :=
  (checkedAdd maxWord64 a.size b.size).map fun n => { a with size := n }

end ByteSpan

end FrameGraph
