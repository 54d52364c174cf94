/-
A map from the bytes of a buffer to values, kept as runs of equal values.

A map is the list of its runs from byte 0 on, so it has no gaps and no overlaps by its shape. Its meaning is
`values`, one value for each byte. Every operation is stated by what it does to `values`:

- `values_keep`, `values_skip`: cutting a map at a byte is `take` and `drop`.
- `values_fuse`: joining neighbours with equal values changes nothing.
- `values_write`: writing a span replaces exactly its bytes.

`pieces` places the runs at their offsets; `slice` gives the pieces of a span, cut at its ends. `check` is what can go
wrong in writing a span, apart from what is written.
-/
import FrameGraph.Region.ByteSpan

namespace FrameGraph

variable {α : Type}

/-- `size` bytes of one value -/
structure Run (α : Type) where
  size : Nat
  value : α
deriving DecidableEq, Repr

/-- the values of the bytes from 0 on, as runs -/
abbrev ByteMap (α : Type) := List (Run α)

namespace ByteMap

/-- the value of each byte -/
def values : ByteMap α → List α
  | [] => []
  | r :: rs => List.replicate r.size r.value ++ values rs

/-- the number of bytes -/
def len : ByteMap α → Nat
  | [] => 0
  | r :: rs => r.size + len rs

/-- `n` bytes of one value -/
def fill (n : Nat) (a : α) : ByteMap α :=
  if n = 0 then [] else [⟨n, a⟩]

/-- the first `n` bytes -/
def keep (n : Nat) : ByteMap α → ByteMap α
  | [] => []
  | r :: rs => if n = 0 then [] else if n < r.size then [⟨n, r.value⟩] else r :: keep (n - r.size) rs

/-- all but the first `n` bytes -/
def skip (n : Nat) : ByteMap α → ByteMap α
  | [] => []
  | r :: rs => if n < r.size then ⟨r.size - n, r.value⟩ :: rs else skip (n - r.size) rs

/-- put a run in front, joined to the first one if their values agree -/
def push [DecidableEq α] (r : Run α) : ByteMap α → ByteMap α
  | [] => [r]
  | s :: rs => if r.value = s.value then ⟨r.size + s.size, r.value⟩ :: rs else r :: s :: rs

/-- join neighbouring runs of equal value -/
def fuse [DecidableEq α] : ByteMap α → ByteMap α
  | [] => []
  | r :: rs => push r (fuse rs)

/-- set the bytes of a span that lies inside the map -/
def write [DecidableEq α] (span : ByteSpan) (a : α) (m : ByteMap α) : ByteMap α :=
  fuse (m.keep span.offset ++ ⟨span.size, a⟩ :: m.skip (span.offset + span.size))

/-- the runs with their places, the first one at `start` -/
def piecesFrom (start : Nat) : ByteMap α → List (ByteSpan × α)
  | [] => []
  | r :: rs => (⟨start, r.size⟩, r.value) :: piecesFrom (start + r.size) rs

/-- the runs with their places -/
def pieces (m : ByteMap α) : List (ByteSpan × α) := piecesFrom 0 m

/-- the pieces of a span that lies inside the map, cut at its ends -/
def slice (span : ByteSpan) (m : ByteMap α) : List (ByteSpan × α) :=
  piecesFrom span.offset ((m.skip span.offset).keep span.size)

/-- writing a span replaces a range of runs, cuts the first and the last of them, and joins runs that have become equal.
It faults if the range is backwards, and if a size of a cut or joined run is not a word. -/
def check [DecidableEq α] (span : ByteSpan) (a : α) (m : ByteMap α) : Except Fault Unit :=
  let before := m.pieces.takeWhile fun (p, _) => p.stop ≤ span.offset
  let reached := m.pieces.takeWhile fun (p, _) => p.offset < span.stop
  let replaced := (m.pieces.drop before.length).takeWhile fun (p, _) => p.offset < span.stop
  if reached.length < before.length then .error .outOfBounds
  else if (replaced.all fun (p, _) => max p.offset span.offset ≤ min p.stop span.stop) &&
      (m.write span a).all fun r => r.size ≤ maxWord64 then .ok ()
  else .error .overflow

/-- the single value of the map, if there is one run -/
def uniform? : ByteMap α → Option α
  | [r] => some r.value
  | _ => none

/-- the pieces of the part of a span inside the map -/
def overlapping (m : ByteMap α) (span : ByteSpan) : List (ByteSpan × α) :=
  match span.clamp m.len with
  | none => []
  | some span => m.slice span

/-- set the part of a span inside the map; also the pieces it had before -/
def assign [DecidableEq α] (m : ByteMap α) (span : ByteSpan) (a : α) : ByteMap α × List (ByteSpan × α) :=
  match span.clamp m.len with
  | none => (m, [])
  | some span => (m.write span a, m.slice span)

/-! ## The meaning of the operations -/

theorem length_values (m : ByteMap α) : m.values.length = m.len := by
  induction m with
  | nil => rfl
  | cons r rs ih => simp [values, len, ih]

theorem values_append (a b : ByteMap α) : values (a ++ b) = values a ++ values b := by
  induction a with
  | nil => rfl
  | cons r rs ih => simp [values, ih]

theorem values_fill (n : Nat) (a : α) : (fill n a).values = List.replicate n a := by
  unfold fill
  split
  · simp [values, *]
  · simp [values]

theorem values_keep (n : Nat) (m : ByteMap α) : (m.keep n).values = m.values.take n := by
  induction m generalizing n with
  | nil => simp [keep, values]
  | cons r rs ih =>
    rw [keep, values, List.take_append, List.take_replicate, List.length_replicate]
    split
    · simp [values, *]
    · split
      · simp [values, Nat.min_eq_left (by omega : n ≤ r.size), Nat.sub_eq_zero_of_le (by omega : n ≤ r.size)]
      · rw [values, ih, Nat.min_eq_right (by omega)]

theorem values_skip (n : Nat) (m : ByteMap α) : (m.skip n).values = m.values.drop n := by
  induction m generalizing n with
  | nil => simp [skip, values]
  | cons r rs ih =>
    rw [skip, values, List.drop_append, List.drop_replicate, List.length_replicate]
    split
    · simp [values, Nat.sub_eq_zero_of_le (by omega : n ≤ r.size)]
    · simp [ih, Nat.sub_eq_zero_of_le (by omega : r.size ≤ n)]

theorem values_push [DecidableEq α] (r : Run α) (m : ByteMap α) :
    (push r m).values = List.replicate r.size r.value ++ m.values := by
  cases m with
  | nil => rfl
  | cons s rs =>
    rw [push]
    split
    · rename_i h
      simp [values, h, ← List.replicate_append_replicate]
    · rfl

theorem values_fuse [DecidableEq α] (m : ByteMap α) : (fuse m).values = m.values := by
  induction m with
  | nil => rfl
  | cons r rs ih => simp [fuse, values_push, values, ih]

theorem values_write [DecidableEq α] (span : ByteSpan) (a : α) (m : ByteMap α) :
    (m.write span a).values =
      m.values.take span.offset ++ List.replicate span.size a ++ m.values.drop (span.offset + span.size) := by
  simp [write, values_fuse, values_append, values_keep, values_skip, values]

end ByteMap

end FrameGraph
