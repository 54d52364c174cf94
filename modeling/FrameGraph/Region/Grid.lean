/-
One value for each (mip level, array layer) cell of a texture.

The cells are listed layer by layer, and in a layer by rising level, so cell `i` of a texture with `m` levels is level
`i % m` of layer `i / m` (`Extent.address`).

- `getElem?_write`: writing a rectangle replaces exactly the cells it contains.
- `check`: the lookups by cell number that writing makes, apart from what it writes.
- `uniform?_eq_some_iff`: a grid is uniform in `a` when it has cells and all of them hold `a`.
-/
import FrameGraph.Region.Subresources

namespace FrameGraph

variable {α : Type}

namespace Extent

/-- cell number `i` as a rectangle -/
def address (e : Extent) (i : Nat) : Subresources := .cell (i % e.mips) (i / e.mips)

/-- the rectangle contains cell number `i` -/
def holds (e : Extent) (r : Subresources) (i : Nat) : Bool := r.contains (i % e.mips) (i / e.mips)

end Extent

namespace Grid

/-- every cell holds `a` -/
def fill (e : Extent) (a : α) : List α := List.replicate e.cells a

/-- set the cells of a rectangle -/
def write (e : Extent) (r : Subresources) (a : α) (cells : List α) : List α :=
  cells.mapIdx fun i c => if e.holds r i then a else c

/-- the cells with their places -/
def pieces (e : Extent) (cells : List α) : List (Subresources × α) :=
  cells.mapIdx fun i c => (e.address i, c)

/-- the cells of a rectangle with their places -/
def slice (e : Extent) (r : Subresources) (cells : List α) : List (Subresources × α) :=
  (pieces e cells).filter fun (p, _) => r.contains p.baseMip p.baseLayer

/-- the cells layer by layer -/
def rows (e : Extent) (cells : List α) : List (List α) :=
  (List.range e.layers).map fun layer => (cells.drop (layer * e.mips)).take e.mips

/-- the value all cells hold, if they agree -/
def uniform? [DecidableEq α] : List α → Option α
  | [] => none
  | a :: as => if as.all (· = a) then some a else none

/-- the cells that hold something, with their places. Cells are numbered by 32-bit words: past the largest one the
numbers start again at zero. -/
def filled (e : Extent) (cells : List (Option α)) : List (Subresources × α) :=
  (cells.mapIdx fun i c => c.map fun a => (e.address (i % (maxWord32 + 1)), a)).filterMap id

/-- writing a rectangle looks up each of its cells by number, which faults past the end of the list -/
def check (e : Extent) (r : Subresources) (cells : List α) : Except Fault Unit :=
  let count := cells.length
  let listed := (List.range' r.baseLayer (r.layerEnd - r.baseLayer)).all fun layer =>
    (List.range' r.baseMip (r.mipEnd - r.baseMip)).all fun mip => e.cellIndex mip layer < count
  if listed then .ok () else .error .outOfBounds

theorem length_write (e : Extent) (r : Subresources) (a : α) (cells : List α) :
    (write e r a cells).length = cells.length := by
  simp [write]

theorem getElem?_write (e : Extent) (r : Subresources) (a : α) (cells : List α) (i : Nat) :
    (write e r a cells)[i]? = cells[i]?.map fun c => if e.holds r i then a else c := by
  simp [write]

theorem uniform?_eq_some_iff [DecidableEq α] {cells : List α} {a : α} :
    uniform? cells = some a ↔ cells ≠ [] ∧ ∀ c ∈ cells, c = a := by
  cases cells with
  | nil => simp [uniform?]
  | cons c cs =>
    simp only [uniform?, List.all_eq_true, decide_eq_true_eq, List.mem_cons, ne_eq, reduceCtorEq, not_false_eq_true,
      true_and, forall_eq_or_imp]
    split
    · rename_i h
      constructor
      · rintro ⟨⟩
        exact ⟨rfl, h⟩
      · rintro ⟨rfl, -⟩
        rfl
    · rename_i h
      constructor
      · simp
      · rintro ⟨rfl, h'⟩
        exact absurd h' h

end Grid

end FrameGraph
