/-
Stable sorting by a key.

Barriers and ranges are ordered by tuples of numbers. A tuple is a `List Nat` here, compared lexicographically, so one
sort serves every kind of record. `sortOn` inserts from the right, and an element goes before the elements whose key is
not smaller, so elements of equal key keep their order.

- `mem_sortOn`, `length_sortOn`: the sort loses and invents nothing.
- `ascending`: the distinct elements in ascending order.
-/
namespace FrameGraph

variable {α : Type}

/-- insert before the first element whose key is not smaller -/
def insertOn (key : α → List Nat) (a : α) : List α → List α
  | [] => [a]
  | b :: bs => if (key b).lex (key a) then b :: insertOn key a bs else a :: b :: bs

/-- stable sort by ascending key -/
def sortOn (key : α → List Nat) : List α → List α
  | [] => []
  | a :: as => insertOn key a (sortOn key as)

/-- the sorted list without repetitions; the key has to tell different elements apart -/
def ascending [BEq α] (key : α → List Nat) (as : List α) : List α :=
  (sortOn key as).eraseReps

theorem mem_insertOn {key : α → List Nat} {a x : α} {bs : List α} : x ∈ insertOn key a bs ↔ x = a ∨ x ∈ bs := by
  induction bs with
  | nil => simp [insertOn]
  | cons b bs ih =>
    unfold insertOn
    split
    · simp only [List.mem_cons, ih]
      exact or_left_comm
    · simp

theorem mem_sortOn {key : α → List Nat} {x : α} {as : List α} : x ∈ sortOn key as ↔ x ∈ as := by
  induction as with
  | nil => simp [sortOn]
  | cons a as ih => simp [sortOn, mem_insertOn, ih]

theorem length_insertOn (key : α → List Nat) (a : α) (bs : List α) :
    (insertOn key a bs).length = bs.length + 1 := by
  induction bs with
  | nil => rfl
  | cons b bs ih =>
    unfold insertOn
    split
    · simp [ih]
    · rfl

theorem length_sortOn (key : α → List Nat) (as : List α) : (sortOn key as).length = as.length := by
  induction as with
  | nil => rfl
  | cons a as ih => simp [sortOn, length_insertOn, ih]

end FrameGraph
