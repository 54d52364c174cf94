/-
Writing a span, on a table of ranges with their places.

A byte map is a list of runs, and its table has the same runs at their offsets (`pieces`). A table can be written to in
place: two positions are looked up, the ranges between them are replaced by what is left of the first one, the span and
what is left of the last one, and neighbours of equal value are joined from left to right. All ends and sizes are words
there. This file says that nothing goes wrong in that, and that it is what writing to the map does.

- `Ranges.assign`: the step on tables.
- `Ranges.mergeAdjacent_pieces`: joining from left to right gives the table of the joined map.
- `Ranges.spliced_pieces`, `Ranges.clipped_pieces`: splicing gives the table of the written map; clipping the ranges a
  span reaches gives the pieces of the span.
- `Ranges.assign_pieces`: the step on the table of a map never faults and gives the table of the next one.
-/
import FrameGraph.Proofs.Region.Stores

namespace FrameGraph

variable {α : Type}

/-- ranges with their places and values -/
abbrev Ranges (α : Type) := List (ByteSpan × α)

namespace Ranges

/-! ## The step on tables -/

/-- how many ranges end at the byte `x` or before it -/
def endedBy (x : Nat) (ranges : Ranges α) : Nat := (ranges.takeWhile fun r => r.1.stop ≤ x).length

/-- how many ranges begin before the byte `y` -/
def begunBy (y : Nat) (ranges : Ranges α) : Nat := (ranges.takeWhile fun r => r.1.offset < y).length

/-- what a range has before the byte `x` -/
def leftOver (x : Nat) : Option (ByteSpan × α) → Ranges α
  | none => []
  | some (r, a) => if r.offset < x then [(⟨r.offset, x - r.offset⟩, a)] else []

/-- what a range has from the byte `y` on -/
def rightOver (y : Nat) : Option (ByteSpan × α) → Ranges α
  | none => []
  | some (r, a) => if y < r.stop then [(⟨y, r.stop - y⟩, a)] else []

/-- join each range to the one before it, from left to right, if that has the same value and ends where it begins -/
def joinAdjacent [DecidableEq α] (last : ByteSpan × α) : Ranges α → Except Fault (Ranges α)
  | [] => .ok [last]
  | next :: rest =>
    if last.2 = next.2 ∧ last.1.stop = next.1.offset then do
      let span ← last.1.grow next.1
      joinAdjacent (span, last.2) rest
    else do
      let joined ← joinAdjacent next rest
      return last :: joined

/-- join ranges of equal value that are next to each other -/
def mergeAdjacent [DecidableEq α] : Ranges α → Except Fault (Ranges α)
  | [] => .ok []
  | first :: rest => joinAdjacent first rest

/-- replace the ranges a span reaches, which the two positions bound, and join what has become equal -/
def spliced [DecidableEq α] (span : ByteSpan) (a : α) (ranges : Ranges α) : Except Fault (Ranges α) :=
  let start := ranges.endedBy span.offset
  let stop := ranges.begunBy span.stop
  let before := leftOver span.offset ranges[start]?
  let after := if start < stop then rightOver span.stop ranges[stop - 1]? else []
  if stop < start then .error .outOfBounds
  else mergeAdjacent (ranges.take start ++ before ++ (span, a) :: (after ++ ranges.drop stop))

/-- the part of a range between two bytes -/
def clip (x y : Nat) (r : ByteSpan × α) : Except Fault (ByteSpan × α) :=
  (checkedSub (min r.1.stop y) (max r.1.offset x)).map fun size => (⟨max r.1.offset x, size⟩, r.2)

/-- the ranges a span reaches, cut at its ends -/
def clipped (span : ByteSpan) (ranges : Ranges α) : Except Fault (Ranges α) :=
  ((ranges.drop (ranges.endedBy span.offset)).takeWhile fun r => r.1.offset < span.stop).mapM (clip span.offset span.stop)

/-- set the part of a span inside a table of `n` bytes; also the ranges it had before -/
def assign [DecidableEq α] (n : Nat) (span : ByteSpan) (a : α) (ranges : Ranges α) :
    Except Fault (Ranges α × Ranges α) :=
  match span.clamp n with
  | none => .ok (ranges, [])
  | some span => do
    let previous ← clipped span ranges
    let ranges ← spliced span a ranges
    return (ranges, previous)

end Ranges

open ByteMap

namespace Ranges

variable {m rs : ByteMap α} {r : Run α} {s n x y : Nat}

/-! ## Tables of maps -/

theorem len_append (m m' : ByteMap α) : len (m ++ m') = len m + len m' := by
  induction m with
  | nil => exact (Nat.zero_add _).symm
  | cons r rs ih => rw [List.cons_append, len, len, ih, Nat.add_assoc]

theorem piecesFrom_append (s : Nat) (m m' : ByteMap α) :
    piecesFrom s (m ++ m') = piecesFrom s m ++ piecesFrom (s + len m) m' := by
  induction m generalizing s with
  | nil => rfl
  | cons r rs ih => rw [List.cons_append, piecesFrom, piecesFrom, ih, len, List.cons_append, Nat.add_assoc]

theorem len_keep (h : n ≤ len m) : len (m.keep n) = n := by
  rw [← length_values, values_keep, List.length_take, length_values, Nat.min_eq_left h]

theorem len_skip (n : Nat) (m : ByteMap α) : len (m.skip n) = len m - n := by
  rw [← length_values, values_skip, List.length_drop, length_values]

/-- the end of a run of a table whose bytes can be counted -/
theorem stop_run (h : s + len (r :: rs) ≤ maxWord64) : (⟨s, r.size⟩ : ByteSpan).stop = s + r.size := by
  refine saturatingAdd_eq ?_
  rw [len] at h
  simp only
  omega

theorem endedBy_cons (h : s + len (r :: rs) ≤ maxWord64) :
    endedBy x (piecesFrom s (r :: rs)) = if s + r.size ≤ x then endedBy x (piecesFrom (s + r.size) rs) + 1 else 0 := by
  rw [piecesFrom, endedBy, List.takeWhile_cons]
  simp only [stop_run h, decide_eq_true_eq]
  split <;> rfl

theorem begunBy_cons :
    begunBy y (piecesFrom s (r :: rs)) = if s < y then begunBy y (piecesFrom (s + r.size) rs) + 1 else 0 := by
  rw [piecesFrom, begunBy, List.takeWhile_cons]
  simp only [decide_eq_true_eq]
  split <;> rfl

/-- no range begins before a byte the table begins at or after -/
theorem begunBy_of_le (h : y ≤ s) : begunBy y (piecesFrom s m) = 0 := by
  cases m with
  | nil => rfl
  | cons r rs => rw [begunBy_cons, if_neg (Nat.not_lt.2 h)]

/-- a span inside the table reaches a range -/
theorem endedBy_lt_begunBy (hmax : s + len m ≤ maxWord64) (hs : s ≤ x) (hxy : x < y) (hx : x < s + len m) :
    endedBy x (piecesFrom s m) < begunBy y (piecesFrom s m) := by
  induction m generalizing s with
  | nil => exact absurd hx (by simpa [len] using hs)
  | cons r rs ih =>
    rw [endedBy_cons hmax, begunBy_cons, if_pos (hs.trans_lt hxy)]
    rw [len] at hmax hx
    split
    · exact Nat.succ_lt_succ (ih (by omega) (by omega) (by omega))
    · exact Nat.succ_pos _

/-! ## Splicing -/

/-- the table of what a map has before a byte -/
theorem pieces_keep (h : Dense m) (hmax : s + len m ≤ maxWord64) (hs : s ≤ x) :
    piecesFrom s (m.keep (x - s)) =
      (piecesFrom s m).take (endedBy x (piecesFrom s m)) ++ leftOver x (piecesFrom s m)[endedBy x (piecesFrom s m)]? := by
  induction m generalizing s with
  | nil => rfl
  | cons r rs ih =>
    obtain ⟨hr, hrs⟩ := List.forall_mem_cons.1 h
    rw [endedBy_cons hmax, keep]
    rw [len] at hmax
    by_cases hend : s + r.size ≤ x
    · rw [if_neg (by omega), if_neg (by omega), if_pos hend, piecesFrom, piecesFrom, List.take_succ_cons,
        List.getElem?_cons_succ, List.cons_append, ← ih hrs (by omega) hend, Nat.sub_sub]
    · rw [if_neg hend, List.take_zero, List.nil_append, piecesFrom, List.getElem?_cons_zero, leftOver]
      by_cases hx : x = s
      · rw [if_pos (by omega), if_neg (by simp [hx])]
        rfl
      · rw [if_neg (by omega), if_pos (by omega), if_pos (by simp only; omega)]
        rfl

/-- the table of what a map has from a byte on -/
theorem pieces_skip (h : Dense m) (hmax : s + len m ≤ maxWord64) (hs : s ≤ y) :
    piecesFrom y (m.skip (y - s)) =
      (if 0 < begunBy y (piecesFrom s m) then rightOver y (piecesFrom s m)[begunBy y (piecesFrom s m) - 1]? else []) ++
        (piecesFrom s m).drop (begunBy y (piecesFrom s m)) := by
  induction m generalizing s with
  | nil => rfl
  | cons r rs ih =>
    obtain ⟨hr, hrs⟩ := List.forall_mem_cons.1 h
    have hstop : (⟨s, r.size⟩ : ByteSpan).stop = s + r.size := stop_run hmax
    rw [begunBy_cons, skip]
    rw [len] at hmax
    by_cases hend : s + r.size ≤ y
    · have hsy : s < y := by omega
      rw [if_neg (by omega), Nat.sub_sub, ih hrs (by omega) hend, if_pos hsy, if_pos (Nat.succ_pos _),
        Nat.add_sub_cancel, piecesFrom, List.drop_succ_cons]
      -- the last range that begins before the byte is the last of the others, if one of them does
      cases begunBy y (piecesFrom (s + r.size) rs) with
      | zero => simp [rightOver, hstop, hend]
      | succ b => rw [if_pos (Nat.succ_pos b), List.getElem?_cons_succ, Nat.add_sub_cancel]
    · rw [if_pos (by omega), begunBy_of_le (by omega)]
      by_cases hy : s < y
      · have hcut : y < (⟨s, r.size⟩ : ByteSpan).stop := by omega
        rw [if_pos hy, Nat.zero_add, if_pos Nat.one_pos, Nat.sub_self, piecesFrom, piecesFrom, List.getElem?_cons_zero,
          rightOver, if_pos hcut, hstop, show r.size - (y - s) = s + r.size - y by omega,
          show y + (s + r.size - y) = s + r.size by omega]
        rfl
      · rw [if_neg hy, if_neg (lt_irrefl 0), show y = s by omega, Nat.sub_self, Nat.sub_zero]
        rfl

/-! ## Joining -/

section Joining

variable [DecidableEq α]

/-- a run in front of one of its value and what that is joined to, joined to both at once -/
theorem push_push {t : Run α} (h : r.value = t.value) : push r (push t m) = push ⟨r.size + t.size, r.value⟩ m := by
  cases m with
  | nil => simp only [push, if_pos h]
  | cons u us =>
    by_cases hu : t.value = u.value
    · rw [push, if_pos hu, push, if_pos h, push, if_pos (h.trans hu), Nat.add_assoc]
    · rw [push, if_neg hu, push, if_pos h, push, if_neg (h ▸ hu)]

/-- a run in front of one of another value -/
theorem push_push_of_ne {t : Run α} (h : r.value ≠ t.value) : push r (push t m) = r :: push t m := by
  cases m with
  | nil => simp only [push, if_neg h]
  | cons u us =>
    rw [push]
    split
    · rw [push, if_neg h]
    · rw [push, if_neg h]

theorem joinAdjacent_pieces (hmax : s + len (r :: rs) ≤ maxWord64) :
    joinAdjacent (⟨s, r.size⟩, r.value) (piecesFrom (s + r.size) rs) = .ok (piecesFrom s (push r (fuse rs))) := by
  induction rs generalizing r s with
  | nil => rfl
  | cons t rest ih =>
    have hstop : (⟨s, r.size⟩ : ByteSpan).stop = s + r.size := stop_run hmax
    rw [len, len] at hmax
    rw [piecesFrom, joinAdjacent, fuse]
    by_cases hvalue : r.value = t.value
    · have hgrow : ByteSpan.grow ⟨s, r.size⟩ ⟨s + r.size, t.size⟩ = .ok ⟨s, r.size + t.size⟩ := by
        rw [ByteSpan.grow, checkedAdd_eq_ok (by simp only; omega)]
        rfl
      have hrest := @ih ⟨r.size + t.size, r.value⟩ s (by rw [len]; simp only; omega)
      rw [if_pos ⟨hvalue, hstop⟩, hgrow, push_push hvalue, ← hrest, Nat.add_assoc]
      rfl
    · rw [if_neg fun h => hvalue h.1, ih (by rw [len]; omega), push_push_of_ne hvalue]
      rfl

/-- **Joining from left to right** gives the table of the joined map. -/
theorem mergeAdjacent_pieces (hmax : s + len m ≤ maxWord64) :
    mergeAdjacent (piecesFrom s m) = .ok (piecesFrom s (fuse m)) := by
  cases m with
  | nil => rfl
  | cons r rs => exact joinAdjacent_pieces hmax

/-- **Splicing a span into the table of a map** goes well and gives the table of the written map. -/
theorem spliced_pieces {span : ByteSpan} (a : α) (h : Dense m) (hmax : len m ≤ maxWord64)
    (hpos : 0 < span.size) (hend : span.offset + span.size ≤ len m) :
    spliced span a m.pieces = .ok (m.write span a).pieces := by
  have hstop : span.stop = span.offset + span.size := saturatingAdd_eq (hend.trans hmax)
  have hzero : 0 + len m ≤ maxWord64 := by omega
  have hlt : endedBy span.offset (piecesFrom 0 m) < begunBy span.stop (piecesFrom 0 m) :=
    endedBy_lt_begunBy hzero (Nat.zero_le _) (by omega) (by omega)
  have hkeep := pieces_keep h hzero (Nat.zero_le span.offset)
  have hskip := pieces_skip h hzero (Nat.zero_le span.stop)
  rw [Nat.sub_zero] at hkeep hskip
  rw [if_pos (Nat.zero_lt_of_lt hlt)] at hskip
  have hlen : len (m.keep span.offset) = span.offset := len_keep (by omega)
  let written := m.keep span.offset ++ ⟨span.size, a⟩ :: m.skip (span.offset + span.size)
  have htable : piecesFrom 0 written =
      (piecesFrom 0 m).take (endedBy span.offset (piecesFrom 0 m)) ++
          leftOver span.offset (piecesFrom 0 m)[endedBy span.offset (piecesFrom 0 m)]? ++
        (span, a) :: (rightOver span.stop (piecesFrom 0 m)[begunBy span.stop (piecesFrom 0 m) - 1]? ++
          (piecesFrom 0 m).drop (begunBy span.stop (piecesFrom 0 m))) := by
    rw [piecesFrom_append, piecesFrom, Nat.zero_add, hlen, ← hstop, hskip, hkeep]
  have hwritten : 0 + len written ≤ maxWord64 := by
    rw [len_append, len, hlen, len_skip]
    simp only
    omega
  change spliced span a (piecesFrom 0 m) = .ok (piecesFrom 0 (fuse written))
  simp only [spliced]
  rw [if_neg (Nat.not_lt.2 hlt.le), if_pos hlt, ← htable, mergeAdjacent_pieces hwritten]

end Joining

/-! ## Clipping -/

theorem keep_zero (m : ByteMap α) : m.keep 0 = [] := by
  cases m <;> rfl

theorem clip_run (h : s + len (r :: rs) ≤ maxWord64) (hle : max s x ≤ min (s + r.size) y) :
    clip x y (⟨s, r.size⟩, r.value) = .ok (⟨max s x, min (s + r.size) y - max s x⟩, r.value) := by
  rw [clip, stop_run h, checkedSub_eq_ok hle]
  rfl

/-- the ranges that begin before a byte, cut there, if none of them begins before the other end -/
theorem mapM_clip_keep (h : Dense m) (hmax : s + len m ≤ maxWord64) (hs : x ≤ s) :
    ((piecesFrom s m).takeWhile fun r => r.1.offset < y).mapM (clip x y) = .ok (piecesFrom s (m.keep (y - s))) := by
  induction m generalizing s with
  | nil => rfl
  | cons r rs ih =>
    obtain ⟨hr, hrs⟩ := List.forall_mem_cons.1 h
    have hclip := clip_run (x := x) (y := y) hmax
    rw [piecesFrom, List.takeWhile_cons, keep]
    rw [len] at hmax
    by_cases hy : s < y
    · rw [if_pos (decide_eq_true hy), List.mapM_cons, hclip (by omega), ih hrs (by omega) (by omega), if_neg (by omega),
        Nat.max_eq_left hs]
      by_cases hcut : y < s + r.size
      · rw [if_pos (by omega), Nat.min_eq_right hcut.le, Nat.sub_eq_zero_of_le hcut.le, keep_zero]
        rfl
      · rw [if_neg (by omega), Nat.min_eq_left (Nat.le_of_not_lt hcut), Nat.add_sub_cancel_left, Nat.sub_sub]
        rfl
    · rw [if_neg (by simpa using hy), if_pos (by omega)]
      rfl

/-- the ranges between two bytes, cut there -/
theorem mapM_clip_slice (h : Dense m) (hmax : s + len m ≤ maxWord64) (hs : s ≤ x) (hxy : x < y) :
    (((piecesFrom s m).drop (endedBy x (piecesFrom s m))).takeWhile fun r => r.1.offset < y).mapM (clip x y) =
      .ok (piecesFrom x ((m.skip (x - s)).keep (y - x))) := by
  induction m generalizing s with
  | nil => rfl
  | cons r rs ih =>
    obtain ⟨hr, hrs⟩ := List.forall_mem_cons.1 h
    have hclip := clip_run (x := x) (y := y) hmax
    rw [endedBy_cons hmax, skip]
    rw [len] at hmax
    by_cases hend : s + r.size ≤ x
    · rw [if_pos hend, if_neg (by omega), piecesFrom, List.drop_succ_cons, ih hrs (by omega) hend, Nat.sub_sub]
    · -- the first range the span reaches; the others begin after the start of the span
      have hs' : s < y := by omega
      have hrest := mapM_clip_keep (s := s + r.size) (x := x) (y := y) hrs (by omega) (by omega)
      rw [if_neg hend, if_pos (by omega), List.drop_zero, piecesFrom, List.takeWhile_cons, if_pos (decide_eq_true hs'),
        List.mapM_cons, hclip (by omega), hrest, keep, if_neg (by omega), Nat.max_eq_right hs]
      by_cases hcut : y < s + r.size
      · rw [if_pos (by simp only; omega), Nat.min_eq_right hcut.le, Nat.sub_eq_zero_of_le hcut.le, keep_zero]
        rfl
      · rw [if_neg (by simp only; omega), Nat.min_eq_left (Nat.le_of_not_lt hcut), piecesFrom]
        simp only
        rw [show r.size - (x - s) = s + r.size - x by omega, show x + (s + r.size - x) = s + r.size by omega,
          show y - x - (s + r.size - x) = y - (s + r.size) by omega]
        rfl

/-- **Clipping the ranges a span reaches** goes well and gives the pieces of the span. -/
theorem clipped_pieces {span : ByteSpan} (h : Dense m) (hmax : len m ≤ maxWord64) (hpos : 0 < span.size)
    (hend : span.offset + span.size ≤ len m) : clipped span m.pieces = .ok (m.slice span) := by
  have hstop : span.stop = span.offset + span.size := saturatingAdd_eq (hend.trans hmax)
  have hzero : 0 + len m ≤ maxWord64 := by omega
  have hslice := mapM_clip_slice (y := span.stop) h hzero (Nat.zero_le span.offset) (by omega)
  rw [Nat.sub_zero, hstop, Nat.add_sub_cancel_left] at hslice
  rw [clipped, hstop]
  exact hslice

/-- **Writing to the table of a map** never faults, and gives the table of the written map and the pieces it had. -/
theorem assign_pieces [DecidableEq α] (h : Dense m) (hmax : len m ≤ maxWord64) (span : ByteSpan) (a : α) :
    assign (len m) span a m.pieces = .ok ((m.assign span a).1.pieces, (m.assign span a).2) := by
  cases hclamp : span.clamp (len m) with
  | none => simp only [assign, ByteMap.assign, hclamp]
  | some part =>
    obtain ⟨⟨h1, h2⟩, rfl⟩ := ByteSpan.clamp_eq_some_iff.1 hclamp
    have hpos : 0 < min span.size (len m - span.offset) := by omega
    have hend : span.offset + min span.size (len m - span.offset) ≤ len m := by omega
    simp only [assign, ByteMap.assign, hclamp]
    rw [clipped_pieces h hmax hpos hend, spliced_pieces a h hmax hpos hend]
    rfl

end Ranges

end FrameGraph
