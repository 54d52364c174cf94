/-
A byte map is its values, and its table is the only one they have.

Any spans may be assigned, also empty ones and ones that reach past the end. The map stays dense and joined
(`Kept`), and everything else follows from that.

- `Ranges.Adjoin`: ranges that are not empty and follow each other without gap or overlap.
- `Ranges.valueAt`: a table read as a function from bytes to values. `valueAt_pieces`: it is the list of values of the map.
- `Faithful`: the table is in order, and assigning to it does to the function what it should.
- `eq_of_valueAt`: maps with the same function are the same.
- `assigned_faithful`: this holds after any assignments.
-/
import FrameGraph.Proofs.Canonical
import FrameGraph.Proofs.Checks
import FrameGraph.Proofs.Region.Splicing

namespace FrameGraph

open ResourceKind

variable {α : Type}

/-! ## Tables -/

namespace Ranges

/-- the ranges are not empty, the first begins at `start`, each next one where the one before it ends, and the last ends
at `stop` -/
def Adjoin : Nat → Ranges α → Nat → Prop
  | start, [], stop => start = stop
  | start, r :: rest, stop => r.1.offset = start ∧ 0 < r.1.size ∧ Adjoin (start + r.1.size) rest stop

/-- the value of a byte -/
def valueAt (ranges : Ranges α) (i : Nat) : Option α := (ranges.find? fun r => r.1.contains i).map Prod.snd

/-- the part of a range that is in a span, if any is -/
def cut (span : ByteSpan) (r : ByteSpan × α) : Option (ByteSpan × α) :=
  let start := max r.1.offset span.offset
  let stop := min (r.1.offset + r.1.size) (span.offset + span.size)
  if start < stop then some (⟨start, stop - start⟩, r.2) else none

end Ranges

open Ranges

namespace ByteMap

variable {m : ByteMap α} {n s i : Nat} {span : ByteSpan}

theorem adjoin_piecesFrom (h : Dense m) (s : Nat) : Adjoin s (piecesFrom s m) (s + len m) := by
  induction m generalizing s with
  | nil => rfl
  | cons r rs ih =>
    have hrest := ih (fun y hy => h y (List.mem_cons_of_mem _ hy)) (s + r.size)
    rw [Nat.add_assoc] at hrest
    exact ⟨rfl, h r List.mem_cons_self, hrest⟩

/-- **A table read as a function is the list of values of its map.** -/
theorem valueAt_piecesFrom (m : ByteMap α) (s i : Nat) :
    valueAt (piecesFrom s m) i = if s ≤ i then m.values[i - s]? else none := by
  induction m generalizing s with
  | nil => simp [valueAt, piecesFrom, values]
  | cons r rs ih =>
    have hrest := ih (s + r.size)
    rw [piecesFrom, valueAt, List.find?_cons, values, List.getElem?_append, List.length_replicate]
    by_cases hi : (⟨s, r.size⟩ : ByteSpan).contains i = true
    · have hi' : s ≤ i ∧ i < s + r.size := by simpa [ByteSpan.contains] using hi
      simp only [hi]
      rw [if_pos hi'.1, if_pos (by omega), List.getElem?_replicate, if_pos (by omega)]
      rfl
    · have hi' : ¬ (s ≤ i ∧ i < s + r.size) := by simpa [ByteSpan.contains] using hi
      simp only [hi]
      refine hrest.trans ?_
      by_cases hs : s ≤ i
      · rw [if_pos hs, if_pos (by omega), if_neg (by omega), Nat.sub_sub]
      · rw [if_neg hs, if_neg (by omega)]

theorem valueAt_pieces (m : ByteMap α) (i : Nat) : valueAt m.pieces i = m.values[i]? := by
  rw [pieces, valueAt_piecesFrom, if_pos (Nat.zero_le i), Nat.sub_zero]

theorem map_snd_piecesFrom (m : ByteMap α) (s : Nat) : (piecesFrom s m).map Prod.snd = m.map Run.value := by
  induction m generalizing s with
  | nil => rfl
  | cons r rs ih => rw [piecesFrom, List.map_cons, List.map_cons, ih]

/-- joining leaves no neighbours of equal value -/
theorem isChain_fuse [DecidableEq α] (m : ByteMap α) : (fuse m).IsChain fun r t => r.value ≠ t.value := by
  induction m with
  | nil => exact List.IsChain.nil
  | cons r rs ih =>
    rw [fuse]
    cases hrest : fuse rs with
    | nil => exact List.IsChain.singleton _
    | cons t ts =>
      rw [hrest] at ih
      rw [push]
      split
      · rename_i hvalue
        cases ts with
        | nil => exact List.IsChain.singleton _
        | cons u us =>
          obtain ⟨hne, hus⟩ := List.isChain_cons_cons.1 ih
          exact List.isChain_cons_cons.2 ⟨hvalue ▸ hne, hus⟩
      · rename_i hvalue
        exact List.isChain_cons_cons.2 ⟨hvalue, ih⟩

/-- neighbouring ranges of the table of a joined map have different values -/
theorem isChain_pieces [DecidableEq α] (h : fuse m = m) : m.pieces.IsChain fun x y => x.2 ≠ y.2 := by
  have hruns : (m.map Run.value).IsChain (· ≠ ·) := (List.isChain_map Run.value).2 (h ▸ isChain_fuse m)
  rw [← map_snd_piecesFrom m 0] at hruns
  exact (List.isChain_map Prod.snd).1 hruns

/-! ## Searching and cutting tables -/

/-- a table whose bytes can be counted: its ranges are not empty and end where their last byte does -/
theorem mem_pieces (h : Dense m) (hmax : len m ≤ maxWord64) {x : ByteSpan × α} (hx : x ∈ m.pieces) :
    0 < x.1.size ∧ x.1.offset + x.1.size ≤ len m ∧ x.1.stop = x.1.offset + x.1.size := by
  obtain ⟨hpos, -, hend⟩ := mem_piecesFrom h hx
  rw [Nat.zero_add, length_values] at hend
  exact ⟨hpos, hend, saturatingAdd_eq (hend.trans hmax)⟩

/-- the ranges that end at a byte or before it come first -/
theorem not_ended (h : Dense m) (hmax : len m ≤ maxWord64) (x : Nat) :
    ∀ r ∈ m.pieces.drop (endedBy x m.pieces), ¬ r.1.stop ≤ x := by
  intro r hr
  rw [endedBy, drop_length_takeWhile] at hr
  have hstops : m.pieces.Pairwise fun a b => a.1.stop ≤ b.1.stop := by
    refine (pairwise_piecesFrom h 0).imp_of_mem fun {a b} ha hb hab => ?_
    rw [(mem_pieces h hmax ha).2.2, (mem_pieces h hmax hb).2.2]
    omega
  refine of_decide_eq_false (not_of_mem_dropWhile hstops (fun a b hab hb => ?_) hr)
  exact decide_eq_true (hab.trans (of_decide_eq_true hb))

/-- the ranges that begin before a byte come first -/
theorem not_begun (h : Dense m) (y : Nat) : ∀ r ∈ m.pieces.drop (begunBy y m.pieces), ¬ r.1.offset < y := by
  intro r hr
  rw [begunBy, drop_length_takeWhile] at hr
  refine of_decide_eq_false (not_of_mem_dropWhile (pairwise_piecesFrom h 0) (fun a b hab hb => ?_) hr)
  exact decide_eq_true ((Nat.le_add_right _ _).trans_lt (hab.trans_lt (of_decide_eq_true hb)))

/-- clipping ranges that a span reaches cuts them -/
theorem filterMap_cut_of_clip {l out : Ranges α} (hspan : span.stop = span.offset + span.size)
    (hl : ∀ r ∈ l, r.1.stop = r.1.offset + r.1.size ∧
      max r.1.offset span.offset < min (r.1.offset + r.1.size) (span.offset + span.size))
    (h : l.mapM (clip span.offset span.stop) = .ok out) : l.filterMap (cut span) = out := by
  induction l generalizing out with
  | nil =>
    cases h
    rfl
  | cons r rest ih =>
    obtain ⟨⟨hstop, hlt⟩, hrest⟩ := List.forall_mem_cons.1 hl
    rw [List.mapM_cons, clip, hstop, hspan, checkedSub_eq_ok hlt.le] at h
    obtain ⟨clipped, hclipped, h⟩ := bind_eq_ok.1 h
    obtain ⟨later, hlater, h⟩ := bind_eq_ok.1 h
    cases hclipped
    cases h
    rw [List.filterMap_cons, cut]
    simp only
    rw [if_pos hlt, ih hrest ?_]
    rw [hspan]
    exact hlater

/-- **The pieces of a span are the ranges of the table, cut to the span.** -/
theorem filterMap_cut (h : Dense m) (hmax : len m ≤ maxWord64) (hpos : 0 < span.size)
    (hend : span.offset + span.size ≤ len m) : m.pieces.filterMap (cut span) = m.slice span := by
  have hspan : span.stop = span.offset + span.size := saturatingAdd_eq (hend.trans hmax)
  let ends : ByteSpan × α → Bool := fun r => r.1.stop ≤ span.offset
  let starts : ByteSpan × α → Bool := fun r => r.1.offset < span.stop
  let rest := m.pieces.drop (endedBy span.offset m.pieces)
  have hrest : ∀ r ∈ rest, r ∈ m.pieces := fun r hr => (List.drop_sublist _ _).subset hr
  -- the ranges before those the span reaches end before it, and those after them begin after it
  have hfront : (m.pieces.takeWhile ends).filterMap (cut span) = [] := by
    refine List.filterMap_eq_nil_iff.2 fun r hr => if_neg ?_
    have hmem := mem_pieces h hmax ((List.takeWhile_sublist ends).subset hr)
    have hends : r.1.stop ≤ span.offset := of_decide_eq_true (List.mem_takeWhile_imp (p := ends) hr)
    omega
  have hback : (rest.dropWhile starts).filterMap (cut span) = [] := by
    refine List.filterMap_eq_nil_iff.2 fun r hr => if_neg ?_
    have hsorted : rest.Pairwise fun a b => a.1.offset + a.1.size ≤ b.1.offset :=
      (pairwise_piecesFrom h 0).sublist (List.drop_sublist _ _)
    have hstarts : ¬ r.1.offset < span.stop := of_decide_eq_false <| not_of_mem_dropWhile hsorted
      (fun a b hab hb => decide_eq_true ((Nat.le_add_right _ _).trans_lt (hab.trans_lt (of_decide_eq_true hb)))) hr
    omega
  have hmiddle : (rest.takeWhile starts).filterMap (cut span) = m.slice span := by
    refine filterMap_cut_of_clip hspan (fun r hr => ?_) (clipped_pieces h hmax hpos hend)
    have hr' : r ∈ rest := (List.takeWhile_sublist starts).subset hr
    have hmem := mem_pieces h hmax (hrest r hr')
    have hstarts : r.1.offset < span.stop := of_decide_eq_true (List.mem_takeWhile_imp (p := starts) hr)
    have hends := not_ended h hmax span.offset r hr'
    exact ⟨hmem.2.2, by omega⟩
  have hsplit : m.pieces = m.pieces.takeWhile ends ++ (rest.takeWhile starts ++ rest.dropWhile starts) := by
    rw [List.takeWhile_append_dropWhile]
    exact (List.takeWhile_append_dropWhile.symm).trans (congrArg _ (drop_length_takeWhile ends m.pieces).symm)
  rw [hsplit, List.filterMap_append, List.filterMap_append, hfront, hmiddle, hback, List.nil_append, List.append_nil]

/-! ## Maps after assignments -/

section Assigned

variable [DecidableEq α] {a : α}

/-- the map of `n` bytes of one value after some assignments, each of a value to a span -/
def assigned (n : Nat) (a : α) (calls : List (ByteSpan × α)) : ByteMap α :=
  calls.foldl (fun m call => (m.assign call.1 call.2).1) (fill n a)

/-- `n` bytes in runs that are not empty, neighbours of which differ -/
structure Kept (n : Nat) (m : ByteMap α) : Prop where
  dense : Dense m
  length : len m = n
  joined : fuse m = m

theorem kept_fill (n : Nat) (a : α) : Kept n (fill n a) := by
  refine ⟨dense_fill n a, ?_, ?_⟩
  · rw [← length_values, values_fill, List.length_replicate]
  · unfold fill
    split <;> rfl

namespace Kept

variable (h : Kept n m)

include h

theorem sized : buffer.Sized n m := ⟨(length_values m).trans h.length, h.dense⟩

/-- the part of a span inside the map fits it -/
theorem inside_clamp {part : ByteSpan} (hclamp : span.clamp (len m) = some part) : buffer.Inside n part :=
  h.length ▸ inside_of_clamp (k := .buffer) hclamp

theorem assign (span : ByteSpan) (a : α) : Kept n (m.assign span a).1 := by
  cases hclamp : span.clamp (len m) with
  | none =>
    simp only [ByteMap.assign, hclamp]
    exact h
  | some part =>
    have hin := h.inside_clamp hclamp
    have hsized : buffer.Sized n (m.write part a) := sized_write a hin h.sized
    simp only [ByteMap.assign, hclamp]
    exact ⟨hsized.2, (length_values _).symm.trans hsized.1, joined_write a hin h.sized⟩

/-- **Assigning to a span sets its bytes and no others.** -/
theorem values_assign (span : ByteSpan) (a : α) (hi : i < n) :
    (m.assign span a).1.values[i]? = if span.contains i = true then some a else m.values[i]? := by
  have hlength := h.length
  cases hclamp : span.clamp (len m) with
  | none =>
    have hno : ¬ span.contains i = true := by
      simp only [ByteSpan.clamp, ite_eq_left_iff, reduceCtorEq, imp_false, not_not] at hclamp
      simp only [ByteSpan.contains, Bool.and_eq_true, decide_eq_true_eq]
      omega
    simp only [ByteMap.assign, hclamp]
    rw [if_neg hno]
  | some part =>
    obtain ⟨-, hpart⟩ := ByteSpan.clamp_eq_some_iff.1 hclamp
    have hsame : buffer.holds n part i = span.contains i := by
      rw [hpart, Bool.eq_iff_iff, holds_buffer]
      simp only [ByteSpan.contains, Bool.and_eq_true, decide_eq_true_eq]
      omega
    have hwrite := getElem?_values_write (k := .buffer) (a := a) (h.inside_clamp hclamp) h.sized hi
    rw [hsame] at hwrite
    simp only [ByteMap.assign, hclamp]
    exact hwrite

/-- **The parts of a span are the ranges of the table, cut to the span.** -/
theorem overlapping_eq (hmax : n ≤ maxWord64) (span : ByteSpan) : m.overlapping span = m.pieces.filterMap (cut span) := by
  have hlength := h.length
  have hmax' : len m ≤ maxWord64 := hlength ▸ hmax
  cases hclamp : span.clamp (len m) with
  | none =>
    simp only [overlapping, hclamp]
    refine (List.filterMap_eq_nil_iff.2 fun r hr => if_neg ?_).symm
    simp only [ByteSpan.clamp, ite_eq_left_iff, reduceCtorEq, imp_false, not_not] at hclamp
    have hmem := mem_pieces h.dense hmax' hr
    omega
  | some part =>
    obtain ⟨hpos, hend⟩ := h.inside_clamp hclamp
    obtain ⟨-, hpart⟩ := ByteSpan.clamp_eq_some_iff.1 hclamp
    simp only [overlapping, hclamp]
    rw [← filterMap_cut h.dense hmax' hpos (hlength ▸ hend)]
    refine List.filterMap_congr fun r hr => ?_
    have hmem := mem_pieces h.dense hmax' hr
    have hstop : min (r.1.offset + r.1.size) (part.offset + part.size) =
        min (r.1.offset + r.1.size) (span.offset + span.size) := by
      rw [hpart]
      simp only
      omega
    rw [cut, cut, hstop, hpart]

theorem adjoin_overlapping (span : ByteSpan) (hoffset : span.offset < n) (hpos : 0 < span.size) :
    Adjoin span.offset (m.overlapping span) (min (span.offset + span.size) n) := by
  have hlength := h.length
  have hclamp : span.clamp (len m) = some ⟨span.offset, min span.size (len m - span.offset)⟩ :=
    ByteSpan.clamp_eq_some_iff.2 ⟨⟨hlength ▸ hoffset, hpos⟩, rfl⟩
  have hadjoin := adjoin_piecesFrom (dense_keep (dense_skip h.dense span.offset) (min span.size (len m - span.offset)))
    span.offset
  rw [len_keep (by rw [len_skip]; omega)] at hadjoin
  simp only [overlapping, hclamp, slice]
  convert hadjoin using 1
  omega

/-- the map claims a value if it has bytes and all of them have it -/
theorem uniform_iff (v : α) : m.uniform? = some v ↔ 0 < n ∧ ∀ i < n, m.values[i]? = some v := by
  have hlength := h.length
  constructor
  · intro hu
    refine ⟨?_, fun i hi => values_of_uniform (k := .buffer) h.sized hu hi⟩
    cases m with
    | nil => cases hu
    | cons r rs =>
      have hr : 0 < r.size := h.dense r List.mem_cons_self
      rw [len] at hlength
      omega
  · rintro ⟨hpos, hall⟩
    refine uniform_of_values (k := .buffer) h.sized h.joined hpos fun w hw => ?_
    obtain ⟨i, hi⟩ := List.mem_iff_getElem?.1 hw
    have hlt : i < n := h.sized.1 ▸ (List.getElem?_eq_some_iff.1 hi).1
    exact Option.some.inj (hi.symm.trans (hall i hlt))

/-- **Maps of one length with the same function from bytes to values are the same.** -/
theorem eq_of_valueAt {m' : ByteMap α} (h' : Kept n m') (hv : ∀ i < n, valueAt m'.pieces i = valueAt m.pieces i) :
    m' = m := by
  refine eq_of_values (k := .buffer) h'.sized h.sized h'.joined h.joined (List.ext_getElem? fun i => ?_)
  by_cases hi : i < n
  · have hvi := hv i hi
    rwa [valueAt_pieces, valueAt_pieces] at hvi
  · have hle := Nat.le_of_not_lt hi
    rw [List.getElem?_eq_none, List.getElem?_eq_none]
    · exact h.sized.1.trans_le hle
    · exact h'.sized.1.trans_le hle

end Kept

theorem kept_assigned (n : Nat) (a : α) (calls : List (ByteSpan × α)) : Kept n (assigned n a calls) := by
  have hfold : ∀ m : ByteMap α, Kept n m → Kept n (calls.foldl (fun m call => (m.assign call.1 call.2).1) m) := by
    induction calls with
    | nil => exact fun m h => h
    | cons call calls ih => exact fun m h => ih _ (h.assign call.1 call.2)
  exact hfold _ (kept_fill n a)

/-- the table of the map is in order, and what is done to the map is what should be done to `n` bytes -/
structure Faithful (n : Nat) (m : ByteMap α) : Prop where
  /-- it counts `n` bytes -/
  length : len m = n
  /-- the ranges are not empty and follow each other from byte 0 to byte `n` -/
  adjoin : Adjoin 0 m.pieces n
  /-- neighbours have different values -/
  differ : m.pieces.IsChain fun r t => r.2 ≠ t.2
  /-- the ranges that end at a byte or before it come before all others, and so do those that begin before it -/
  searchable : ∀ x, (∀ r ∈ m.pieces.drop (endedBy x m.pieces), ¬ r.1.stop ≤ x) ∧
    ∀ r ∈ m.pieces.drop (begunBy x m.pieces), ¬ r.1.offset < x
  /-- assigning in the table never faults; it gives the table of the next map and the parts of the span -/
  table : ∀ (span : ByteSpan) (v : α),
    Ranges.assign n span v m.pieces = .ok ((m.assign span v).1.pieces, m.overlapping span)
  /-- what can go wrong in writing does not -/
  check : ∀ (span : ByteSpan) (v : α) (part : ByteSpan), span.clamp n = some part → m.check part v = .ok ()
  /-- assigning to a span sets its bytes and no others -/
  value : ∀ (span : ByteSpan) (v : α) (i : Nat), i < n →
    valueAt (m.assign span v).1.pieces i = if span.contains i = true then some v else valueAt m.pieces i
  /-- assigning gives back the parts of the span -/
  previous : ∀ (span : ByteSpan) (v : α), (m.assign span v).2 = m.overlapping span
  /-- the parts of a span are the ranges cut to it -/
  parts : ∀ span : ByteSpan, m.overlapping span = m.pieces.filterMap (cut span)
  /-- they follow each other from the first byte of the span to its last one inside the map -/
  together : ∀ span : ByteSpan, span.offset < n → 0 < span.size →
    Adjoin span.offset (m.overlapping span) (min (span.offset + span.size) n)
  /-- the map claims a value if it has bytes and all of them have it -/
  uniform : ∀ v, m.uniform? = some v ↔ 0 < n ∧ ∀ i < n, valueAt m.pieces i = some v

theorem Kept.faithful (h : Kept n m) (hmax : n ≤ maxWord64) : Faithful n m := by
  have hlength := h.length
  have hmax' : len m ≤ maxWord64 := hlength ▸ hmax
  have hprevious : ∀ span v, (m.assign span v).2 = m.overlapping span := by
    intro span v
    cases hclamp : span.clamp (len m) <;> simp only [ByteMap.assign, overlapping, hclamp]
  refine
    { length := hlength
      adjoin := ?_
      differ := isChain_pieces h.joined
      searchable := fun x => ⟨not_ended h.dense hmax' x, not_begun h.dense x⟩
      table := fun span v => ?_
      check := fun span v part hclamp => check_buffer v hmax (h.inside_clamp (hlength.symm ▸ hclamp)) h.sized
      value := fun span v i hi => ?_
      previous := hprevious
      parts := h.overlapping_eq hmax
      together := h.adjoin_overlapping
      uniform := fun v => ?_ }
  · have hadjoin := adjoin_piecesFrom h.dense 0
    rwa [Nat.zero_add, hlength] at hadjoin
  · rw [← hprevious span v, ← hlength]
    exact assign_pieces h.dense hmax' span v
  · rw [valueAt_pieces, valueAt_pieces, h.values_assign span v hi]
  · simp only [valueAt_pieces]
    exact h.uniform_iff v

/-- **A byte map is faithful and canonical.** After any assignments to at most as many bytes as a word counts, its table
is in order, every further call does what it should, and any map after assignments that is the same function from bytes
to values is the same map. -/
theorem assigned_faithful (hmax : n ≤ maxWord64) (a : α) (calls : List (ByteSpan × α)) :
    Faithful n (assigned n a calls) ∧
      ∀ b calls', (∀ i < n, valueAt (assigned n b calls').pieces i = valueAt (assigned n a calls).pieces i) →
        assigned n b calls' = assigned n a calls :=
  ⟨(kept_assigned n a calls).faithful hmax, fun b calls' =>
    (kept_assigned n a calls).eq_of_valueAt (kept_assigned n b calls')⟩

end Assigned

/-- spans up to the last byte and past it, an empty one, and one that lies outside -/
theorem assigned_faithful_largest :
    let m := assigned maxWord64 0
      [(⟨maxWord64 - 4, maxWord64⟩, 1), (⟨8, 0⟩, 2), (⟨maxWord64 - 8, 4⟩, 1), (⟨maxWord64, 1⟩, 3)]
    Faithful maxWord64 m ∧ m.pieces = [(⟨0, maxWord64 - 8⟩, 0), (⟨maxWord64 - 8, 8⟩, 1)] :=
  ⟨(assigned_faithful le_rfl 0 _).1, by decide⟩

end ByteMap

end FrameGraph
