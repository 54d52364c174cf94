/-
The tracker of a buffer is a map from bytes to states.

Whether the tracker holds one state or a table of ranges, its states are a byte map (`store`) whose ranges are not
empty, follow each other and differ from their neighbours, so the facts about byte maps are facts about it.

- `pieces_eq`, `piecesOf_eq_ranges`, `states_eq`: the ranges, the parts of a span and their states are those of the byte
  map.
- `FollowsBytes`: what the tracker says, word for word, in terms of a map from bytes to states.
- `performAll_followsBytes`: a new tracker of a buffer of any length follows the map through any calls, and after two
  writes that overlap its ranges are those of the splitting law (`splitRanges`).
-/
import FrameGraph.Proofs.RangeMaps
import FrameGraph.Proofs.TrackerCalls

namespace FrameGraph

open ResourceKind Ranges

/-! ## Joined maps -/

namespace ByteMap

variable {α : Type} [DecidableEq α]

/-- there is nothing to join where neighbours differ -/
theorem fuse_of_isChain {m : ByteMap α} (h : m.IsChain fun r t => r.value ≠ t.value) : fuse m = m := by
  induction m with
  | nil => rfl
  | cons r rs ih =>
    cases rs with
    | nil => rfl
    | cons t ts =>
      obtain ⟨hne, hrest⟩ := List.isChain_cons_cons.1 h
      rw [fuse, ih hrest, push, if_neg hne]

/-- the runs of a map that is not joined, joined -/
theorem kept_fuse {m : ByteMap α} (h : Dense m) : Kept (len m) (fuse m) := by
  refine ⟨dense_fuse h, ?_, fuse_of_isChain (isChain_fuse m)⟩
  rw [← length_values, values_fuse, length_values]

omit [DecidableEq α] in
/-- a span inside a map of one run is one piece of it -/
theorem slice_fill {n : Nat} {span : ByteSpan} (h : buffer.Inside n span) (a : α) :
    (fill n a).slice span = [(span, a)] := by
  obtain ⟨hpos, hend⟩ := h
  have hn : n ≠ 0 := by omega
  have hskip : (fill n a).skip span.offset = [⟨n - span.offset, a⟩] := by
    rw [fill, if_neg hn, skip, if_pos (by simp only; omega)]
  rw [slice, hskip, keep, if_neg (Nat.ne_of_gt hpos)]
  split
  · rfl
  · rename_i hle
    have hsize : n - span.offset = span.size := by
      simp only at hle
      omega
    rw [hsize, Nat.sub_self, keep]
    rfl

end ByteMap

/-! ## Trackers of buffers -/

/-- the tracker of a buffer of `n` bytes says of the buffer what a map from bytes to states says of it -/
structure FollowsBytes (n : Nat) (f : Nat → ResourceState) (t : Tracker .buffer) : Prop where
  bounds : t.bounds = n
  /-- the ranges are not empty and follow each other from byte 0 to byte `n` -/
  adjoin : Adjoin 0 t.pieces n
  /-- each byte is in a range of its state -/
  value : ∀ i < n, valueAt t.pieces i = some (f i)
  /-- neighbours are in different states -/
  differ : t.pieces.IsChain fun r r' => r.2 ≠ r'.2
  /-- the buffer is split if and only if two of its bytes differ -/
  split : (∃ m, t.content = .split m) ↔ ∃ i < n, ∃ j < n, f i ≠ f j
  /-- moving all of a buffer that has bytes and is in another state as a whole reports one change, without a part -/
  whole_change : ∀ part s after, 0 < n → (∀ i < n, (part.all fun p => p.contains i) = true) →
    t.whole? = some s → s ≠ after →
    t.perform (.transition part after) = .ok (.uniform n after, [⟨none, s⟩])
  /-- any other transition reports the ranges that were in another state, cut to the part -/
  range_changes : ∀ part after,
    ¬ (0 < n ∧ (∀ i < n, (part.all fun p => p.contains i) = true) ∧ ∃ s, t.whole? = some s ∧ s ≠ after) →
    ∃ t', t.perform (.transition part after) = .ok (t',
      ((t.pieces.filterMap (cut (part.getD ⟨0, n⟩))).filter fun r => r.2 ≠ after).map fun r => ⟨some r.1, r.2⟩)
  /-- the states of a part are those of the ranges cut to it -/
  states : ∀ part, t.states part = (t.pieces.filterMap (cut (part.getD ⟨0, n⟩))).map Prod.snd
  /-- the ranges cut to a span follow each other from its first byte to its last one inside the buffer -/
  together : ∀ span : ByteSpan, span.offset < n → 0 < span.size →
    Adjoin span.offset (t.pieces.filterMap (cut span)) (min (span.offset + span.size) n)
  /-- so they are in order and have no byte in common -/
  ordered : ∀ span : ByteSpan,
    (t.pieces.filterMap (cut span)).Pairwise fun r r' => r.1.offset + r.1.size ≤ r'.1.offset

namespace Tracker

variable {t : Tracker .buffer} {f : Nat → ResourceState}

theorem pieces_eq (t : Tracker .buffer) : t.pieces = ByteMap.pieces t.store := by
  obtain ⟨n, c⟩ := t
  cases c with
  | split m => rfl
  | whole s =>
    by_cases hn : n = 0
    · simp only [pieces, store, everything, fill, ByteMap.fill, hn]
      rfl
    · simp only [pieces, store, everything, fill, ByteMap.fill, if_neg hn]
      rfl

/-- the states of a tracker that follows a map are a joined byte map -/
theorem Tracks.kept (h : Tracks f t) : ByteMap.Kept t.bounds t.store := by
  have hsized : buffer.Sized t.bounds t.store := sized_store h.valid
  refine ⟨hsized.2, (ByteMap.length_values _).symm.trans hsized.1, ?_⟩
  obtain ⟨initial, hc⟩ := h.canonical
  obtain ⟨n, c⟩ := t
  cases c with
  | whole s => exact (ByteMap.kept_fill n s).joined
  | split m => exact (hc.joined m rfl).1

/-- the pieces of a part are those of a span of the byte map -/
theorem piecesOf_eq_overlapping (h : Tracks f t) (part : Option ByteSpan) :
    t.piecesOf part = ByteMap.overlapping t.store (part.getD ⟨0, t.bounds⟩) := by
  have hlength := h.kept.length
  cases part with
  | some p =>
    simp only [piecesOf, region, clamp, ByteMap.overlapping, Option.getD_some, hlength]
    cases p.clamp t.bounds <;> rfl
  | none =>
    simp only [ByteMap.overlapping, Option.getD_none, hlength]
    by_cases hn : t.bounds = (0 : Nat)
    · simp only [piecesOf, region, everything, hn, ByteSpan.clamp]
      rfl
    · have hclamp : (⟨0, t.bounds⟩ : ByteSpan).clamp t.bounds = some ⟨0, t.bounds⟩ := by
        refine ByteSpan.clamp_eq_some_iff.2 ⟨⟨Nat.pos_of_ne_zero hn, Nat.pos_of_ne_zero hn⟩, ?_⟩
        rw [Nat.sub_zero, Nat.min_self]
      simp only [piecesOf, region, everything, if_neg hn, hclamp]
      rfl

theorem piecesOf_eq_ranges (h : Tracks f t) (part : Option ByteSpan) :
    t.piecesOf part = t.pieces.filterMap (cut (part.getD ⟨0, t.bounds⟩)) := by
  rw [piecesOf_eq_overlapping h, pieces_eq]
  exact h.kept.overlapping_eq h.valid.measured _

theorem states_eq (h : Tracks f t) (part : Option ByteSpan) : t.states part = (t.piecesOf part).map Prod.snd := by
  obtain ⟨n, c⟩ := t
  cases hr : buffer.region n part with
  | none => simp only [states, piecesOf, hr, List.map_nil]
  | some p =>
    cases c with
    | split m =>
      simp only [states, piecesOf, hr]
      rfl
    | whole s =>
      have hslice : buffer.slice n p (buffer.fill n s) = [(p, s)] :=
        ByteMap.slice_fill (inside_of_region h.valid.measured hr) s
      simp only [states, piecesOf, store, hr]
      rw [hslice]
      rfl

/-- the pieces of the ranges of a tracker that are in a span are those of a dense byte map -/
theorem Tracks.pieces_cut (h : Tracks f t) (span : ByteSpan) :
    t.pieces.filterMap (cut span) = ByteMap.overlapping t.store span := by
  rw [pieces_eq]
  exact (h.kept.overlapping_eq h.valid.measured span).symm

theorem Tracks.followsBytes (h : Tracks f t) : FollowsBytes t.bounds f t := by
  have hfaithful := h.kept.faithful h.valid.measured
  have hvalue : ∀ i < t.bounds, valueAt t.pieces i = some (f i) := fun i hi => by
    rw [pieces_eq, ByteMap.valueAt_pieces]
    exact (getElem?_store (k := .buffer) hi).trans (h.stateAt i hi)
  refine
    { bounds := rfl
      adjoin := pieces_eq t ▸ hfaithful.adjoin
      value := hvalue
      differ := pieces_eq t ▸ hfaithful.differ
      split := h.split_iff
      whole_change := fun part s after hz hall hwhole hne => ?_
      range_changes := fun part after hno => ?_
      states := fun part => ?_
      together := fun span hoffset hpos => ?_
      ordered := fun span => ?_ }
  · rw [perform_transition h.valid, report_of_whole h.valid ⟨⟨hz, hall⟩, hwhole, hne⟩]
  · refine ⟨(t.transition part after).1, (perform_transition h.valid).trans ?_⟩
    rw [← piecesOf_eq_ranges h, ← report_of_piecesOf h.valid]
    rintro ⟨s, ⟨hz, hall⟩, hwhole, hne⟩
    exact hno ⟨hz, hall, s, hwhole, hne⟩
  · rw [states_eq h, piecesOf_eq_ranges h]
  · rw [h.pieces_cut]
    exact h.kept.adjoin_overlapping span hoffset hpos
  · rw [h.pieces_cut, ByteMap.overlapping]
    split
    · exact List.Pairwise.nil
    · exact ByteMap.pairwise_piecesFrom (ByteMap.dense_keep (ByteMap.dense_skip h.kept.dense _) _) _

end Tracker

/-! ## The splitting law -/

namespace ByteMap

variable {α : Type} [DecidableEq α]

omit [DecidableEq α] in
/-- empty runs have no bytes and move no others -/
theorem piecesFrom_filter (m : ByteMap α) (start : Nat) :
    piecesFrom start (m.filter fun r => 0 < r.size) = (piecesFrom start m).filter fun r => 0 < r.1.size := by
  induction m generalizing start with
  | nil => rfl
  | cons r rs ih =>
    rw [piecesFrom, List.filter_cons, List.filter_cons]
    by_cases hr : 0 < r.size
    · rw [if_pos (decide_eq_true hr), if_pos (decide_eq_true hr), piecesFrom, ih]
    · rw [if_neg (by simpa using hr), if_neg (by simpa using hr), ih, Nat.eq_zero_of_not_pos hr, Nat.add_zero]

omit [DecidableEq α] in
theorem values_filter (m : ByteMap α) : values (m.filter fun r => 0 < r.size) = m.values := by
  induction m with
  | nil => rfl
  | cons r rs ih =>
    rw [List.filter_cons, values]
    split
    · rw [values, ih]
    · rename_i hr
      have hzero : r.size = 0 := by simpa using hr
      rw [ih, hzero, List.replicate_zero, List.nil_append]

omit [DecidableEq α] in
theorem dense_filter (m : ByteMap α) : Dense (m.filter fun r => 0 < r.size) := fun _ hr =>
  of_decide_eq_true (List.mem_filter.1 hr).2

end ByteMap

/-- two spans of `n` bytes that have a byte in common, the bytes from `a` to `b` and those from `c` to `d` -/
structure Overlap (n a b c d : Nat) : Prop where
  first : a < b ∧ b ≤ n
  second : c < d ∧ d ≤ n
  common : c < b ∧ a < d

/-- the runs of `n` bytes in a state after `s₁` was written from `a` to `b` and `s₂` from `c` to `d`: what the second
write has left of the first one stands around it, and what both have left of the rest around that -/
def splitRuns (n a b c d : Nat) (s s₁ s₂ : ResourceState) : ByteMap ResourceState :=
  [⟨min a c, s⟩, ⟨c - a, s₁⟩, ⟨d - c, s₂⟩, ⟨b - d, s₁⟩, ⟨n - max b d, s⟩].filter fun r => 0 < r.size

/-- these runs as ranges -/
def splitRanges (n a b c d : Nat) (s s₁ s₂ : ResourceState) : Ranges ResourceState :=
  [(⟨0, min a c⟩, s), (⟨a, c - a⟩, s₁), (⟨c, d - c⟩, s₂), (⟨d, b - d⟩, s₁),
    (⟨max b d, n - max b d⟩, s)].filter fun r => 0 < r.1.size

/-- write `s₁` to the bytes from `a` to `b`, then `s₂` to those from `c` to `d` -/
def writeTwice (a b c d : Nat) (s₁ s₂ : ResourceState) : List (Tracker.Call .buffer) :=
  [.transition (some (ByteSpan.mk a (b - a))) s₁, .transition (some (ByteSpan.mk c (d - c))) s₂]

section Splitting

variable {n a b c d : Nat} {s s₁ s₂ : ResourceState}

theorem pieces_splitRuns (h : Overlap n a b c d) :
    (splitRuns n a b c d s s₁ s₂).pieces = splitRanges n a b c d s s₁ s₂ := by
  obtain ⟨hab, hcd, hcommon⟩ := h
  have hc : min a c + (c - a) = c := by omega
  have hd : c + (d - c) = d := by omega
  have hbd : d + (b - d) = max b d := by omega
  rw [splitRuns, ByteMap.pieces, ByteMap.piecesFrom_filter]
  simp only [ByteMap.piecesFrom, splitRanges, Nat.zero_add, hc, hd, hbd]
  rcases Nat.lt_or_ge a c with hac | hca
  · rw [Nat.min_eq_left hac.le]
  · -- nothing is left of the first write before the second one, wherever that would begin
    have hnone : c - a = 0 := Nat.sub_eq_zero_of_le hca
    simp only [hnone, List.filter_cons, Nat.lt_irrefl, decide_false, Bool.false_eq_true, if_false]

theorem values_splitRuns (h : Overlap n a b c d) {i : Nat} (hi : i < n) :
    (splitRuns n a b c d s s₁ s₂).values[i]? =
      some (if c ≤ i ∧ i < d then s₂ else if a ≤ i ∧ i < b then s₁ else s) := by
  obtain ⟨hab, hcd, hcommon⟩ := h
  rw [splitRuns, ByteMap.values_filter]
  simp only [ByteMap.values, List.getElem?_append, List.length_replicate, List.getElem?_replicate, List.getElem?_nil]
  split_ifs <;> first | rfl | omega

theorem len_splitRuns (h : Overlap n a b c d) : ByteMap.len (splitRuns n a b c d s s₁ s₂) = n := by
  obtain ⟨hab, hcd, hcommon⟩ := h
  rw [← ByteMap.length_values, splitRuns, ByteMap.values_filter, ByteMap.length_values]
  simp only [ByteMap.len]
  omega

/-- of three different states no two that are the same are neighbours -/
theorem isChain_splitRuns (h : Overlap n a b c d) (h₁ : s₁ ≠ s) (h₂ : s₂ ≠ s) (h₁₂ : s₁ ≠ s₂) :
    (splitRuns n a b c d s s₁ s₂).IsChain fun r t => r.value ≠ t.value := by
  have hmiddle : 0 < d - c := Nat.sub_pos_of_lt h.second.1
  simp only [splitRuns, List.filter_cons, List.filter_nil, hmiddle, decide_true, if_true]
  split_ifs <;> simp [h₁, h₂, h₁₂, h₁.symm, h₂.symm, h₁₂.symm]

/-- **The splitting law.** The ranges of a buffer written twice are those the second write leaves, joined where states
are the same -/
theorem Tracker.Tracks.pieces_of_split {t : Tracker .buffer} {f : Nat → ResourceState} (ht : Tracks f t)
    (hbounds : t.bounds = n) (h : Overlap n a b c d)
    (hf : ∀ i < n, f i = if c ≤ i ∧ i < d then s₂ else if a ≤ i ∧ i < b then s₁ else s) :
    mergeAdjacent (splitRanges n a b c d s s₁ s₂) = .ok t.pieces ∧
      (s₁ ≠ s → s₂ ≠ s → s₁ ≠ s₂ → t.pieces = splitRanges n a b c d s s₁ s₂) := by
  subst hbounds
  let runs := splitRuns t.bounds a b c d s s₁ s₂
  have hlen : ByteMap.len runs = t.bounds := len_splitRuns h
  have hkept : ByteMap.Kept t.bounds (ByteMap.fuse runs) := hlen ▸ ByteMap.kept_fuse (ByteMap.dense_filter _)
  have hstore : t.store = ByteMap.fuse runs := by
    refine hkept.eq_of_valueAt ht.kept fun i hi => ?_
    rw [ByteMap.valueAt_pieces, ByteMap.valueAt_pieces, ByteMap.values_fuse, values_splitRuns h hi, ← hf i hi]
    exact (getElem?_store (k := .buffer) hi).trans (ht.stateAt i hi)
  have hmax : 0 + ByteMap.len runs ≤ maxWord64 := by
    rw [hlen, Nat.zero_add]
    exact ht.valid.measured
  rw [pieces_eq, hstore, ← pieces_splitRuns h]
  refine ⟨mergeAdjacent_pieces hmax, fun h₁ h₂ h₁₂ => ?_⟩
  rw [ByteMap.fuse_of_isChain (isChain_splitRuns h h₁ h₂ h₁₂)]

end Splitting

open Tracker

/-- **The tracker of a buffer is a map from bytes to states.** For any length and any calls, each call goes well and the
tracker follows the map they leave. After writes to two spans that overlap, the ranges of a new buffer are those of the
splitting law: joined where states are the same, and as they stand if the three states are different. -/
theorem performAll_followsBytes (size : UInt64) (initial : ResourceState) :
    let n := size.toNat
    (∀ calls : List (Call .buffer), ∃ t, (uniform n initial).performAll calls = .ok t ∧
      FollowsBytes n (Call.actAll (k := .buffer) n calls fun _ => initial) t) ∧
    ∀ a b c d s₁ s₂, Overlap n a b c d →
      ∃ t : Tracker .buffer, (uniform n initial).performAll (writeTwice a b c d s₁ s₂) = .ok t ∧
        mergeAdjacent (splitRanges n a b c d initial s₁ s₂) = .ok t.pieces ∧
        (s₁ ≠ initial → s₂ ≠ initial → s₁ ≠ s₂ → t.pieces = splitRanges n a b c d initial s₁ s₂) := by
  intro n
  have hmeasured : buffer.Measured n := Nat.le_of_lt_succ size.toNat_lt
  have hrun : ∀ calls : List (Call .buffer), ∃ t, (uniform n initial).performAll calls = .ok t ∧ t.bounds = n ∧
      Tracks (Call.actAll (k := .buffer) n calls fun _ => initial) t :=
    (tracks_uniform hmeasured initial).exists_performAll
  refine ⟨fun calls => ?_, fun a b c d s₁ s₂ hoverlap => ?_⟩
  · obtain ⟨t, hcalls, hbounds, ht⟩ := hrun calls
    exact ⟨t, hcalls, hbounds ▸ ht.followsBytes⟩
  · obtain ⟨t, hcalls, hbounds, ht⟩ := hrun (writeTwice a b c d s₁ s₂)
    refine ⟨t, hcalls, ht.pieces_of_split hbounds hoverlap fun i hi => ?_⟩
    obtain ⟨⟨hab, -⟩, ⟨hcd, -⟩, -⟩ := hoverlap
    have hspan : ∀ x y, x < y → ((x ≤ i ∧ i < x + (y - x)) ↔ x ≤ i ∧ i < y) := fun x y hxy => by omega
    simp only [Call.actAll, writeTwice, List.foldl_cons, List.foldl_nil, Call.act, Option.all_some, holds_buffer,
      hspan a b hab, hspan c d hcd]

/-- the law as it is told: a hundred bytes, and a hundred bytes from the middle of these on, of a larger buffer -/
theorem performAll_followsBytes_law :
    ∃ t : Tracker .buffer, (uniform (k := .buffer) (200 : Nat) .common).performAll
        (writeTwice 0 100 50 150 .copyDest .shaderResource) = .ok t ∧
      t.pieces = [(⟨0, 50⟩, .copyDest), (⟨50, 100⟩, .shaderResource), (⟨150, 50⟩, .common)] := by
  obtain ⟨t, hcalls, -, hlaw⟩ := (performAll_followsBytes 200 .common).2 0 100 50 150 .copyDest .shaderResource
    ⟨by decide, by decide, by decide⟩
  exact ⟨t, hcalls, (hlaw (by decide) (by decide) (by decide)).trans (by decide)⟩

end FrameGraph
