/-
What a store says about each address.

`values` reads a store as the list of its values by address. A store that fits its bounds (`Sized`) has one value for
each address, and a byte map has no empty runs.

- `getElem?_values_write`: writing a part replaces the values of its addresses and no others.
- `values_of_uniform`: a store that claims one value has it everywhere.
- `Tiles`: a list of parts with values is an exact account of a partial map from addresses to values: each address the
  map has is in exactly one part, which carries its value, and no other address is in any. It is counted, so that it
  survives reordering.
- `Tiles.eq_of_mem`, `Tiles.tail`: reading an account, and taking its first part away.
- `tiles_slice`, `tiles_filled`: cutting a part out of a store, and listing what a store holds, are exact accounts. The
  second needs cell numbers to fit a 32-bit word (`Numbered`), and cannot do without (`numbered_iff`).
-/
import FrameGraph.Proofs.Region.Parts

namespace FrameGraph

variable {α β γ : Type}

/-- if only the element at index `i` is kept, the index list keeps at most that one -/
theorem filterMap_mapIdx_of_unique {l : List α} {f : Nat → α → β} {q : β → Option γ} {i : Nat}
    (h : ∀ j x, l[j]? = some x → j ≠ i → q (f j x) = none) :
    (l.mapIdx f).filterMap q = (l[i]?.bind fun x => q (f i x)).toList := by
  induction l generalizing f i with
  | nil => rfl
  | cons a l ih =>
    rw [List.mapIdx_cons, List.filterMap_cons]
    cases i with
    | zero =>
      have hrest : (l.mapIdx fun j => f (j + 1)).filterMap q = [] := by
        rw [List.filterMap_eq_nil_iff]
        intro y hy
        obtain ⟨j, hj, rfl⟩ := List.mem_mapIdx.1 hy
        exact h (j + 1) _ (List.getElem?_eq_getElem hj) (Nat.succ_ne_zero j)
      rw [hrest, List.getElem?_cons_zero, Option.bind_some]
      cases q (f 0 a) <;> rfl
    | succ i =>
      rw [h 0 a rfl (Nat.succ_ne_zero i).symm, List.getElem?_cons_succ,
        ih fun j x hj hne => h (j + 1) x hj fun e => hne (Nat.succ.inj e)]

/-- if only the element at index `i` can satisfy `q`, the index list counts at most that one -/
theorem countP_mapIdx_of_unique {l : List α} {f : Nat → α → β} {q : β → Bool} {i : Nat}
    (h : ∀ j x, q (f j x) = true → j = i) :
    (l.mapIdx f).countP q = if l[i]?.any (fun x => q (f i x)) = true then 1 else 0 := by
  rw [List.countP_eq_length_filter, ← List.filterMap_eq_filter,
    filterMap_mapIdx_of_unique (i := i) fun j x _ hne => if_neg fun hq => hne (h j x hq)]
  cases l[i]? with
  | none => rfl
  | some x => cases hq : q (f i x) <;> simp [Option.guard, hq]

/-! ## Runs of bytes -/

namespace ByteMap

/-- no run is empty -/
def Dense (m : ByteMap α) : Prop := ∀ r ∈ m, 0 < r.size

theorem dense_fill (n : Nat) (a : α) : Dense (fill n a) := by
  unfold fill
  split
  · simp [Dense]
  · rename_i h
    simpa [Dense] using Nat.pos_of_ne_zero h

theorem dense_keep {m : ByteMap α} (h : Dense m) (n : Nat) : Dense (m.keep n) := by
  induction m generalizing n with
  | nil => exact h
  | cons r rs ih =>
    unfold keep
    split
    · simp [Dense]
    · split
      · rename_i hn _
        simpa [Dense] using Nat.pos_of_ne_zero hn
      · intro x hx
        rcases List.mem_cons.1 hx with rfl | hx
        · exact h x List.mem_cons_self
        · exact ih (fun y hy => h y (List.mem_cons_of_mem _ hy)) _ x hx

theorem dense_skip {m : ByteMap α} (h : Dense m) (n : Nat) : Dense (m.skip n) := by
  induction m generalizing n with
  | nil => exact h
  | cons r rs ih =>
    have hrs : Dense rs := fun y hy => h y (List.mem_cons_of_mem _ hy)
    unfold skip
    split
    · intro x hx
      rcases List.mem_cons.1 hx with rfl | hx
      · exact Nat.sub_pos_of_lt ‹_›
      · exact hrs x hx
    · exact ih hrs _

theorem dense_push [DecidableEq α] {r : Run α} {m : ByteMap α} (hr : 0 < r.size) (h : Dense m) :
    Dense (push r m) := by
  cases m with
  | nil => simpa [Dense, push] using hr
  | cons s rs =>
    rw [push]
    split
    · intro x hx
      rcases List.mem_cons.1 hx with rfl | hx
      · exact Nat.add_pos_left hr _
      · exact h x (List.mem_cons_of_mem _ hx)
    · intro x hx
      rcases List.mem_cons.1 hx with rfl | hx
      · exact hr
      · exact h x hx

theorem dense_fuse [DecidableEq α] {m : ByteMap α} (h : Dense m) : Dense (fuse m) := by
  induction m with
  | nil => exact h
  | cons r rs ih =>
    exact dense_push (h r List.mem_cons_self) (ih fun y hy => h y (List.mem_cons_of_mem _ hy))

/-- putting a span in place of what it covers leaves no empty run -/
theorem dense_splice {m : ByteMap α} {span : ByteSpan} (a : α) (hp : 0 < span.size) (h : Dense m) :
    Dense (m.keep span.offset ++ ⟨span.size, a⟩ :: m.skip (span.offset + span.size)) := by
  intro x hx
  rcases List.mem_append.1 hx with hx | hx
  · exact dense_keep h _ x hx
  · rcases List.mem_cons.1 hx with rfl | hx
    · exact hp
    · exact dense_skip h _ x hx

theorem dense_write [DecidableEq α] {m : ByteMap α} {span : ByteSpan} (a : α) (hp : 0 < span.size) (h : Dense m) :
    Dense (m.write span a) := dense_fuse (dense_splice a hp h)

theorem mem_piecesFrom {m : ByteMap α} (h : Dense m) {start : Nat} {x : ByteSpan × α}
    (hx : x ∈ piecesFrom start m) :
    0 < x.1.size ∧ start ≤ x.1.offset ∧ x.1.offset + x.1.size ≤ start + m.values.length := by
  induction m generalizing start with
  | nil => cases hx
  | cons r rs ih =>
    rw [values, List.length_append, List.length_replicate]
    rcases List.mem_cons.1 hx with rfl | hx
    · have := h r List.mem_cons_self
      refine ⟨this, ?_, ?_⟩ <;> simp only <;> omega
    · have := ih (fun y hy => h y (List.mem_cons_of_mem _ hy)) hx
      omega

/-- each byte of the map is in one piece, with its value -/
theorem countP_piecesFrom [DecidableEq α] (m : ByteMap α) (start i : Nat) (a : α) :
    (piecesFrom start m).countP (fun x => decide (x.2 = a) && x.1.contains i) =
      if start ≤ i ∧ m.values[i - start]? = some a then 1 else 0 := by
  induction m generalizing start with
  | nil => simp [piecesFrom, values]
  | cons r rs ih =>
    rw [piecesFrom, List.countP_cons, ih, values, List.getElem?_append, List.length_replicate]
    by_cases h1 : start ≤ i
    · by_cases h2 : i < start + r.size
      · have h3 : ¬ start + r.size ≤ i := by omega
        have h4 : i - start < r.size := by omega
        simp [ByteSpan.contains, h1, h2, h3, h4]
      · have h3 : start + r.size ≤ i := by omega
        have h4 : ¬ i - start < r.size := by omega
        simp [ByteSpan.contains, h1, h2, h3, h4, Nat.sub_sub]
    · have h3 : ¬ start + r.size ≤ i := by omega
      simp [ByteSpan.contains, h1, h3]

theorem values_slice (span : ByteSpan) (m : ByteMap α) :
    ((m.skip span.offset).keep span.size).values = (m.values.drop span.offset).take span.size := by
  rw [values_keep, values_skip]

end ByteMap

/-! ## Stores that fit -/

namespace ResourceKind

variable {k : ResourceKind} [DecidableEq α]

/-- one value for each address, and no empty runs -/
def Sized : (k : ResourceKind) → k.Bounds → k.Store α → Prop
  | texture, e, s => List.length s = e.cells
  | buffer, n, s => (ByteMap.values s).length = n ∧ ByteMap.Dense s

/-- every address has a number that fits a 32-bit word, where such numbers are used -/
def Numbered : (k : ResourceKind) → k.Bounds → Prop
  | texture, e => e.cells ≤ maxWord32 + 1
  | buffer, _ => True

omit [DecidableEq α] in
theorem length_values {b : k.Bounds} {s : k.Store α} (h : k.Sized b s) : (k.values s).length = k.size b := by
  cases k with
  | texture => exact h
  | buffer => exact h.1

omit [DecidableEq α] in
theorem sized_fill (b : k.Bounds) (a : α) : k.Sized b (k.fill b a) := by
  cases k with
  | texture => exact List.length_replicate
  | buffer => exact ⟨by rw [fill, ByteMap.values_fill, List.length_replicate], ByteMap.dense_fill b a⟩

theorem sized_write {b : k.Bounds} {p : k.Part} {s : k.Store α} (a : α) (hp : k.Inside b p) (h : k.Sized b s) :
    k.Sized b (k.write b p a s) := by
  cases k with
  | texture => exact (Grid.length_write b p a s).trans h
  | buffer =>
    obtain ⟨h1, h2⟩ := hp
    have hl : (ByteMap.values s).length = b := h.1
    refine ⟨?_, ByteMap.dense_write a h1 h.2⟩
    rw [write, ByteMap.values_write, List.length_append, List.length_append, List.length_take, List.length_drop,
      List.length_replicate, hl, Nat.min_eq_left (by omega)]
    omega

theorem getElem?_values_write {b : k.Bounds} {p : k.Part} {s : k.Store α} {a : α} {i : Nat} (hp : k.Inside b p)
    (h : k.Sized b s) (hi : i < k.size b) :
    (k.values (k.write b p a s))[i]? = if k.holds b p i = true then some a else (k.values s)[i]? := by
  cases k with
  | texture =>
    have hl : i < List.length s := lt_of_lt_of_eq hi (Eq.symm h)
    have hw : (Grid.write b p a s)[i]? = some (if texture.holds b p i = true then a else s[i]) := by
      rw [Grid.getElem?_write, List.getElem?_eq_getElem hl]
      rfl
    refine hw.trans ?_
    rw [apply_ite some, ← List.getElem?_eq_getElem hl]
    rfl
  | buffer =>
    obtain ⟨h1, h2⟩ := hp
    have hl : (ByteMap.values s).length = b := h.1
    have hn : i < b := hi
    simp only [values, write, ByteMap.values_write, holds_buffer]
    rw [List.append_assoc, List.getElem?_append, List.length_take, hl, Nat.min_eq_left (by omega)]
    split
    · rw [List.getElem?_take_of_lt ‹_›, if_neg (by omega)]
    · rw [List.getElem?_append, List.length_replicate]
      split
      · rw [List.getElem?_replicate, if_pos ‹_›, if_pos (by omega)]
      · rw [List.getElem?_drop, if_neg (by omega)]
        congr 1
        omega

theorem values_of_uniform {b : k.Bounds} {s : k.Store α} {a : α} {i : Nat} (h : k.Sized b s)
    (hu : k.uniform? s = some a) (hi : i < k.size b) : (k.values s)[i]? = some a := by
  have hl : i < (k.values s).length := lt_of_lt_of_eq hi (length_values h).symm
  rw [List.getElem?_eq_getElem hl, Option.some_inj]
  cases k with
  | texture => exact (Grid.uniform?_eq_some_iff.1 hu).2 _ (List.getElem_mem hl)
  | buffer =>
    have hm : ∀ v ∈ ByteMap.values s, v = a := by
      simp only [uniform?, ByteMap.uniform?] at hu
      split at hu
      · cases hu
        simp [ByteMap.values]
      · cases hu
    exact hm _ (List.getElem_mem hl)

/-! ## Exact accounts -/

/-- the parts of the list account for a partial map from addresses to values, each address once -/
structure Tiles (b : k.Bounds) (f : Nat → Option α) (l : List (Option k.Part × α)) : Prop where
  inside : ∀ x ∈ l, ∀ p, x.1 = some p → k.Inside b p
  count : ∀ i a, l.countP (fun x => decide (x.2 = a) && k.reaches b x.1 i) = if f i = some a then 1 else 0

/-- an account by parts that fit, checked at the addresses there are -/
theorem Tiles.ofParts {b : k.Bounds} {f : Nat → Option α} {l : List (k.Part × α)}
    (hin : ∀ x ∈ l, k.Inside b x.1) (hf : ∀ i, ¬ i < k.size b → f i = none)
    (h : ∀ i < k.size b, ∀ a,
      l.countP (fun x => decide (x.2 = a) && k.holds b x.1 i) = if f i = some a then 1 else 0) :
    Tiles b f (l.map fun (p, a) => (some p, a)) := by
  refine ⟨fun x hx p hp => ?_, fun i a => ?_⟩
  · obtain ⟨y, hy, rfl⟩ := List.mem_map.1 hx
    cases hp
    exact hin y hy
  · rw [List.countP_map]
    by_cases hi : i < k.size b
    · rw [← h i hi a]
      refine List.countP_congr fun x _ => ?_
      simp [reaches_some, hi]
    · rw [hf i hi, if_neg (by simp), List.countP_eq_zero]
      intro x _
      simp [reaches_some, hi]

/-- a part of an exact account carries the value of each of its addresses -/
theorem Tiles.eq_of_mem {b : k.Bounds} {f : Nat → Option α} {l : List (Option k.Part × α)} (h : Tiles b f l)
    {x : Option k.Part × α} (hx : x ∈ l) {i : Nat} (hi : k.reaches b x.1 i = true) : f i = some x.2 := by
  have hpos : 0 < l.countP fun y => decide (y.2 = x.2) && k.reaches b y.1 i :=
    List.countP_pos_iff.2 ⟨x, hx, by simp [hi]⟩
  rw [h.count] at hpos
  by_contra hf
  rw [if_neg hf] at hpos
  exact Nat.lt_irrefl 0 hpos

/-- an address that has a value is in a part with this value -/
theorem Tiles.exists_mem {b : k.Bounds} {f : Nat → Option α} {l : List (Option k.Part × α)} (h : Tiles b f l) {i : Nat}
    {a : α} (hf : f i = some a) : ∃ x ∈ l, x.2 = a ∧ k.reaches b x.1 i = true := by
  have hpos : 0 < l.countP fun y => decide (y.2 = a) && k.reaches b y.1 i := by
    rw [h.count, if_pos hf]
    exact Nat.one_pos
  obtain ⟨x, hx, hxa⟩ := List.countP_pos_iff.1 hpos
  rw [Bool.and_eq_true, decide_eq_true_eq] at hxa
  exact ⟨x, hx, hxa⟩

/-- the rest of an exact account is an exact account of what the first part does not have -/
theorem Tiles.tail {b : k.Bounds} {f : Nat → Option α} {x : Option k.Part × α} {l : List (Option k.Part × α)}
    (h : Tiles b f (x :: l)) : Tiles b (fun i => if k.reaches b x.1 i = true then none else f i) l := by
  refine ⟨fun y hy => h.inside y (List.mem_cons_of_mem _ hy), fun i a => ?_⟩
  have hc := h.count i a
  rw [List.countP_cons] at hc
  by_cases hx : k.reaches b x.1 i = true
  · rw [h.eq_of_mem List.mem_cons_self hx] at hc
    rw [if_pos hx]
    by_cases ha : x.2 = a
    · simpa [hx, ha] using hc
    · simpa [ha] using hc
  · rw [if_neg hx]
    simpa [hx] using hc

/-! ## Cutting and listing -/

theorem inside_address {e : Extent} {i : Nat} (h : i < e.cells) : texture.Inside e (e.address i) := by
  have hc := cell_lt h
  exact ⟨⟨Nat.one_pos, hc.1⟩, Nat.one_pos, hc.2⟩

/-- two cell numbers inside a texture name the same cell only if they are equal -/
theorem holds_address {e : Extent} {i j : Nat} (hi : i < e.cells) :
    texture.holds e (e.address j) i = true ↔ j = i := by
  have hc := cell_lt hi
  rw [holds_texture]
  simp only [Extent.address, Subresources.cell, Subresources.ofMips]
  constructor
  · rintro ⟨h1, h2⟩
    have e1 : i % e.mips = j % e.mips := by omega
    have e2 : i / e.mips = j / e.mips := by omega
    calc j = e.mips * (j / e.mips) + j % e.mips := (Nat.div_add_mod j e.mips).symm
      _ = e.mips * (i / e.mips) + i % e.mips := by rw [e1, e2]
      _ = i := Nat.div_add_mod i e.mips
  · rintro rfl
    omega

/-- **Cutting a part out of a store** gives its addresses with their values. -/
theorem tiles_slice {b : k.Bounds} {p : k.Part} {s : k.Store α} (hp : k.Inside b p) (h : k.Sized b s) :
    Tiles b (fun i => if k.reaches b (some p) i = true then (k.values s)[i]? else none)
      ((k.slice b p s).map fun (q, a) => (some q, a)) := by
  cases k with
  | texture =>
    refine Tiles.ofParts (fun x hx => ?_) (fun i hi => if_neg fun hr => hi (lt_size_of_reaches hr)) fun i hi a => ?_
    · obtain ⟨j, hj, rfl⟩ := List.mem_mapIdx.1 (List.mem_filter.1 hx).1
      exact inside_address (lt_of_lt_of_eq hj h)
    · have hl : i < List.length s := lt_of_lt_of_eq hi (Eq.symm h)
      have hself : texture.holds b (b.address i) i = true := (holds_address hi).2 rfl
      have hpart : p.contains (b.address i).baseMip (b.address i).baseLayer = texture.holds b p i := rfl
      have hreach : texture.reaches b (some p) i = texture.holds b p i := by
        rw [reaches_some, decide_eq_true hi, Bool.true_and]
      simp only [slice, Grid.slice, Grid.pieces, List.countP_filter]
      rw [countP_mapIdx_of_unique (i := i) fun j x hq => ?_]
      · refine if_congr ?_ rfl rfl
        simp only [hreach, values, hself, hpart, List.getElem?_eq_getElem hl, Option.any_some, Bool.and_true]
        cases texture.holds b p i <;> simp
      · simp only [Bool.and_eq_true] at hq
        exact (holds_address hi).1 hq.1.2
  | buffer =>
    obtain ⟨h1, h2⟩ := hp
    have hl : (ByteMap.values s).length = b := h.1
    have hv := ByteMap.values_slice p s
    refine Tiles.ofParts (fun x hx => ?_) (fun i hi => if_neg fun hr => hi (lt_size_of_reaches hr)) fun i hi a => ?_
    · obtain ⟨m1, m2, m3⟩ := ByteMap.mem_piecesFrom (ByteMap.dense_keep (ByteMap.dense_skip h.2 _) _) hx
      rw [hv, List.length_take, List.length_drop, hl] at m3
      exact ⟨m1, by omega⟩
    · have hn : i < b := hi
      refine (ByteMap.countP_piecesFrom _ _ _ _).trans (if_congr ?_ rfl rfl)
      rw [hv, List.getElem?_take, List.getElem?_drop, reaches_some, decide_eq_true hi, Bool.true_and]
      by_cases hin : buffer.holds b p i = true
      · have hs := holds_buffer.1 hin
        rw [if_pos hin, if_pos (by omega), Nat.add_sub_cancel' hs.1]
        exact and_iff_right hs.1
      · rw [if_neg hin]
        rw [holds_buffer] at hin
        by_cases ho : p.offset ≤ i
        · rw [if_neg (by omega)]
          exact and_iff_right ho
        · simp [ho]

/-- **Listing a store** gives the addresses that hold something, as long as cell numbers fit a word. -/
theorem tiles_filled {b : k.Bounds} {s : k.Store (Option α)} (hn : k.Numbered b) (h : k.Sized b s) :
    Tiles b (fun i => ((k.values s)[i]?).join) ((k.filled b s).map fun (p, a) => (some p, a)) := by
  have hnone : ∀ i, ¬ i < k.size b → ((k.values s)[i]?).join = none := by
    intro i hi
    rw [List.getElem?_eq_none (by rw [length_values h]; omega), Option.join_none]
  cases k with
  | texture =>
    have hl : List.length s = b.cells := h
    have hw : b.cells ≤ maxWord32 + 1 := hn
    have hf : texture.filled b s = (s.mapIdx fun i c => c.map (b.address i, ·)).filterMap id := by
      simp only [filled, Grid.filled]
      congr 1
      refine List.mapIdx_eq_mapIdx_iff.2 fun i hi => ?_
      rw [Nat.mod_eq_of_lt (by omega)]
    rw [hf]
    refine Tiles.ofParts (fun x hx => ?_) hnone fun i hi a => ?_
    · obtain ⟨y, hy, hyx⟩ := List.mem_filterMap.1 hx
      obtain ⟨j, hj, rfl⟩ := List.mem_mapIdx.1 hy
      obtain ⟨c, hc, rfl⟩ := Option.map_eq_some_iff.1 hyx
      exact inside_address (by omega)
    · rw [List.countP_filterMap, countP_mapIdx_of_unique (i := i) fun j x hq => ?_]
      · refine if_congr ?_ rfl rfl
        have hself : texture.holds b (b.address i) i = true := (holds_address hi).2 rfl
        have hi' : i < List.length s := lt_of_lt_of_eq hi hl.symm
        simp only [values, List.getElem?_eq_getElem hi', Option.any_some, id]
        cases s[i] <;> simp [hself]
      · cases x with
        | none => simp at hq
        | some x =>
          simp only [id, Option.map_some, Option.getD_some, Bool.and_eq_true] at hq
          exact (holds_address hi).1 hq.2
  | buffer =>
    refine Tiles.ofParts (fun x hx => ?_) hnone fun i hi a => ?_
    · obtain ⟨y, hy, hyx⟩ := List.mem_filterMap.1 hx
      obtain ⟨c, hc, rfl⟩ := Option.map_eq_some_iff.1 hyx
      obtain ⟨m1, m2, m3⟩ := ByteMap.mem_piecesFrom h.2 hy
      rw [h.1, Nat.zero_add] at m3
      exact ⟨m1, m3⟩
    · have hq : ∀ y : ByteSpan × Option α,
          ((y.2.map (y.1, ·)).map fun x => decide (x.2 = a) && buffer.holds b x.1 i).getD false =
            (decide (y.2 = some a) && y.1.contains i) := by
        rintro ⟨r, c⟩
        cases c <;> simp [holds]
      simp only [filled, List.countP_filterMap, hq]
      refine (ByteMap.countP_piecesFrom _ _ _ _).trans (if_congr ?_ rfl rfl)
      rw [Option.join_eq_some_iff]
      exact and_iff_right (Nat.zero_le i)

/-- **The word is a true bound.** Past it a cell that holds something can be listed in the place of another. -/
theorem numbered_iff (a : α) {b : k.Bounds} :
    k.Numbered b ↔ ∀ s : k.Store (Option α), k.Sized b s →
      Tiles b (fun i => ((k.values s)[i]?).join) ((k.filled b s).map fun (p, a) => (some p, a)) := by
  refine ⟨fun hn s hs => tiles_filled hn hs, fun h => ?_⟩
  cases k with
  | texture =>
    by_contra hn
    have hw : maxWord32 + 1 < b.cells := Nat.lt_of_not_le hn
    let cells : List (Option α) := (List.replicate b.cells none).set (maxWord32 + 1) (some a)
    have hl : cells.length = b.cells := by
      rw [List.length_set, List.length_replicate]
    have hmem : (b.address 0, a) ∈ Grid.filled b cells := by
      refine List.mem_filterMap.2 ⟨some (b.address 0, a), List.mem_mapIdx.2 ⟨maxWord32 + 1, hl ▸ hw, ?_⟩, rfl⟩
      rw [List.getElem_set_self, Option.map_some, Nat.mod_self]
    have hpos : 0 < b.cells := Nat.zero_lt_of_lt hw
    have hreach : texture.reaches b (some (b.address 0)) 0 = true := by
      rw [reaches_some, (holds_address hpos).2 rfl, Bool.and_true]
      exact decide_eq_true hpos
    have hzero : (cells[0]?).join = some a := (h cells hl).eq_of_mem (List.mem_map.2 ⟨_, hmem, rfl⟩) hreach
    rw [List.getElem?_set_ne (Nat.succ_ne_zero maxWord32), List.getElem?_replicate_of_lt hpos] at hzero
    cases hzero
  | buffer => exact trivial

end ResourceKind

end FrameGraph
