/-
What a demand asks of each address, and how it is served.

- `wantAt_ofList`: of the parts a demand is made from, the last one that has an address decides what is asked of it.
- `tiles_requests`: the parts to be moved are an exact account of what is asked. Where a demand is kept cell by cell the
  cell numbers have to fit a 32-bit word; a demand is kept so only if some part has some but not all addresses
  (`proper_of_ofList`).
- `stateAt_serve`, `countP_serve`: serving a demand leaves each address in the state asked of it, if any, and the
  changes are the exact difference to the states before.
- `want_of_mem_serve`: each change carries what is asked of its addresses.
-/
import FrameGraph.Proofs.Tracking
import FrameGraph.Plan.Barriers

namespace FrameGraph

open ResourceKind

variable {k : ResourceKind}

/-- the part has some but not all addresses -/
def ResourceKind.Proper (k : ResourceKind) (b : k.Bounds) (part : Option k.Part) : Prop :=
  ∃ p c, part = some p ∧ k.clamp b p = some c ∧ k.covers b c = false

namespace Demand

variable {b : k.Bounds} {d : Demand k} {part : Option k.Part} {w : Want k}

/-! ## What is asked -/

theorem wantAt_eq_none (hd : k.Sized b (d.store b)) {i : Nat} (hi : ¬ i < k.size b) : d.wantAt b i = none := by
  rw [wantAt, List.getElem?_eq_none (by rw [length_values hd]; omega), Option.join_none]

/-- asking for one more part: nothing new, everything, or one part of a store -/
theorem add_cases (b : k.Bounds) (d : Demand k) (part : Option k.Part) (w : Want k) :
    ((∀ i, k.reaches b part i = false) ∧ d.add b part w = d) ∨
    ((∀ i, k.reaches b part i = k.reaches b none i) ∧ d.add b part w = .whole w) ∨
    ∃ c, k.Proper b part ∧ k.Inside b c ∧ (∀ i, k.reaches b part i = k.reaches b (some c) i) ∧
      d.add b part w = .parts (k.write b c (some w) (d.store b)) := by
  cases part with
  | none => exact Or.inr (Or.inl ⟨fun _ => rfl, rfl⟩)
  | some p =>
    cases hc : k.clamp b p with
    | none => exact Or.inl ⟨fun i => @reaches_of_region_none k b (some p) hc i, by simp only [add, hc]⟩
    | some c =>
      have hr : ∀ i, k.reaches b (some p) i = k.reaches b (some c) i := by
        intro i
        rw [reaches_some, reaches_some]
        by_cases hi : i < k.size b
        · rw [holds_of_clamp hc hi]
        · rw [decide_eq_false hi, Bool.false_and, Bool.false_and]
      by_cases hv : k.covers b c = true
      · exact Or.inr (Or.inl ⟨fun i => (hr i).trans (reaches_of_covers hv i), by simp only [add, hc, if_pos hv]⟩)
      · exact Or.inr (Or.inr ⟨c, ⟨p, c, rfl, hc, by simpa using hv⟩, inside_of_clamp hc, hr,
          by simp only [add, hc, if_neg hv]⟩)

theorem sized_add (hd : k.Sized b (d.store b)) : k.Sized b ((d.add b part w).store b) := by
  rcases add_cases b d part w with ⟨-, e⟩ | ⟨-, e⟩ | ⟨c, -, hc, -, e⟩
  · rwa [e]
  · rw [e]
    exact sized_fill b (some w)
  · rw [e]
    exact sized_write (some w) hc hd

theorem wantAt_add (hd : k.Sized b (d.store b)) (i : Nat) :
    (d.add b part w).wantAt b i = if k.reaches b part i = true then some w else d.wantAt b i := by
  by_cases hi : i < k.size b
  · rcases add_cases b d part w with ⟨hr, e⟩ | ⟨hr, e⟩ | ⟨c, -, hc, hr, e⟩
    · rw [e, hr, if_neg Bool.false_ne_true]
    · rw [e, hr, reaches_none, decide_eq_true hi, if_pos rfl, wantAt, store, values_fill, List.getElem?_replicate,
        if_pos hi, Option.join_some]
    · rw [e, hr, wantAt, store, getElem?_values_write hc hd hi, reaches_some, decide_eq_true hi, Bool.true_and]
      split <;> rfl
  · rw [wantAt_eq_none (sized_add hd) hi, if_neg fun hr => hi (lt_size_of_reaches hr), wantAt_eq_none hd hi]

theorem sized_ofList (b : k.Bounds) (asked : List (Option k.Part × Want k)) :
    k.Sized b ((ofList b asked).store b) := by
  induction asked using List.reverseRecOn with
  | nil => exact sized_fill b none
  | append_singleton asked x ih =>
    rw [ofList, List.foldl_append]
    exact sized_add ih

/-- **The last part that has an address decides what is asked of it.** -/
theorem wantAt_ofList (b : k.Bounds) (asked : List (Option k.Part × Want k)) (i : Nat) :
    (ofList b asked).wantAt b i = (asked.findRev? fun x => k.reaches b x.1 i).map Prod.snd := by
  induction asked using List.reverseRecOn with
  | nil =>
    rw [ofList, List.foldl_nil, wantAt, store, values_fill, List.getElem?_replicate]
    split <;> rfl
  | append_singleton asked x ih =>
    have hl : ofList b (asked ++ [x]) = (ofList b asked).add b x.1 x.2 := by
      rw [ofList, List.foldl_append]
      rfl
    rw [hl, wantAt_add (sized_ofList b asked), ih, List.findRev?_eq_find?_reverse, List.findRev?_eq_find?_reverse,
      List.reverse_append, List.reverse_singleton, List.singleton_append, List.find?_cons]
    cases k.reaches b x.1 i <;> rfl

/-- a demand kept address by address was asked for a proper part -/
theorem proper_of_ofList {asked : List (Option k.Part × Want k)} {s : k.Store (Option (Want k))}
    (h : ofList b asked = .parts s) : ∃ x ∈ asked, k.Proper b x.1 := by
  induction asked using List.reverseRecOn generalizing s with
  | nil => cases h
  | append_singleton asked x ih =>
    rw [ofList, List.foldl_append] at h
    rcases add_cases b (ofList b asked) x.1 x.2 with ⟨-, e⟩ | ⟨-, e⟩ | ⟨c, hp, -⟩
    · obtain ⟨y, hy, hp⟩ := ih (e.symm.trans h)
      exact ⟨y, List.mem_append_left _ hy, hp⟩
    · cases e.symm.trans h
    · exact ⟨x, List.mem_append_right _ (List.mem_singleton_self x), hp⟩

/-! ## What is to be moved -/

/-- **The parts to be moved account for what is asked.** -/
theorem tiles_requests (hn : ∀ s, d = .parts s → k.Numbered b) (hd : k.Sized b (d.store b)) :
    Tiles b (d.wantAt b) (d.requests b) := by
  cases d with
  | nothing =>
    refine ⟨fun x hx => absurd hx List.not_mem_nil, fun i a => ?_⟩
    rw [wantAt, store, values_fill, List.getElem?_replicate, if_neg]
    · rfl
    · split <;> simp
  | whole w =>
    refine ⟨fun x hx p hp => ?_, fun i a => ?_⟩
    · rw [List.mem_singleton.1 hx] at hp
      cases hp
    · rw [requests, List.countP_singleton, wantAt, store, values_fill, List.getElem?_replicate, reaches_none]
      by_cases hi : i < k.size b
      · simp [hi]
      · simp [hi]
  | parts s => exact tiles_filled (hn s rfl) hd

end Demand

/-! ## Serving -/

namespace Tracker

variable {t : Tracker k} {reqs : List (Option k.Part × Want k)} {f : Nat → Option (Want k)}

theorem serve_cons (t : Tracker k) (part : Option k.Part) (w : Want k) (reqs : List (Option k.Part × Want k)) :
    t.serve ((part, w) :: reqs) = (((t.transition part w.state).1.serve reqs).1,
      (t.transition part w.state).2.map (w, ·) ++ ((t.transition part w.state).1.serve reqs).2) := rfl

theorem bounds_serve (h : t.Valid) : (t.serve reqs).1.bounds = t.bounds := by
  induction reqs generalizing t with
  | nil => rfl
  | cons x reqs ih => rw [serve_cons, ih (valid_transition h), bounds_transition h]

theorem valid_serve (h : t.Valid) : (t.serve reqs).1.Valid := by
  induction reqs generalizing t with
  | nil => exact h
  | cons x reqs ih => exact ih (valid_transition h)

/-- the changes made carry parts that fit, and each of them changes the state -/
theorem of_mem_serve (h : t.Valid) {x : Want k × Transition k} (hx : x ∈ (t.serve reqs).2) :
    x.2.before ≠ x.1.state ∧ ∀ p, x.2.part = some p → k.Inside t.bounds p := by
  induction reqs generalizing t with
  | nil => cases hx
  | cons y reqs ih =>
    rw [serve_cons] at hx
    rcases List.mem_append.1 hx with hx | hx
    · obtain ⟨c, hc, rfl⟩ := List.mem_map.1 hx
      exact ⟨before_ne_of_mem_transition h hc, fun p hp => inside_of_mem_transition h hc hp⟩
    · have := ih (valid_transition h) hx
      rwa [bounds_transition h] at this

/-- a change made has an address -/
theorem exists_of_mem_serve (h : t.Valid) {x : Want k × Transition k} (hx : x ∈ (t.serve reqs).2) :
    ∃ i, k.reaches t.bounds x.2.part i = true := by
  induction reqs generalizing t with
  | nil => cases hx
  | cons y reqs ih =>
    rw [serve_cons] at hx
    rcases List.mem_append.1 hx with hx | hx
    · obtain ⟨c, hc, rfl⟩ := List.mem_map.1 hx
      obtain ⟨i, hi, -⟩ := exists_of_mem_transition h hc
      exact ⟨i, hi⟩
    · have := ih (valid_transition h) hx
      rwa [bounds_transition h] at this

/-- **A change carries what is asked of each of its addresses,** state and tag. -/
theorem want_of_mem_serve (h : t.Valid) (hf : Tiles t.bounds f reqs) {x : Want k × Transition k}
    (hx : x ∈ (t.serve reqs).2) {i : Nat} (hi : k.reaches t.bounds x.2.part i = true) : f i = some x.1 := by
  induction reqs generalizing t f with
  | nil => cases hx
  | cons y reqs ih =>
    rw [serve_cons] at hx
    rcases List.mem_append.1 hx with hx | hx
    · obtain ⟨c, hc, rfl⟩ := List.mem_map.1 hx
      exact hf.eq_of_mem List.mem_cons_self (of_reaches_of_mem_transition h hc hi).1
    · have hb : (t.transition y.1 y.2.state).1.bounds = t.bounds := bounds_transition h
      have htail := hf.tail
      rw [← hb] at htail hi
      have hrest := ih (valid_transition h) htail hx hi
      -- the first part is done with, so the address is not one of its
      split at hrest
      · cases hrest
      · exact hrest

/-- **Serving leaves each address in the state asked of it,** or in its old one. -/
theorem stateAt_serve (h : t.Valid) (hf : Tiles t.bounds f reqs) (i : Nat) :
    (t.serve reqs).1.stateAt i = ((f i).map Want.state).or (t.stateAt i) := by
  induction reqs generalizing t f with
  | nil =>
    cases hi : f i with
    | none => rfl
    | some w =>
      have hc := hf.count i w
      rw [if_pos hi] at hc
      cases hc
  | cons x reqs ih =>
    have hb : (t.transition x.1 x.2.state).1.bounds = t.bounds := bounds_transition h
    have htail := hf.tail
    rw [← hb] at htail
    rw [serve_cons, ih (valid_transition h) htail, stateAt_transition h, bounds_transition h]
    by_cases hr : k.reaches t.bounds x.1 i = true
    · rw [if_pos hr, if_pos hr, hf.eq_of_mem List.mem_cons_self hr]
      rfl
    · rw [if_neg hr, if_neg hr]

/-- **The changes made in serving are the exact difference.** -/
theorem countP_serve (h : t.Valid) (hf : Tiles t.bounds f reqs) (i : Nat) (s s' : ResourceState) :
    (t.serve reqs).2.countP
        (fun x => k.reaches t.bounds x.2.part i && (decide (x.2.before = s) && decide (x.1.state = s'))) =
      if t.stateAt i = some s ∧ (t.serve reqs).1.stateAt i = some s' ∧ s ≠ s' then 1 else 0 := by
  induction reqs generalizing t f with
  | nil =>
    rw [if_neg]
    · rfl
    · rintro ⟨h1, h2, h3⟩
      exact h3 (Option.some.inj (h1.symm.trans h2))
  | cons x reqs ih =>
    have hb : (t.transition x.1 x.2.state).1.bounds = t.bounds := bounds_transition h
    have htail := hf.tail
    have hih := ih (valid_transition h) (by rwa [hb])
    have hst := stateAt_serve (valid_transition h) (by rwa [hb]) i
    have hc := @countP_transition k t x.1 x.2.state h i s
    have hs1 := @stateAt_transition k t x.1 x.2.state h i
    rw [hb] at hih
    have hhead : ((t.transition x.1 x.2.state).2.map (x.2, ·)).countP
        (fun y => k.reaches t.bounds y.2.part i && (decide (y.2.before = s) && decide (y.1.state = s'))) =
          if k.reaches t.bounds x.1 i = true ∧ t.stateAt i = some s ∧ s ≠ x.2.state ∧ x.2.state = s' then 1 else 0 := by
      rw [List.countP_map]
      by_cases hw : x.2.state = s'
      · refine Eq.trans (List.countP_congr fun c _ => ?_) (hc.trans (if_congr (by simp [hw]) rfl rfl))
        simp [hw, and_comm]
      · rw [if_neg fun e => hw e.2.2.2, List.countP_eq_zero]
        intro c _
        simp [hw]
    rw [serve_cons, List.countP_append, hhead, hih]
    by_cases hr : k.reaches t.bounds x.1 i = true
    · -- the rest does not touch the address again
      rw [if_pos hr] at hst hs1
      rw [Option.map_none, Option.none_or, hs1] at hst
      rw [hst, hs1]
      by_cases hw : x.2.state = s'
      · simp [hr, hw, eq_comm]
      · simp [hw]
    · rw [if_neg hr] at hs1
      rw [if_neg fun e => hr e.1, Nat.zero_add, hs1]

end Tracker

end FrameGraph
