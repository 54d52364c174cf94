/-
What a transition does to a tracker, address by address.

A tracker means a state for each address (`stateAt`); whether it holds one state or a store does not matter. A valid
tracker (`Valid`) has bounds a descriptor can have, and a store that fits them.

- `stateAt_transition`: the addresses of the part are in the new state, the others keep theirs.
- `countP_transition`: the reported changes are exact. Each address of the part that was in another state is in exactly
  one change, which carries its old state, and no other address is in any.
- `before_ne_of_mem_transition`, `inside_of_mem_transition`, `exists_of_mem_transition`: no change is empty, in any sense.
- `of_reaches_of_mem_transition`: and none goes past the part.
- `exists_of_mem_states`, `mem_states`, `forall_mem_states_iff`: the states listed for a part are those of its addresses.
-/
import FrameGraph.Proofs.Region.Stores
import FrameGraph.Tracker

namespace FrameGraph.Tracker

open ResourceKind

variable {k : ResourceKind}

/-! ## Valid trackers -/

/-- bounds a descriptor can have, and a store that fits them -/
structure Valid (t : Tracker k) : Prop where
  measured : k.Measured t.bounds
  sized : ∀ s, t.content = .split s → k.Sized t.bounds s

theorem Valid.ofStore {b : k.Bounds} {s : k.Store ResourceState} (hb : k.Measured b) (hs : k.Sized b s) :
    Valid ⟨b, .split s⟩ :=
  ⟨hb, fun s' h => by cases h; exact hs⟩

theorem valid_uniform {b : k.Bounds} (hb : k.Measured b) (s : ResourceState) : (uniform b s).Valid :=
  ⟨hb, fun _ h => by cases h⟩

theorem stateAt_uniform (b : k.Bounds) (s : ResourceState) (i : Nat) :
    (uniform b s).stateAt i = if i < k.size b then some s else none := rfl

theorem stateAt_of_size_le {t : Tracker k} {i : Nat} (h : ¬ i < k.size t.bounds) : t.stateAt i = none := if_neg h

theorem stateAt_split {b : k.Bounds} {s : k.Store ResourceState} {i : Nat} (hi : i < k.size b) :
    (⟨b, .split s⟩ : Tracker k).stateAt i = (k.values s)[i]? := if_pos hi

theorem isSome_stateAt {t : Tracker k} (h : t.Valid) (i : Nat) :
    (t.stateAt i).isSome = decide (i < k.size t.bounds) := by
  by_cases hi : i < k.size t.bounds
  · rw [decide_eq_true hi]
    obtain ⟨b, c⟩ := t
    cases c with
    | whole s => rw [stateAt, if_pos hi, Option.isSome_some]
    | split s =>
      have hl : i < (k.values s).length := lt_of_lt_of_eq hi (length_values (h.sized s rfl)).symm
      rw [stateAt_split hi, List.getElem?_eq_getElem hl, Option.isSome_some]
  · rw [decide_eq_false hi, stateAt_of_size_le hi, Option.isSome_none]

/-! ## Collapsing -/

theorem bounds_collapse (t : Tracker k) : t.collapse.bounds = t.bounds := by
  unfold collapse
  split
  · rfl
  · split <;> rfl

theorem valid_collapse {t : Tracker k} (h : t.Valid) : t.collapse.Valid := by
  unfold collapse
  split
  · exact h
  · split
    · exact valid_uniform h.measured _
    · exact h

theorem stateAt_collapse {t : Tracker k} (h : t.Valid) (i : Nat) : t.collapse.stateAt i = t.stateAt i := by
  obtain ⟨b, c⟩ := t
  by_cases hi : i < k.size b
  · cases c with
    | whole s => rfl
    | split s =>
      simp only [collapse]
      split
      · rename_i a ha
        rw [stateAt_split hi, values_of_uniform (h.sized s rfl) ha hi]
        exact if_pos hi
      · rfl
  · rw [stateAt_of_size_le (t := ⟨b, c⟩) hi, stateAt_of_size_le (by rwa [bounds_collapse])]

/-! ## Moving a part of a store -/

variable {t : Tracker k} {s : k.Store ResourceState} {p : k.Part} {part : Option k.Part} {a : ResourceState}

theorem bounds_moveIn : (t.moveIn s p a).1.bounds = t.bounds := bounds_collapse _

theorem valid_moveIn (hb : k.Measured t.bounds) (hs : k.Sized t.bounds s) (hp : k.Inside t.bounds p) :
    (t.moveIn s p a).1.Valid :=
  valid_collapse (Valid.ofStore hb (sized_write a hp hs))

theorem stateAt_moveIn (hb : k.Measured t.bounds) (hs : k.Sized t.bounds s) (hp : k.Inside t.bounds p) (i : Nat) :
    (t.moveIn s p a).1.stateAt i =
      if k.reaches t.bounds (some p) i = true then some a else (⟨t.bounds, .split s⟩ : Tracker k).stateAt i := by
  have hv : Valid ⟨t.bounds, .split (k.write t.bounds p a s)⟩ := Valid.ofStore hb (sized_write a hp hs)
  rw [moveIn, stateAt_collapse hv]
  by_cases hi : i < k.size t.bounds
  · rw [stateAt_split hi, getElem?_values_write hp hs hi, stateAt_split hi, reaches_some, decide_eq_true hi,
      Bool.true_and]
  · rw [if_neg fun hr => hi (lt_size_of_reaches hr), stateAt_of_size_le (t := ⟨t.bounds, .split _⟩) hi,
      stateAt_of_size_le (t := ⟨t.bounds, .split _⟩) hi]

theorem mem_moveIn {c : Transition k} (hc : c ∈ (t.moveIn s p a).2) :
    c.before ≠ a ∧ ∃ q, c.part = some q ∧ (q, c.before) ∈ k.slice t.bounds p s := by
  obtain ⟨x, hx, rfl⟩ := List.mem_map.1 hc
  obtain ⟨hx, hne⟩ := List.mem_filter.1 hx
  exact ⟨by simpa using hne, x.1, rfl, hx⟩

theorem countP_moveIn (hs : k.Sized t.bounds s) (hp : k.Inside t.bounds p) (i : Nat) (v : ResourceState) :
    (t.moveIn s p a).2.countP (fun c => decide (c.before = v) && k.reaches t.bounds c.part i) =
      if k.reaches t.bounds (some p) i = true ∧ (⟨t.bounds, .split s⟩ : Tracker k).stateAt i = some v ∧ v ≠ a
        then 1 else 0 := by
  rw [moveIn, List.countP_map, List.countP_filter]
  by_cases hv : v = a
  · rw [if_neg fun h => h.2.2 hv, List.countP_eq_zero]
    rintro ⟨q, w⟩ -
    simp only [Function.comp, Bool.and_eq_true, decide_eq_true_eq]
    rintro ⟨⟨rfl, -⟩, hne⟩
    exact hne hv
  · have hc := (tiles_slice hp hs).count i v
    rw [List.countP_map] at hc
    refine Eq.trans (List.countP_congr fun x _ => ?_) (hc.trans (if_congr ?_ rfl rfl))
    · by_cases hx : x.2 = v
      · simp [hx, hv]
      · simp [hx]
    · by_cases hr : k.reaches t.bounds (some p) i = true
      · simp [hr, hv, stateAt_split (lt_size_of_reaches hr)]
      · simp [hr]

/-! ## Transitions -/

/-- what a transition can do: nothing, because the part is empty or the whole resource already is in the state; move
the resource as a whole; or move a part of a store that means what the tracker meant -/
theorem transition_cases (h : t.Valid) (part : Option k.Part) (a : ResourceState) :
    (t.transition part a = (t, []) ∧ ∀ i, k.reaches t.bounds part i = true → t.stateAt i = some a) ∨
    (∃ b, t = uniform t.bounds b ∧ b ≠ a ∧ (∀ i, k.reaches t.bounds part i = k.reaches t.bounds none i) ∧
      t.transition part a = (uniform t.bounds a, [⟨none, b⟩])) ∨
    ∃ s p, k.Sized t.bounds s ∧ k.Inside t.bounds p ∧ (∀ i, t.stateAt i = (⟨t.bounds, .split s⟩ : Tracker k).stateAt i) ∧
      (∀ i, k.reaches t.bounds part i = k.reaches t.bounds (some p) i) ∧ t.transition part a = t.moveIn s p a := by
  cases hr : k.region t.bounds part with
  | none =>
    refine Or.inl ⟨by simp only [transition, hr], fun i hi => ?_⟩
    rw [reaches_of_region_none hr] at hi
    cases hi
  | some p =>
    have hp := inside_of_region h.measured hr
    have hreach := fun i => (reaches_of_region h.measured hr i).symm
    obtain ⟨b, c⟩ := t
    cases c with
    | split s => exact Or.inr (Or.inr ⟨s, p, h.sized s rfl, hp, fun _ => rfl, hreach, by simp only [transition, hr]⟩)
    | whole v =>
      by_cases hv : v = a
      · refine Or.inl ⟨by simp only [transition, hr, if_pos hv], fun i hi => ?_⟩
        rw [stateAt, if_pos (lt_size_of_reaches hi), hv]
      · by_cases hc : k.covers b p = true
        · refine Or.inr (Or.inl ⟨v, rfl, hv, fun i => ?_, ?_⟩)
          · rw [hreach, reaches_of_covers hc]
          · simp only [transition, hr, if_neg hv, if_pos hc]
            rfl
        · refine Or.inr (Or.inr ⟨k.fill b v, p, sized_fill b v, hp, fun i => ?_, hreach, ?_⟩)
          · by_cases hi : i < k.size b
            · rw [stateAt_split hi, values_fill, List.getElem?_replicate, if_pos hi]
              exact if_pos hi
            · rw [stateAt_of_size_le (t := ⟨b, .whole v⟩) hi, stateAt_of_size_le (t := ⟨b, .split _⟩) hi]
          · simp only [transition, hr, if_neg hv, if_neg hc]

theorem bounds_transition (h : t.Valid) : (t.transition part a).1.bounds = t.bounds := by
  rcases transition_cases h part a with ⟨e, -⟩ | ⟨b, -, -, -, e⟩ | ⟨s, p, -, -, -, -, e⟩
  · rw [e]
  · rw [e]
    rfl
  · rw [e, bounds_moveIn]

theorem valid_transition (h : t.Valid) : (t.transition part a).1.Valid := by
  rcases transition_cases h part a with ⟨e, -⟩ | ⟨b, -, -, -, e⟩ | ⟨s, p, hs, hp, -, -, e⟩
  · rwa [e]
  · rw [e]
    exact valid_uniform h.measured a
  · rw [e]
    exact valid_moveIn h.measured hs hp

/-- **A transition moves exactly its part.** -/
theorem stateAt_transition (h : t.Valid) (i : Nat) :
    (t.transition part a).1.stateAt i = if k.reaches t.bounds part i = true then some a else t.stateAt i := by
  rcases transition_cases h part a with ⟨e, hi⟩ | ⟨b, ht, -, hr, e⟩ | ⟨s, p, hs, hp, ht, hr, e⟩
  · rw [e]
    split
    · exact hi i ‹_›
    · rfl
  · rw [e, hr, reaches_none, stateAt_uniform]
    by_cases hi : i < k.size t.bounds
    · simp [hi]
    · simp [hi, stateAt_of_size_le hi]
  · rw [e, hr, stateAt_moveIn h.measured hs hp, ht]

/-- **The reported changes are exact.** -/
theorem countP_transition (h : t.Valid) (i : Nat) (v : ResourceState) :
    (t.transition part a).2.countP (fun c => decide (c.before = v) && k.reaches t.bounds c.part i) =
      if k.reaches t.bounds part i = true ∧ t.stateAt i = some v ∧ v ≠ a then 1 else 0 := by
  rcases transition_cases h part a with ⟨e, hi⟩ | ⟨b, ht, hne, hr, e⟩ | ⟨s, p, hs, hp, ht, hr, e⟩
  · rw [e, List.countP_nil, if_neg]
    rintro ⟨h1, h2, h3⟩
    rw [hi i h1] at h2
    exact h3 (Option.some.inj h2).symm
  · rw [e, List.countP_singleton, hr]
    refine if_congr ?_ rfl rfl
    simp only [Bool.and_eq_true, decide_eq_true_eq]
    constructor
    · rintro ⟨rfl, h2⟩
      refine ⟨h2, ?_, hne⟩
      rw [ht, stateAt_uniform, if_pos (lt_size_of_reaches h2)]
    · rintro ⟨h1, h2, -⟩
      rw [ht, stateAt_uniform, if_pos (lt_size_of_reaches h1)] at h2
      exact ⟨Option.some.inj h2, h1⟩
  · rw [e, hr, countP_moveIn hs hp, ht]

theorem before_ne_of_mem_transition (h : t.Valid) {c : Transition k} (hc : c ∈ (t.transition part a).2) :
    c.before ≠ a := by
  rcases transition_cases h part a with ⟨e, -⟩ | ⟨b, -, hne, -, e⟩ | ⟨s, p, -, -, -, -, e⟩
  · rw [e] at hc
    cases hc
  · rw [e, List.mem_singleton] at hc
    rwa [hc]
  · rw [e] at hc
    exact (mem_moveIn hc).1

theorem inside_of_mem_transition (h : t.Valid) {c : Transition k} (hc : c ∈ (t.transition part a).2) {q : k.Part}
    (hq : c.part = some q) : k.Inside t.bounds q := by
  rcases transition_cases h part a with ⟨e, -⟩ | ⟨b, -, -, -, e⟩ | ⟨s, p, hs, hp, -, -, e⟩
  · rw [e] at hc
    cases hc
  · rw [e, List.mem_singleton] at hc
    rw [hc] at hq
    cases hq
  · rw [e] at hc
    obtain ⟨-, q', hq', hm⟩ := mem_moveIn hc
    rw [hq] at hq'
    cases hq'
    exact (tiles_slice hp hs).inside (some q, c.before) (List.mem_map.2 ⟨_, hm, rfl⟩) q rfl

/-- the addresses of a reported change are in the part that was moved, and were in the state the change carries -/
theorem of_reaches_of_mem_transition (h : t.Valid) {c : Transition k} (hc : c ∈ (t.transition part a).2) {i : Nat}
    (hi : k.reaches t.bounds c.part i = true) : k.reaches t.bounds part i = true ∧ t.stateAt i = some c.before := by
  have hpos : 0 < (t.transition part a).2.countP fun d => decide (d.before = c.before) && k.reaches t.bounds d.part i :=
    List.countP_pos_iff.2 ⟨c, hc, by rw [decide_eq_true rfl, hi, Bool.true_and]⟩
  rw [countP_transition h] at hpos
  by_contra hno
  rw [if_neg fun hyes => hno ⟨hyes.1, hyes.2.1⟩] at hpos
  exact Nat.lt_irrefl 0 hpos

/-- a reported change has an address, and that address was in the state it carries -/
theorem exists_of_mem_transition (h : t.Valid) {c : Transition k} (hc : c ∈ (t.transition part a).2) :
    ∃ i, k.reaches t.bounds c.part i = true ∧ t.stateAt i = some c.before := by
  obtain ⟨i, hi⟩ : ∃ i, k.reaches t.bounds c.part i = true := by
    cases hq : c.part with
    | some q =>
      obtain ⟨i, hi, hh⟩ := exists_holds (inside_of_mem_transition h hc hq)
      refine ⟨i, ?_⟩
      rw [reaches_some, decide_eq_true hi, hh, Bool.true_and]
    | none =>
      -- the whole resource has an address, because the part that was asked for has one
      cases hr : k.region t.bounds part with
      | none =>
        simp only [transition, hr] at hc
        cases hc
      | some p =>
        obtain ⟨i, hi, -⟩ := exists_holds (inside_of_region h.measured hr)
        exact ⟨i, reaches_none.trans (decide_eq_true hi)⟩
  exact ⟨i, hi, (of_reaches_of_mem_transition h hc hi).2⟩

/-- the states listed for a part are states of addresses of the part -/
theorem exists_of_mem_states (h : t.Valid) {v : ResourceState} (hv : v ∈ t.states part) :
    ∃ i, k.reaches t.bounds part i = true ∧ t.stateAt i = some v := by
  unfold states at hv
  split at hv
  · cases hv
  · rename_i p hr
    have hp := inside_of_region h.measured hr
    have hreach := reaches_of_region h.measured hr
    obtain ⟨b, c⟩ := t
    cases c with
    | whole s =>
      obtain rfl := List.mem_singleton.1 hv
      obtain ⟨i, hi, hh⟩ := exists_holds hp
      refine ⟨i, ?_, if_pos hi⟩
      rw [← hreach, reaches_some, decide_eq_true hi, hh, Bool.true_and]
    | split s =>
      obtain ⟨x, hx, rfl⟩ := List.mem_map.1 hv
      have ht := tiles_slice hp (h.sized s rfl)
      have hm : (some x.1, x.2) ∈ (k.slice b p s).map fun y => (some y.1, y.2) := List.mem_map.2 ⟨x, hx, rfl⟩
      obtain ⟨i, hi, hh⟩ := exists_holds (ht.inside _ hm x.1 rfl)
      have hf := ht.eq_of_mem hm (i := i) (by rw [reaches_some, decide_eq_true hi, hh, Bool.true_and])
      by_cases hpi : k.reaches b (some p) i = true
      · rw [if_pos hpi] at hf
        exact ⟨i, (hreach i).symm.trans hpi, (stateAt_split hi).trans hf⟩
      · rw [if_neg hpi] at hf
        cases hf

/-- and the state of each address of the part is listed -/
theorem mem_states (h : t.Valid) {i : Nat} {v : ResourceState} (hi : k.reaches t.bounds part i = true)
    (hv : t.stateAt i = some v) : v ∈ t.states part := by
  unfold states
  cases hr : k.region t.bounds part with
  | none =>
    rw [reaches_of_region_none hr] at hi
    cases hi
  | some p =>
    have hp := inside_of_region h.measured hr
    have hlt : i < k.size t.bounds := lt_size_of_reaches hi
    rw [← reaches_of_region h.measured hr] at hi
    obtain ⟨b, c⟩ := t
    cases c with
    | whole s =>
      rw [stateAt, if_pos hlt] at hv
      exact List.mem_singleton.2 (Option.some.inj hv).symm
    | split s =>
      rw [stateAt_split hlt] at hv
      obtain ⟨x, hx, rfl, -⟩ := (tiles_slice hp (h.sized s rfl)).exists_mem (i := i) ((if_pos hi).trans hv)
      obtain ⟨y, hy, rfl⟩ := List.mem_map.1 hx
      exact List.mem_map.2 ⟨y, hy, rfl⟩

/-- **The listed states are all the same if and only if each address of the part is in that state.** -/
theorem forall_mem_states_iff (h : t.Valid) {v : ResourceState} :
    (∀ w ∈ t.states part, w = v) ↔ ∀ i, k.reaches t.bounds part i = true → t.stateAt i = some v := by
  constructor
  · intro hall i hi
    have hsome := isSome_stateAt h i
    rw [decide_eq_true (lt_size_of_reaches hi)] at hsome
    obtain ⟨w, hw⟩ := Option.isSome_iff_exists.1 hsome
    rw [hw, hall w (mem_states h hi hw)]
  · intro hall w hw
    obtain ⟨i, hi, hwi⟩ := exists_of_mem_states h hw
    rw [hall i hi] at hwi
    exact (Option.some.inj hwi).symm

end FrameGraph.Tracker
