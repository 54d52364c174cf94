/-
A tracker after any calls.

Besides moving a part, a tracker can be told to collapse and to forget its parts (`Call`). Each call acts on a map from
addresses to states (`Call.act`), and the tracker follows that map (`Tracks`): it means the map, in the one form a
tracker that means it has.

- `Tracks.perform`: a call goes well and acts on the map. `exists_performAll`: so do any calls, one after the other.
- `Tracks.whole?_eq_some_iff`, `Tracks.split_iff`, `Tracks.eq_iff`: what the form of a tracker says about its map.
- `report_of_whole`, `report_of_piecesOf`: what a transition reports. A tracker that is moved as a whole reports one
  change without a part, and any other the pieces of the part that were in another state (`piecesOf`).
-/
import FrameGraph.Proofs.Canonical
import FrameGraph.Proofs.Checks

namespace FrameGraph.Tracker

open ResourceKind

variable {k : ResourceKind}

/-! ## Calls -/

/-- a call that can change a tracker -/
inductive Call (k : ResourceKind) where
  | transition (part : Option k.Part) (after : ResourceState)
  | collapse
  | reset (s : ResourceState)

/-- make a call; also the changes it reports -/
def perform (t : Tracker k) : Call k → Except Fault (Tracker k × List (Transition k))
  | .transition part after => (t.check part after).map fun _ => t.transition part after
  | .collapse => .ok (t.collapse, [])
  | .reset s => .ok (t.reset s, [])

/-- make calls one after the other -/
def performAll (t : Tracker k) : List (Call k) → Except Fault (Tracker k)
  | [] => .ok t
  | call :: calls => do (← t.perform call).1.performAll calls

/-- what a call does to the states of the addresses -/
def Call.act (b : k.Bounds) (call : Call k) (f : Nat → ResourceState) (i : Nat) : ResourceState :=
  match call with
  | .transition part after => if (part.all fun p => k.holds b p i) = true then after else f i
  | .collapse => f i
  | .reset s => s

/-- what calls do to the states of the addresses, one after the other -/
def Call.actAll (b : k.Bounds) (calls : List (Call k)) (f : Nat → ResourceState) : Nat → ResourceState :=
  calls.foldl (fun f call => call.act b f) f

/-! ## Following a map -/

variable {t t' : Tracker k} {f f' : Nat → ResourceState} {part : Option k.Part} {a : ResourceState}

/-- the tracker means the map, and has the one form of its meaning -/
structure Tracks (f : Nat → ResourceState) (t : Tracker k) : Prop where
  canonical : ∃ initial, t.Canonical initial
  stateAt : ∀ i < k.size t.bounds, t.stateAt i = some (f i)

theorem tracks_uniform {b : k.Bounds} (hb : k.Measured b) (s : ResourceState) : Tracks (fun _ => s) (uniform b s) :=
  ⟨⟨s, canonical_uniform hb s⟩, fun _ hi => if_pos hi⟩

/-- a canonical tracker has nothing to collapse -/
theorem Canonical.collapse_eq {initial : ResourceState} (h : t.Canonical initial) : t.collapse = t := by
  obtain ⟨b, c⟩ := t
  cases c with
  | whole s => rfl
  | split s => simp only [collapse, (h.joined s rfl).2]

theorem perform_transition (h : t.Valid) : t.perform (.transition part a) = .ok (t.transition part a) := by
  rw [perform, check_ok h]
  rfl

namespace Tracks

variable (h : Tracks f t)

include h

theorem valid : t.Valid := let ⟨_, hc⟩ := h.canonical; hc.valid

theorem transition (part : Option k.Part) (a : ResourceState) :
    Tracks ((Call.transition part a).act t.bounds f) (t.transition part a).1 := by
  obtain ⟨initial, hc⟩ := h.canonical
  refine ⟨⟨initial, hc.transition⟩, fun i hi => ?_⟩
  rw [bounds_transition h.valid] at hi
  rw [stateAt_transition h.valid, h.stateAt i hi, reaches, decide_eq_true hi, Bool.true_and, ← apply_ite some]
  rfl

/-- **A call goes well and acts on the map.** -/
theorem perform (call : Call k) :
    ∃ t' report, t.perform call = .ok (t', report) ∧ t'.bounds = t.bounds ∧ Tracks (call.act t.bounds f) t' := by
  obtain ⟨initial, hc⟩ := h.canonical
  cases call with
  | transition part a =>
    exact ⟨_, (t.transition part a).2, perform_transition h.valid, bounds_transition h.valid, h.transition part a⟩
  | collapse => exact ⟨t, [], by rw [Tracker.perform, hc.collapse_eq], rfl, h⟩
  | reset s => exact ⟨t.reset s, [], rfl, rfl, tracks_uniform h.valid.measured s⟩

/-- **Any calls go well and act on the map,** one after the other. -/
theorem exists_performAll (calls : List (Call k)) :
    ∃ t', t.performAll calls = .ok t' ∧ t'.bounds = t.bounds ∧ Tracks (Call.actAll t.bounds calls f) t' := by
  induction calls generalizing t f with
  | nil => exact ⟨t, rfl, rfl, h⟩
  | cons call calls ih =>
    obtain ⟨t₁, report, hcall, hb₁, h₁⟩ := h.perform call
    obtain ⟨t₂, hcalls, hb₂, h₂⟩ := ih h₁
    refine ⟨t₂, ?_, hb₂.trans hb₁, hb₁ ▸ h₂⟩
    rw [performAll, hcall]
    exact hcalls

/-! ## The form of a tracker -/

/-- a tracker of addresses is in one state as a whole if and only if all its addresses are -/
theorem whole?_eq_some_iff (hz : 0 < k.size t.bounds) (s : ResourceState) :
    t.whole? = some s ↔ ∀ i < k.size t.bounds, f i = s := by
  constructor
  · intro hw i hi
    have hi' := h.stateAt i hi
    obtain ⟨b, c⟩ := t
    cases c with
    | whole v =>
      cases hw
      exact Option.some.inj (hi'.symm.trans (if_pos hi))
    | split v => cases hw
  · intro hs
    obtain ⟨initial, hc⟩ := h.canonical
    rw [hc.eq_uniform (a := s) hz fun i hi => (h.stateAt i hi).trans (congrArg some (hs i hi))]
    rfl

/-- a tracker is split if and only if two addresses differ -/
theorem split_iff :
    (∃ s, t.content = .split s) ↔ ∃ i < k.size t.bounds, ∃ j < k.size t.bounds, f i ≠ f j := by
  obtain ⟨initial, hc⟩ := h.canonical
  constructor
  · rintro ⟨s, hs⟩
    have hz : 0 < k.size t.bounds := by
      refine Nat.pos_of_ne_zero fun hz => ?_
      rw [hc.empty hz] at hs
      cases hs
    by_contra hno
    push Not at hno
    have hw := (h.whole?_eq_some_iff hz (f 0)).2 fun i hi => hno i hi 0 hz
    rw [whole?, hs] at hw
    cases hw
  · rintro ⟨i, hi, j, hj, hne⟩
    cases ht : t.content with
    | split s => exact ⟨s, rfl⟩
    | whole s =>
      have hall := (h.whole?_eq_some_iff (Nat.zero_lt_of_lt hi) s).1 (by rw [whole?, ht])
      exact absurd ((hall i hi).trans (hall j hj).symm) hne

/-- trackers of as many addresses are the same if and only if their maps agree on them -/
theorem eq_iff (h' : Tracks f' t') (hb : t'.bounds = t.bounds) (hz : 0 < k.size t.bounds) :
    t' = t ↔ ∀ i < k.size t.bounds, f' i = f i := by
  constructor
  · rintro rfl i hi
    exact Option.some.inj ((h'.stateAt i hi).symm.trans (h.stateAt i hi))
  · intro hf
    obtain ⟨initial, hc⟩ := h.canonical
    obtain ⟨initial', hc'⟩ := h'.canonical
    -- which state an empty resource started in does not matter where there is an address
    have hc' : t'.Canonical initial := ⟨hc'.valid, hc'.joined, fun hz' => absurd (hb ▸ hz') (Nat.ne_of_gt hz)⟩
    refine hc'.eq_of_stateAt hc hb fun i => ?_
    by_cases hi : i < k.size t.bounds
    · rw [h.stateAt i hi, h'.stateAt i (hb.symm ▸ hi), hf i hi]
    · rw [stateAt_of_size_le hi, stateAt_of_size_le (hb.symm ▸ hi)]

end Tracks

/-! ## What a transition reports -/

/-- the states as a store, whether the tracker holds one or not -/
def store (t : Tracker k) : k.Store ResourceState :=
  match t.content with
  | .whole s => k.fill t.bounds s
  | .split s => s

/-- the pieces of a part, of everything if none is given, with their states -/
def piecesOf (t : Tracker k) (part : Option k.Part) : List (k.Part × ResourceState) :=
  match k.region t.bounds part with
  | none => []
  | some p => k.slice t.bounds p t.store

theorem sized_store (h : t.Valid) : k.Sized t.bounds t.store := by
  obtain ⟨b, c⟩ := t
  cases c with
  | whole s => exact sized_fill b s
  | split s => exact h.sized s rfl

theorem getElem?_store {i : Nat} (hi : i < k.size t.bounds) : (k.values t.store)[i]? = t.stateAt i := by
  obtain ⟨b, c⟩ := t
  cases c with
  | whole s =>
    have hfill : (k.values (k.fill b s))[i]? = some s := by rw [values_fill, List.getElem?_replicate, if_pos hi]
    exact hfill.trans (if_pos hi).symm
  | split s => exact (stateAt_split hi).symm

/-- the pieces of a part of a resource in one state are in that state -/
theorem eq_of_mem_slice_fill {b : k.Bounds} {p : k.Part} {s : ResourceState} (hp : k.Inside b p)
    {x : k.Part × ResourceState} (hx : x ∈ k.slice b p (k.fill b s)) : x.2 = s := by
  have htiles := tiles_slice hp (sized_fill b s)
  have hmem : (some x.1, x.2) ∈ (k.slice b p (k.fill b s)).map fun y => (some y.1, y.2) := List.mem_map.2 ⟨x, hx, rfl⟩
  obtain ⟨i, hi, hholds⟩ := exists_holds (htiles.inside _ hmem x.1 rfl)
  have hvalue := htiles.eq_of_mem hmem (i := i) (by rw [reaches_some, decide_eq_true hi, hholds, Bool.true_and])
  rw [values_fill, List.getElem?_replicate, if_pos hi] at hvalue
  split at hvalue
  · exact (Option.some.inj hvalue).symm
  · cases hvalue

/-- the resource has addresses, the part has all of them, and the resource is in another state as a whole -/
def MovesWhole (t : Tracker k) (part : Option k.Part) (a s : ResourceState) : Prop :=
  (0 < k.size t.bounds ∧ ∀ i < k.size t.bounds, (part.all fun p => k.holds t.bounds p i) = true) ∧
    t.whole? = some s ∧ s ≠ a

/-- **A tracker that is moved as a whole reports one change without a part.** -/
theorem report_of_whole (h : t.Valid) {s : ResourceState} (hmoves : t.MovesWhole part a s) :
    t.transition part a = (uniform t.bounds a, [⟨none, s⟩]) := by
  obtain ⟨⟨hz, hall⟩, hw, hne⟩ := hmoves
  obtain ⟨b, c⟩ := t
  have hreaches : ∀ i < k.size b, k.reaches b part i = true := fun i hi => by
    rw [reaches, decide_eq_true hi, hall i hi, Bool.true_and]
  cases c with
  | split v => cases hw
  | whole v =>
    cases hw
    cases hr : k.region b part with
    | none =>
      have h0 := reaches_of_region_none hr 0
      rw [hreaches 0 hz] at h0
      cases h0
    | some p =>
      have hcovers : k.covers b p = true := by
        refine covers_of_holds (inside_of_region h.measured hr) fun i hi => ?_
        have hp := (reaches_of_region h.measured hr i).trans (hreaches i hi)
        rwa [reaches_some, decide_eq_true hi, Bool.true_and] at hp
      simp only [Tracker.transition, hr, if_neg hne, if_pos hcovers]
      rfl

/-- **Any other tracker reports the pieces of the part that were in another state.** -/
theorem report_of_piecesOf (h : t.Valid) (hno : ¬ ∃ s, t.MovesWhole part a s) :
    (t.transition part a).2 = ((t.piecesOf part).filter fun x => x.2 ≠ a).map fun x => ⟨some x.1, x.2⟩ := by
  obtain ⟨b, c⟩ := t
  cases hr : k.region b part with
  | none => simp only [Tracker.transition, piecesOf, hr, List.filter_nil, List.map_nil]
  | some p =>
    have hp := inside_of_region h.measured hr
    cases c with
    | split s =>
      simp only [Tracker.transition, piecesOf, hr]
      rfl
    | whole s =>
      by_cases hs : s = a
      · -- all pieces are in the state already
        have hnone : (k.slice b p (k.fill b s)).filter (fun x => x.2 ≠ a) = [] := by
          refine List.filter_eq_nil_iff.2 fun x hx => ?_
          rw [decide_eq_true_eq, not_not, eq_of_mem_slice_fill hp hx, hs]
        simp only [Tracker.transition, piecesOf, store, hr, if_pos hs]
        rw [hnone]
        rfl
      · have hcovers : ¬ k.covers b p = true := fun hcovers => by
          obtain ⟨i, hi, -⟩ := exists_holds hp
          refine hno ⟨s, ⟨Nat.zero_lt_of_lt hi, fun j hj => ?_⟩, rfl, hs⟩
          have hreaches := reaches_of_region h.measured hr j
          rwa [reaches_of_covers hcovers, reaches_none, reaches, decide_eq_true hj, Bool.true_and, eq_comm] at hreaches
        simp only [Tracker.transition, piecesOf, hr, if_neg hs, if_neg hcovers]
        rfl

end FrameGraph.Tracker
