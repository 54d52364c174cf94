/-
The tracker of a texture is a map from cells to states.

Levels and layers are plain numbers here (`CellStates`), and what a call does to the map needs no cell numbers, no
clamping and no split: a transition sets the cells its rectangle contains, and the map of the whole plane is only ever
read inside the texture. A transition reports the changed cells layer by layer and in a layer by rising level
(`Extent.places`).

- `map_range_cells`: the order of the cell numbers is this order.
- `FollowsCells`: what the tracker says, word for word, in terms of the map.
- `performAll_followsCells`: a new tracker of any texture follows the map through any calls, and is determined by it.
-/
import FrameGraph.Proofs.TrackerCalls

namespace FrameGraph

open ResourceKind

/-! ## Cells in order -/

/-- the (level, layer) cells, layer by layer and in a layer by rising level -/
def Extent.places (e : Extent) : List (Nat × Nat) :=
  (List.range e.layers).flatMap fun layer => (List.range e.mips).map fun mip => (mip, layer)

theorem Extent.mem_places {e : Extent} {mip layer : Nat} :
    (mip, layer) ∈ e.places ↔ mip < e.mips ∧ layer < e.layers := by
  simp only [places, List.mem_flatMap, List.mem_map, List.mem_range, Prod.mk.injEq]
  constructor
  · rintro ⟨layer', hlayer, mip', hmip, rfl, rfl⟩
    exact ⟨hmip, hlayer⟩
  · rintro ⟨hmip, hlayer⟩
    exact ⟨layer, hlayer, mip, hmip, rfl, rfl⟩

/-- **The cells in order of their numbers.** -/
theorem Extent.map_range_cells (e : Extent) :
    (List.range e.cells).map (fun i => (i % e.mips, i / e.mips)) = e.places := by
  obtain ⟨mips, layers⟩ := e
  simp only [cells, places]
  rcases Nat.eq_zero_or_pos mips with rfl | hmips
  · simp
  · induction layers with
    | zero => rfl
    | succ layers ih =>
      -- the numbers of the last layer follow those of the layers before it
      have hlast : ((List.range mips).map (mips * layers + ·)).map (fun i => (i % mips, i / mips)) =
          (List.range mips).map fun mip => (mip, layers) := by
        rw [List.map_map]
        refine List.map_congr_left fun mip hmip => ?_
        have hlt : mip < mips := List.mem_range.1 hmip
        simp only [Function.comp, Prod.mk.injEq]
        refine ⟨?_, ?_⟩
        · rw [Nat.mul_add_mod, Nat.mod_eq_of_lt hlt]
        · rw [Nat.mul_add_div hmips, Nat.div_eq_of_lt hlt, Nat.add_zero]
      rw [Nat.mul_succ, List.range_add, List.map_append, ih, hlast, List.range_succ, List.flatMap_append]
      simp only [List.flatMap_cons, List.flatMap_nil, List.append_nil]

theorem Extent.forall_places {e : Extent} {P : Nat → Nat → Prop} (h : ∀ i < e.cells, P (i % e.mips) (i / e.mips)) :
    ∀ x ∈ e.places, P x.1 x.2 := by
  intro x hx
  rw [← e.map_range_cells] at hx
  obtain ⟨i, hi, rfl⟩ := List.mem_map.1 hx
  exact h i (List.mem_range.1 hi)

/-- facts about all cell numbers are facts about all cells -/
theorem Extent.forall_cells_iff {e : Extent} {P : Nat → Nat → Prop} :
    (∀ i < e.cells, P (i % e.mips) (i / e.mips)) ↔ ∀ mip < e.mips, ∀ layer < e.layers, P mip layer := by
  constructor
  · intro h mip hmip layer hlayer
    exact Extent.forall_places h (mip, layer) (Extent.mem_places.2 ⟨hmip, hlayer⟩)
  · intro h i hi
    obtain ⟨hmip, hlayer⟩ := cell_lt hi
    exact h _ hmip _ hlayer

/-! ## Maps of cells -/

/-- the state of each (level, layer) cell -/
abbrev CellStates := Nat → Nat → ResourceState

namespace CellStates

/-- what a call does to the states of the cells -/
def act (call : Tracker.Call .texture) (f : CellStates) : CellStates := fun mip layer =>
  match call with
  | .transition part after => if (part.all fun p => p.contains mip layer) = true then after else f mip layer
  | .collapse => f mip layer
  | .reset s => s

/-- what calls do to the states of the cells, one after the other -/
def actAll (calls : List (Tracker.Call .texture)) (f : CellStates) : CellStates :=
  calls.foldl (fun f call => act call f) f

/-- the cells of a rectangle inside a texture that are not in a state, with the state they are in, as changes -/
def changes (f : CellStates) (e : Extent) (part : Option Subresources) (after : ResourceState) :
    List (Transition .texture) :=
  (e.places.filter fun x => f x.1 x.2 ≠ after && part.all fun p => p.contains x.1 x.2).map
    fun x => ⟨some (.cell x.1 x.2), f x.1 x.2⟩

/-- the states by cell number -/
def byNumber (e : Extent) (f : CellStates) (i : Nat) : ResourceState := f (i % e.mips) (i / e.mips)

theorem actAll_byNumber (e : Extent) (calls : List (Tracker.Call .texture)) (f : CellStates) :
    Tracker.Call.actAll (k := .texture) e calls (byNumber e f) = byNumber e (actAll calls f) := by
  induction calls generalizing f with
  | nil => rfl
  | cons call calls ih =>
    have hcall : call.act (k := .texture) e (byNumber e f) = byNumber e (act call f) := by
      cases call <;> rfl
    rw [Tracker.Call.actAll, actAll, List.foldl_cons, List.foldl_cons, hcall]
    exact ih _

end CellStates

open CellStates

/-- the tracker of a texture of some extent says of the texture what a map from cells to states says of it -/
structure FollowsCells (e : Extent) (f : CellStates) (t : Tracker .texture) : Prop where
  bounds : t.bounds = e
  /-- reading a cell gives its state -/
  read : ∀ mip < e.mips, ∀ layer < e.layers, t.cell mip layer = .ok (f mip layer)
  /-- the texture is in one state as a whole if and only if all its cells are -/
  whole : ∀ s, t.whole? = some s ↔ ∀ mip < e.mips, ∀ layer < e.layers, f mip layer = s
  /-- it is split if and only if two of its cells differ -/
  split : (∃ cells, t.content = .split cells) ↔ ∃ x ∈ e.places, ∃ y ∈ e.places, f x.1 x.2 ≠ f y.1 y.2
  /-- moving all of a texture that is in another state as a whole reports one change, without a part -/
  whole_change : ∀ part s after, t.whole? = some s → s ≠ after →
    (∀ mip < e.mips, ∀ layer < e.layers, (part.all fun p => p.contains mip layer) = true) →
    t.perform (.transition part after) = .ok (.uniform e after, [⟨none, s⟩])
  /-- any other transition reports the changed cells, each once and in order, with the state it was in -/
  cell_changes : ∀ part after,
    ¬ (∃ s, t.whole? = some s ∧ s ≠ after ∧
      ∀ mip < e.mips, ∀ layer < e.layers, (part.all fun p => p.contains mip layer) = true) →
    ∃ t', t.perform (.transition part after) = .ok (t', f.changes e part after)

namespace Tracker

variable {t : Tracker .texture} {f : CellStates} {part : Option Subresources} {after : ResourceState}

/-- the cells of a rectangle, in order -/
theorem slice_eq {e : Extent} {p : Subresources} {cells : List ResourceState} (hlength : cells.length = e.cells)
    (hcells : ∀ i < e.cells, cells[i]? = some (f.byNumber e i)) :
    Grid.slice e p cells =
      (e.places.filter fun x => p.contains x.1 x.2).map fun x => (Subresources.cell x.1 x.2, f x.1 x.2) := by
  have hpieces : Grid.pieces e cells = e.places.map fun x => (Subresources.cell x.1 x.2, f x.1 x.2) := by
    rw [← e.map_range_cells, List.map_map]
    refine List.ext_getElem (by rw [Grid.pieces, List.length_mapIdx, List.length_map, List.length_range, hlength]) ?_
    intro i hi hi'
    have hlt : i < e.cells := by rwa [List.length_map, List.length_range] at hi'
    have hcell : cells[i]? = some (f.byNumber e i) := hcells i hlt
    rw [List.getElem?_eq_getElem (hlength.symm ▸ hlt)] at hcell
    simp only [Grid.pieces, List.getElem_mapIdx, List.getElem_map, List.getElem_range, Function.comp]
    rw [Option.some.inj hcell]
    rfl
  rw [Grid.slice, hpieces, List.filter_map]
  rfl

/-- the cells of a rectangle that need not fit the texture, in order -/
theorem piecesOf_eq (h : Tracks (f.byNumber t.bounds) t) (part : Option Subresources) :
    t.piecesOf part = (t.bounds.places.filter fun x => part.all fun p => p.contains x.1 x.2).map
      fun x => (Subresources.cell x.1 x.2, f x.1 x.2) := by
  cases hr : texture.region t.bounds part with
  | none =>
    have hnone : ∀ x ∈ t.bounds.places, ¬ (part.all fun p => p.contains x.1 x.2) = true := by
      refine Extent.forall_places (P := fun mip layer => ¬ (part.all fun p => p.contains mip layer) = true)
        fun i hi => ?_
      have hreaches := reaches_of_region_none hr i
      rw [reaches, decide_eq_true (show i < texture.size t.bounds from hi), Bool.true_and] at hreaches
      exact Bool.eq_false_iff.1 hreaches
    rw [List.filter_eq_nil_iff.2 hnone]
    simp only [piecesOf, hr, List.map_nil]
  | some p =>
    have hsame : ∀ x ∈ t.bounds.places, (part.all fun p => p.contains x.1 x.2) = p.contains x.1 x.2 := by
      refine Extent.forall_places
        (P := fun mip layer => (part.all fun p => p.contains mip layer) = p.contains mip layer) fun i hi => ?_
      have hreaches := reaches_of_region h.valid.measured hr i
      rw [reaches, reaches, decide_eq_true (show i < texture.size t.bounds from hi), Bool.true_and, Bool.true_and]
        at hreaches
      exact hreaches.symm
    have hslice := slice_eq (p := p) (sized_store h.valid) fun i hi =>
      (getElem?_store (k := .texture) hi).trans (h.stateAt i hi)
    rw [List.filter_congr hsame]
    simp only [piecesOf, hr]
    exact hslice

/-- the pieces a transition reports are the changed cells -/
theorem changes_eq (h : Tracks (f.byNumber t.bounds) t) :
    ((t.piecesOf part).filter fun x => x.2 ≠ after).map (fun x => (⟨some x.1, x.2⟩ : Transition .texture)) =
      f.changes t.bounds part after := by
  rw [piecesOf_eq h, CellStates.changes, List.filter_map, List.filter_filter, List.map_map]
  rfl

/-- a tracker that means a map of cells reads it -/
theorem cell_eq {mip layer : Nat} (h : Tracks (f.byNumber t.bounds) t) (hmip : mip < t.bounds.mips)
    (hlayer : layer < t.bounds.layers) : t.cell mip layer = .ok (f mip layer) := by
  have hi : t.bounds.cellIndex mip layer < t.bounds.cells := cellIndex_lt hmip hlayer
  have hstate := h.stateAt _ hi
  obtain ⟨hmod, hdiv⟩ := @cellIndex_mod t.bounds mip layer hmip
  rw [CellStates.byNumber, hmod, hdiv] at hstate
  obtain ⟨e, c⟩ := t
  cases c with
  | whole s => rw [cell, ← Option.some.inj ((if_pos hi).symm.trans hstate)]
  | split cells =>
    have hcell : cells[e.cellIndex mip layer]? = some (f mip layer) := (stateAt_split hi).symm.trans hstate
    simp only [cell, hcell]

theorem Tracks.followsCells (h : Tracks (f.byNumber t.bounds) t) : FollowsCells t.bounds f t := by
  have hz : 0 < texture.size t.bounds := Nat.mul_pos h.valid.measured.1.1 h.valid.measured.2.1
  have hall_iff : ∀ part : Option Subresources,
      (∀ i < texture.size t.bounds, (part.all fun p => texture.holds t.bounds p i) = true) ↔
        ∀ mip < t.bounds.mips, ∀ layer < t.bounds.layers, (part.all fun p => p.contains mip layer) = true := fun part =>
    Extent.forall_cells_iff (P := fun mip layer => (part.all fun p => p.contains mip layer) = true)
  refine
    { bounds := rfl
      read := fun mip hmip layer hlayer => cell_eq h hmip hlayer
      whole := fun s => ?_
      split := ?_
      whole_change := fun part s after hwhole hne hall => ?_
      cell_changes := fun part after hno => ?_ }
  · rw [h.whole?_eq_some_iff hz]
    exact Extent.forall_cells_iff (P := fun mip layer => f mip layer = s)
  · rw [h.split_iff]
    constructor
    · rintro ⟨i, hi, j, hj, hne⟩
      exact ⟨_, Extent.mem_places.2 (cell_lt hi), _, Extent.mem_places.2 (cell_lt hj), hne⟩
    · rintro ⟨⟨mip, layer⟩, hx, ⟨mip', layer'⟩, hy, hne⟩
      obtain ⟨hmip, hlayer⟩ := Extent.mem_places.1 hx
      obtain ⟨hmip', hlayer'⟩ := Extent.mem_places.1 hy
      refine ⟨_, cellIndex_lt hmip hlayer, _, cellIndex_lt hmip' hlayer', ?_⟩
      obtain ⟨hmod, hdiv⟩ := @cellIndex_mod t.bounds mip layer hmip
      obtain ⟨hmod', hdiv'⟩ := @cellIndex_mod t.bounds mip' layer' hmip'
      rwa [CellStates.byNumber, CellStates.byNumber, hmod, hdiv, hmod', hdiv']
  · rw [perform_transition h.valid, report_of_whole h.valid ⟨⟨hz, (hall_iff part).2 hall⟩, hwhole, hne⟩]
  · refine ⟨(t.transition part after).1, (perform_transition h.valid).trans ?_⟩
    rw [← changes_eq h, ← report_of_piecesOf h.valid]
    rintro ⟨s, ⟨-, hall⟩, hwhole, hne⟩
    exact hno ⟨s, hwhole, hne, (hall_iff part).1 hall⟩

/-- trackers of the same extent are the same if and only if their cells read the same -/
theorem Tracks.eq_iff_cells {t' : Tracker .texture} {f' : CellStates} (h : Tracks (f.byNumber t.bounds) t)
    (h' : Tracks (f'.byNumber t'.bounds) t') (hb : t'.bounds = t.bounds) :
    t' = t ↔ ∀ mip < t.bounds.mips, ∀ layer < t.bounds.layers, t'.cell mip layer = t.cell mip layer := by
  have hz : 0 < texture.size t.bounds := Nat.mul_pos h.valid.measured.1.1 h.valid.measured.2.1
  rw [h.eq_iff h' hb hz, hb]
  refine (Extent.forall_cells_iff (P := fun mip layer => f' mip layer = f mip layer)).trans ?_
  refine forall_congr' fun mip => imp_congr_right fun hmip => ?_
  refine forall_congr' fun layer => imp_congr_right fun hlayer => ?_
  rw [cell_eq h hmip hlayer, cell_eq h' (hb.symm ▸ hmip) (hb.symm ▸ hlayer), Except.ok.injEq]

end Tracker

open Tracker

theorem Extent.measured_atLeastOne (mips layers : UInt32) :
    texture.Measured (Extent.atLeastOne mips.toNat layers.toNat) := by
  have hm := mips.toNat_lt
  have hl := layers.toNat_lt
  simp only [Measured, atLeastOne, maxWord32]
  omega

/-- **The tracker of a texture is a map from cells to states.** For any numbers of levels and layers and any calls, each
call goes well and the tracker follows the map they leave; and it is the same as another tracker of the same extent if
and only if reading any cell gives the same. -/
theorem performAll_followsCells (mips layers : UInt32) (initial : ResourceState) (calls : List (Call .texture)) :
    let e := Extent.atLeastOne mips.toNat layers.toNat
    ∃ t, (uniform e initial).performAll calls = .ok t ∧ FollowsCells e (actAll calls fun _ _ => initial) t ∧
      ∀ (mips' layers' : UInt32) (initial' : ResourceState) (calls' : List (Call .texture)) (t' : Tracker .texture),
        Extent.atLeastOne mips'.toNat layers'.toNat = e →
        (uniform (k := .texture) (Extent.atLeastOne mips'.toNat layers'.toNat) initial').performAll calls' = .ok t' →
        (t' = t ↔ ∀ mip < e.mips, ∀ layer < e.layers, t'.cell mip layer = t.cell mip layer) := by
  intro e
  -- where calls on a new tracker of the extent lead
  have hrun : ∀ initial (calls : List (Call .texture)), ∃ t : Tracker .texture,
      (uniform e initial).performAll calls = .ok t ∧ t.bounds = e ∧
        Tracks ((actAll calls fun _ _ => initial).byNumber t.bounds) t := by
    intro initial calls
    have hstart : Tracks (k := .texture) (byNumber e fun _ _ => initial) (uniform e initial) :=
      tracks_uniform (Extent.measured_atLeastOne mips layers) initial
    obtain ⟨t, hcalls, hbounds, ht⟩ := hstart.exists_performAll calls
    have hbounds : t.bounds = e := hbounds
    refine ⟨t, hcalls, hbounds, ?_⟩
    rw [hbounds, ← actAll_byNumber]
    exact ht
  obtain ⟨t, hcalls, hbounds, ht⟩ := hrun initial calls
  refine ⟨t, hcalls, hbounds ▸ ht.followsCells, fun mips' layers' initial' calls' t' he hcalls' => ?_⟩
  obtain ⟨t'', hcalls'', hbounds', ht'⟩ := hrun initial' calls'
  rw [he, hcalls''] at hcalls'
  cases hcalls'
  have heq := ht.eq_iff_cells ht' (hbounds'.trans hbounds.symm)
  rwa [hbounds] at heq

/-- one level of every layer, moved cell after cell and with a call that lies outside the texture -/
def levelByCells : List (Call .texture) :=
  [.transition (some (Subresources.cell 1 1)) .copyDest, .collapse, .transition (some (Subresources.cell 2 0)) .present,
    .transition (some (Subresources.ofMips 1 Subresources.remaining 0 1)) .copyDest]

/-- it leaves the tracker that moving the level at once leaves -/
theorem performAll_followsCells_level :
    ∃ t : Tracker .texture,
      (uniform (k := .texture) ⟨2, 2⟩ .common).performAll [.transition (some (Subresources.mip 1)) .copyDest] = .ok t ∧
      (uniform (k := .texture) ⟨2, 2⟩ .common).performAll levelByCells = .ok t ∧
      t.content = .split [.common, .copyDest, .common, .copyDest] := by
  obtain ⟨t, hcalls, -, heq⟩ :=
    performAll_followsCells 2 2 .common [.transition (some (Subresources.mip 1)) .copyDest]
  obtain ⟨t', hcalls'⟩ : ∃ t', (uniform (k := .texture) ⟨2, 2⟩ .common).performAll levelByCells = .ok t' := ⟨_, rfl⟩
  have hsame : t' = t := by
    refine (heq 2 2 .common levelByCells t' rfl hcalls').2 ?_
    cases hcalls
    cases hcalls'
    decide
  refine ⟨t, hcalls, hsame ▸ hcalls', ?_⟩
  cases hcalls
  rfl

end FrameGraph
