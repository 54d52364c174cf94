/-
Cells with one number.

A pass that uses a texture in part asks for it cell by cell, each cell under its number, a 32-bit word. A texture can have
more cells than there are words. The numbers then start again at zero, a request for one cell is taken for one for
another, and a pass can move a cell twice.

- `Demand.requests_pair`: two cells make two requests, each under its number.
- `Resource.meet_wrapped`: a pass that asks for two cells with one number moves the first there and back.
- `Resource.numbered_iff_moved_once`: no pass moves a cell twice if and only if the cells can be numbered.
- `Graph.wrapped_compiles`: a frame in which one does. Merging sorts the two moves by the states they start from, so they
  are issued in the other order, and neither replay nor end in the states that are tracked.
-/
import FrameGraph.Proofs.Built
import FrameGraph.Proofs.Canonical

namespace FrameGraph

open ResourceKind

variable {α : Type}

/-! ## Lists of cells -/

namespace Grid

variable {e : Extent} {i j : Nat}

/-- the part that is one cell has that cell alone -/
theorem slice_address {cells : List α} {c : α} (hl : cells.length = e.cells) (hi : cells[i]? = some c) :
    slice e (e.address i) cells = [(e.address i, c)] := by
  have hlt : i < e.cells := hl ▸ (List.getElem?_eq_some_iff.1 hi).1
  have hself : e.holds (e.address i) i = true := (holds_address hlt).2 rfl
  rw [slice, ← List.filterMap_eq_filter, pieces, filterMap_mapIdx_of_unique (i := i) fun j x hj hne => ?_, hi,
    Option.bind_some]
  · exact congrArg Option.toList (if_pos hself)
  · refine if_neg fun hq => hne ?_
    exact ((holds_address (hl ▸ (List.getElem?_eq_some_iff.1 hj).1)).1 hq).symm

/-- two cells that hold something are listed in order, each by its number -/
theorem filled_pair {cells : List (Option α)} {w v : α} (hij : i < j) (hi : cells[i]? = some (some w))
    (hj : cells[j]? = some (some v)) (hrest : ∀ n c, cells[n]? = some c → n ≠ i → n ≠ j → c = none) :
    filled e cells = [(e.address (i % (maxWord32 + 1)), w), (e.address (j % (maxWord32 + 1)), v)] := by
  have hlen : (cells.take j).length = j :=
    List.length_take_of_le (Nat.le_of_lt (List.getElem?_eq_some_iff.1 hj).1)
  have htake : (cells.take j)[i]? = some (some w) := (List.getElem?_take_of_lt hij).trans hi
  have hdrop : (cells.drop j)[0]? = some (some v) := List.getElem?_drop.trans hj
  -- up to the second cell only the first one is kept, and from there on only the second one
  rw [filled, ← List.take_append_drop j cells, List.mapIdx_append, List.filterMap_append, hlen,
    filterMap_mapIdx_of_unique (i := i) fun n c hn hne => ?_,
    filterMap_mapIdx_of_unique (i := 0) fun n c hn hne => ?_, htake, hdrop]
  · simp
  · rw [List.getElem?_drop] at hn
    rw [hrest _ c hn (by omega) (by omega)]
    rfl
  · have hlt : n < j := hlen ▸ (List.getElem?_eq_some_iff.1 hn).1
    rw [List.getElem?_take_of_lt hlt] at hn
    rw [hrest n c hn hne (Nat.ne_of_lt hlt)]
    rfl

end Grid

/-! ## Parts that are one cell -/

/-- a rectangle that fits is not cut -/
theorem Subresources.clamp_of_inside {e : Extent} {r : Subresources} (h : texture.Inside e r) : r.clamp e = some r := by
  obtain ⟨⟨h1, h2⟩, h3, h4⟩ := h
  refine clamp_eq_some_iff.2 ⟨by omega, ?_⟩
  rw [Nat.min_eq_left (by omega), Nat.min_eq_left (by omega)]
  rfl

/-- one cell of several is not all of them -/
theorem Extent.covers_address {e : Extent} {i : Nat} (hone : 1 < e.cells) : (e.address i).covers e = false := by
  have hzero : 0 < e.cells := Nat.lt_of_succ_lt hone
  rw [← Bool.not_eq_true]
  intro hc
  have h0 : i = 0 := (holds_address hzero).1 (holds_of_covers (k := texture) hc hzero)
  have h1 : i = 1 := (holds_address hone).1 (holds_of_covers (k := texture) hc hone)
  exact Nat.zero_ne_one (h0.symm.trans h1)

namespace Demand

variable {e : Extent} {i j : Nat} {w v : Want .texture}

/-- asking for one cell of several sets what is asked of that cell -/
theorem add_address (d : Demand .texture) (hone : 1 < e.cells) (hi : i < e.cells) :
    d.add e (some (e.address i)) w = .parts (Grid.write e (e.address i) (some w) (d.store e)) := by
  simp only [add, ResourceKind.clamp, Subresources.clamp_of_inside (inside_address hi), ResourceKind.covers,
    Extent.covers_address hone, Bool.false_eq_true, if_false, ResourceKind.write]

/-- **Two cells make two requests, each under its number.** -/
theorem requests_pair (hij : i < j) (hj : j < e.cells) :
    (ofList (k := .texture) e [(some (e.address i), w), (some (e.address j), v)]).requests e =
      [(some (e.address (i % (maxWord32 + 1))), w), (some (e.address (j % (maxWord32 + 1))), v)] := by
  have hone : 1 < e.cells := by omega
  let cells := Grid.write e (e.address j) (some v) (Grid.write e (e.address i) (some w) (Grid.fill e none))
  have hasked : ofList (k := .texture) e [(some (e.address i), w), (some (e.address j), v)] = .parts cells := by
    simp only [ofList, List.foldl_cons, List.foldl_nil, add_address _ hone (hij.trans hj), add_address _ hone hj]
    rfl
  have hlength : cells.length = e.cells := by
    rw [Grid.length_write, Grid.length_write]
    exact List.length_replicate
  have hcell : ∀ n < e.cells, cells[n]? = some (if n = j then some v else if n = i then some w else none) := by
    intro n hn
    have hholds : ∀ m, e.holds (e.address m) n = decide (n = m) := fun m =>
      Bool.eq_iff_iff.2 ((holds_address hn).trans (eq_comm.trans decide_eq_true_iff.symm))
    rw [Grid.getElem?_write, Grid.getElem?_write, Grid.fill, List.getElem?_replicate_of_lt hn, hholds, hholds]
    simp
  rw [hasked, requests]
  refine congrArg (List.map _) (Grid.filled_pair (e := e) (w := w) (v := v) hij ?_ ?_ fun n c hn hni hnj => ?_)
  · rw [hcell i (hij.trans hj), if_neg (Nat.ne_of_lt hij), if_pos rfl]
  · rw [hcell j hj, if_pos rfl]
  · rw [hcell n (hlength ▸ (List.getElem?_eq_some_iff.1 hn).1), if_neg hnj, if_neg hni] at hn
    exact (Option.some.inj hn).symm

end Demand

/-- moving one cell of several reports that cell -/
theorem Tracker.transition_address {t : Tracker .texture} {i : Nat} {a b : ResourceState} (h : t.Valid)
    (hone : 1 < t.bounds.cells) (hs : t.stateAt i = some b) (hne : b ≠ a) :
    (t.transition (some (t.bounds.address i)) a).2 = [⟨some (t.bounds.address i), b⟩] := by
  have hi : i < t.bounds.cells := by
    by_contra hi
    rw [stateAt_of_size_le hi] at hs
    cases hs
  have hmove : ∀ cells : List ResourceState, cells.length = t.bounds.cells → cells[i]? = some b →
      (t.moveIn cells (t.bounds.address i) a).2 = [⟨some (t.bounds.address i), b⟩] := by
    intro cells hl hc
    simp only [moveIn, ResourceKind.slice, Grid.slice_address hl hc]
    simp [hne]
  have hregion : texture.region t.bounds (some (t.bounds.address i)) = some (t.bounds.address i) :=
    Subresources.clamp_of_inside (inside_address hi)
  obtain ⟨e, c⟩ := t
  cases c with
  | whole c =>
    obtain rfl : c = b := Option.some.inj ((if_pos hi).symm.trans hs)
    have hcovers : texture.covers e (e.address i) = false := Extent.covers_address hone
    simp only [transition, hregion, if_neg hne, hcovers, Bool.false_eq_true, if_false]
    exact hmove _ List.length_replicate (List.getElem?_replicate_of_lt hi)
  | split cells =>
    simp only [transition, hregion]
    exact hmove cells (h.sized cells rfl) ((stateAt_split hi).symm.trans hs)

/-- one cell of several, moved away and back: two changes, and the tracker as it was -/
theorem Tracker.Canonical.serve_back {t : Tracker .texture} {initial : ResourceState} {i : Nat} {w v : Want .texture}
    (h : t.Canonical initial) (hone : 1 < t.bounds.cells) (hs : t.stateAt i = some v.state) (hne : v.state ≠ w.state) :
    let part := some (t.bounds.address i)
    t.serve [(part, w), (part, v)] = (t, [(w, ⟨part, v.state⟩), (v, ⟨part, w.state⟩)]) := by
  intro part
  let moved := (t.transition part w.state).1
  have hreach : ∀ n, texture.reaches t.bounds part n = true ↔ n < t.bounds.cells ∧ i = n := by
    intro n
    rw [reaches_some, Bool.and_eq_true, decide_eq_true_eq]
    exact and_congr_right holds_address
  have hi : i < t.bounds.cells := by
    by_contra hi
    rw [stateAt_of_size_le hi] at hs
    cases hs
  have hthere : (t.transition part w.state).2 = [⟨part, v.state⟩] := transition_address h.valid hone hs hne
  have hback : (moved.transition part v.state).2 = [⟨part, w.state⟩] := by
    have hbounds : moved.bounds = t.bounds := bounds_transition h.valid
    have hstate : moved.stateAt i = some w.state := by
      rw [stateAt_transition h.valid, if_pos ((hreach i).2 ⟨hi, rfl⟩)]
    have hchange := transition_address (valid_transition h.valid) (by rwa [hbounds]) hstate hne.symm
    rwa [hbounds] at hchange
  have hsame : (moved.transition part v.state).1 = t :=
    h.transition_back fun n hn => by rw [← ((hreach n).1 hn).2, hs]
  rw [serve_cons, serve_cons, hthere, hback, hsame]
  rfl

/-! ## Cells that are moved twice -/

namespace Resource

variable {r : Resource .texture} {initial : ResourceState} {native index i : Nat} {u v : Use .texture}

/-- **Two cells with one number.** A pass that asks for a cell and for the next one with the same number moves the first
cell twice: into the state asked of it, and then into the state asked of the other. If it was in that state before, the
record is left as it was. -/
theorem meet_wrapped (h : r.Ready) (hc : r.tracker.Canonical initial) (hn : r.native = some native)
    (hi : i ≤ maxWord32) (hj : i + (maxWord32 + 1) < r.bounds.cells)
    (hu : u.handle.part = some (r.bounds.address i)) (hv : v.handle.part = some (r.bounds.address (i + (maxWord32 + 1))))
    (hs : r.tracker.stateAt i = some v.state) (hne : v.state ≠ u.state) :
    r.meet index [u, v] =
      (r, [⟨index, native, v.state, u.state, u.tag.getD r.tag, some (r.bounds.address i)⟩,
        ⟨index, native, u.state, v.state, v.tag.getD r.tag, some (r.bounds.address i)⟩]) := by
  have hb := h.bounds
  let part : Option Subresources := some (r.tracker.bounds.address i)
  let first : Want .texture := ⟨u.state, u.tag.getD r.tag⟩
  let second : Want .texture := ⟨v.state, v.tag.getD r.tag⟩
  have hrequests : (r.demand [u, v]).requests r.tracker.bounds = [(part, first), (part, second)] := by
    have hlow : i % (maxWord32 + 1) = i := Nat.mod_eq_of_lt (Nat.lt_succ_of_le hi)
    have hpair := Demand.requests_pair (e := r.tracker.bounds) (i := i) (j := i + (maxWord32 + 1)) (w := first)
      (v := second) (by omega) (hb ▸ hj)
    rw [Nat.add_mod_right, hlow] at hpair
    rw [demand, asked, List.map_cons, List.map_cons, List.map_nil, hu, hv, ← hb]
    exact hpair
  have hone : 1 < r.tracker.bounds.cells := by
    rw [hb]
    omega
  have hserve : r.tracker.serve [(part, first), (part, second)] =
      (r.tracker, [(first, ⟨part, v.state⟩), (second, ⟨part, u.state⟩)]) := hc.serve_back hone hs hne
  rw [meet_eq hn, hrequests, hserve, ← hb]
  rfl

/-- **No pass moves a cell twice, whatever it asks for, if and only if the cells can be numbered.** -/
theorem numbered_iff_moved_once (d : TextureDescriptor) :
    texture.Numbered (texture.bounds d) ↔ ∀ (r : Resource .texture) (index : Nat) (uses : List (Use .texture)),
      r.Ready → r.descriptor = d →
        ∀ i, (r.meet index uses).2.countP (fun b => texture.reaches (texture.bounds d) b.part i) ≤ 1 := by
  constructor
  · rintro hn r index uses h rfl i
    let L : Layout := fun
      | .texture, _ => some r.bounds
      | .buffer, _ => none
    have hmoves : Moves L _ _ (r.meet index uses).2 := moves_meet h rfl fun _ => hn
    refine le_of_eq_of_le (List.countP_congr fun b hb => ?_) (hmoves.once index i)
    rw [(of_mem_meet h hb).1, decide_eq_true rfl, Bool.true_and]
    rfl
  · intro h
    by_contra hn
    have hlt : 0 + (maxWord32 + 1) < (texture.bounds d).cells := (Nat.zero_add _).trans_lt (Nat.lt_of_not_le hn)
    have hpos : 0 < (texture.bounds d).cells := Nat.zero_lt_of_lt hlt
    let r : Resource .texture := .new "" d (some ⟨0, none⟩) .copyDest
    let ask : Nat → ResourceState → Use .texture := fun cell state =>
      ⟨⟨0, some ((texture.bounds d).address cell)⟩, none, state, .write⟩
    have hready : r.Ready := ready_new (k := .texture) "" d ⟨0, none⟩ .copyDest
    have hmeet : r.meet 0 [ask 0 .renderTarget, ask (0 + (maxWord32 + 1)) .copyDest] = _ :=
      meet_wrapped hready (Tracker.canonical_uniform (texture.measured_bounds d) .copyDest) rfl (Nat.zero_le _) hlt rfl
        rfl (if_pos hpos) ResourceState.noConfusion
    have hreach : texture.reaches (texture.bounds d) (some ((texture.bounds d).address 0)) 0 = true := by
      rw [reaches_some, (holds_address hpos).2 rfl, Bool.and_true]
      exact decide_eq_true hpos
    have htwo := h r 0 [ask 0 .renderTarget, ask (0 + (maxWord32 + 1)) .copyDest] hready rfl 0
    rw [hmeet] at htwo
    simp only [List.countP_cons, List.countP_nil, Resource.bounds, r, Resource.new, hreach] at htwo
    exact absurd htwo (by decide)

end Resource

/-! ## A frame -/

/-- a pass that touches one texture and leaves its record as it is leaves the registry as it is, and has the barriers on that
texture -/
theorem Pass.advance_touched {g : Registry} {p : Pass} {n : Nat} {r : Resource .texture}
    {barriers : List (Barrier .texture)} (hr : (g.get .texture)[n]? = some r) (ht : p.touched .texture = [n])
    (hb : p.touched .buffer = []) (hm : r.meet n (p.usesOf .texture n) = (r, barriers)) :
    p.advance g = g ∧ p.barriersFrom g = ⟨barriers, []⟩ := by
  have hnone : ∀ k m, m ∉ p.touched k → p.usesOf k m = [] := fun k m hm => not_not.1 fun hu => hm (mem_touched.2 hu)
  constructor
  · refine Registry.ext_getElem? fun k m => ?_
    rw [advance_getElem?]
    cases hq : (g.get k)[m]? with
    | none => rfl
    | some q =>
      rw [Option.map_some]
      by_cases hmem : m ∈ p.touched k
      · cases k with
        | texture =>
          obtain rfl : m = n := List.mem_singleton.1 (ht ▸ hmem)
          obtain rfl : q = r := Option.some.inj (hq.symm.trans hr)
          rw [hm]
        | buffer =>
          rw [hb] at hmem
          cases hmem
      · rw [hnone k m hmem, Resource.meet_nil]
  · rw [barriersFrom, Both.ofFun, ht, hb, List.flatMap_singleton, List.flatMap_nil, hr]
    exact congrArg (fun x => (⟨x.2, []⟩ : Batch)) hm

namespace Graph

/-- a texture of 2 levels and 2^31 + 1 layers -/
def manyCells : TextureDescriptor := { TextureDescriptor.blank with mipCount := 2, layerCount := 2147483649 }

/-- the first pass draws to the first cell of the texture and copies to the other cell with its number, and the second one
copies to all of it; before and after the frame the texture is a copy destination -/
def wrapped : Graph :=
  let (g, t) := (new { eliminate := false }).importNative (k := .texture) 9 manyCells .copyDest
  let g := g.exportState ⟨.texture, t⟩ .copyDest
  let g := (g.addPass "draw" .graphics
    [.access ⟨.texture, t.restrict (.cell 0 0)⟩ .renderTarget .write,
     .access ⟨.texture, t.restrict (.cell 0 2147483648)⟩ .copyDest .write] fun _ => []).1
  (g.addPass "fill" .graphics [.access ⟨.texture, t⟩ .copyDest .write] fun _ => []).1

theorem built_wrapped : wrapped.Built :=
  .addPass _ _ _ _ (.addPass _ _ _ _ (.exportState _ _ (.importNative .texture _ _ _ (.new _))))

/-- the record of its texture, with the passes that write it -/
def wrappedTexture : Resource .texture :=
  { Resource.new "imported_texture_0" manyCells (some ⟨9, none⟩) .copyDest with
    exported := some .copyDest, writers := [0, 1] }

/-- a barrier on the first cell of the texture -/
def wrappedBarrier (before after : ResourceState) : Barrier .texture :=
  ⟨0, 9, before, after, .color, some (.cell 0 0)⟩

theorem opened_wrapped : Registry.Opened ⟨[wrappedTexture], []⟩ :=
  have hback : wrapped.registry.back CountingDevice.device {} = (wrapped.registry, none, {}) := rfl
  (Registry.opened_of_back built_wrapped.coherent hback).noteWriters (wrapped.passes.map Pass.withSets)

theorem distinct_wrapped : Registry.Distinct ⟨[wrappedTexture], []⟩ := by
  intro k
  cases k <;> decide

/-- making the barriers moves the first cell there and back -/
theorem wrapped_synthesized : synthesize (wrapped.passes.map Pass.withSets) ⟨[wrappedTexture], []⟩ [0, 1] =
    .ok (⟨[wrappedTexture], []⟩,
      [(0, ⟨[wrappedBarrier .copyDest .renderTarget, wrappedBarrier .renderTarget .copyDest], []⟩), (1, .empty)]) := by
  have hready := opened_wrapped.ready
  let first : Use .texture := ⟨⟨0, some (.cell 0 0)⟩, none, .renderTarget, .write⟩
  let other : Use .texture := ⟨⟨0, some (.cell 0 2147483648)⟩, none, .copyDest, .write⟩
  let all : Use .texture := ⟨⟨0, none⟩, none, .copyDest, .write⟩
  have hmeet : wrappedTexture.meet 0 [first, other] = (wrappedTexture,
      [wrappedBarrier .copyDest .renderTarget, wrappedBarrier .renderTarget .copyDest]) :=
    Resource.meet_wrapped (i := 0) (hready .texture _ (List.mem_singleton_self _))
      (Tracker.canonical_uniform (texture.measured_bounds _) .copyDest) rfl (by decide) (by decide) rfl rfl rfl
      (by decide)
  have hrest : wrappedTexture.meet 0 [all] = (wrappedTexture, []) := rfl
  -- from here on the passes are what is used of them
  obtain ⟨draw, fill, hdraw, hfill, hlegal, hlegal', huses, ht, hb, huses', ht', hb'⟩ : ∃ draw fill,
      (wrapped.passes.map Pass.withSets)[0]? = some draw ∧ (wrapped.passes.map Pass.withSets)[1]? = some fill ∧
      draw.illegal? = none ∧ fill.illegal? = none ∧
      draw.usesOf .texture 0 = [first, other] ∧ draw.touched .texture = [0] ∧ draw.touched .buffer = [] ∧
      fill.usesOf .texture 0 = [all] ∧ fill.touched .texture = [0] ∧ fill.touched .buffer = [] :=
    ⟨_, _, rfl, rfl, rfl, rfl, rfl, rfl, rfl, rfl, rfl, rfl⟩
  obtain ⟨hadvance, hbarriers⟩ := Pass.advance_touched (g := ⟨[wrappedTexture], []⟩) rfl ht hb (huses ▸ hmeet)
  obtain ⟨hadvance', hbarriers'⟩ := Pass.advance_touched (g := ⟨[wrappedTexture], []⟩) rfl ht' hb' (huses' ▸ hrest)
  rw [synthesize_legal hready hdraw hlegal, hadvance, hbarriers, synthesize_legal hready hfill hlegal', hadvance',
    hbarriers']
  rfl

/-- **The frame compiles,** to barriers that merging has put in the other order, and to a record that is as it was. -/
theorem wrapped_compiles : ∃ g' stats, wrapped.compile CountingDevice.device {} = .ok (g', .ok stats, {}) ∧
    g'.settings = wrapped.settings ∧ g'.registry = ⟨[wrappedTexture], []⟩ ∧
    g'.walk.map (fun x => (x.1, x.2.plan.barriers)) =
      [(0, ⟨[wrappedBarrier .renderTarget .copyDest, wrappedBarrier .copyDest .renderTarget], []⟩), (1, .empty)] := by
  have hback : wrapped.registry.back CountingDevice.device {} = (wrapped.registry, none, {}) := rfl
  have hkept : keptPasses wrapped.settings.cull (wrapped.registry.noteWriters (wrapped.passes.map Pass.withSets))
      (wrapped.passes.map Pass.withSets) = .ok [0, 1] := by decide +kernel
  have hmerged : afterMerging wrapped.settings ⟨[wrappedTexture], []⟩
      [(0, ⟨[wrappedBarrier .copyDest .renderTarget, wrappedBarrier .renderTarget .copyDest], []⟩), (1, .empty)] =
        .ok ([(0, ⟨[wrappedBarrier .renderTarget .copyDest, wrappedBarrier .copyDest .renderTarget], []⟩),
          (1, .empty)], 0) := rfl
  have hplan := compilePasses_eq_ok_iff.2
    ⟨[0, 1], _, _, _, _, 0, 0, hkept, wrapped_synthesized, hmerged, rfl, rfl⟩
  have hcompile := compile_of_back hback
  rw [hplan] at hcompile
  exact ⟨_, _, hcompile, rfl, rfl, rfl⟩

/-- in this order the barriers leave the first cell as a render target -/
theorem wrapped_left :
    [wrappedBarrier .renderTarget .copyDest, wrappedBarrier .copyDest .renderTarget].foldl
      (Barrier.apply (Registry.layout ⟨[wrappedTexture], []⟩)) (Registry.initially ⟨[wrappedTexture], []⟩ .texture) 0 0 =
        some .renderTarget := by decide

end Graph

end FrameGraph
