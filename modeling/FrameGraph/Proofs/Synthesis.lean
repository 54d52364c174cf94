/-
The barriers made for a pass are the exact difference between the states before it and the states it asks for.

The state a pass asks for at an address is that of its last usage that has the address (`Pass.asks`); granting a pass
puts each address in the state asked for and leaves the others alone (`Pass.grant`).

- `moves_barriersFrom`: the barriers of one pass take the tracked states to what the pass is granted.
- `synthesize_granted`: the barriers of some passes do so pass after pass (`Granted`), and the trackers end in the states
  all the passes leave (`World.grantAll`).
- `synthesize_ready`: nothing but the tracked states of the records changes (`rewind`).
The first two need every texture that is used in part to have cell numbers that fit a word (`Pass.Countable`).
-/
import FrameGraph.Proofs.Checks
import FrameGraph.Proofs.World

namespace FrameGraph

open ResourceKind

variable {k : ResourceKind}

/-! ## What passes ask for -/

/-- the state the last usage that has the address asks for -/
def Pass.asks (p : Pass) (L : Layout) : World := fun k n i =>
  (L k n).bind fun b => ((p.usesOf k n).findRev? fun u => k.reaches b u.handle.part i).map Use.state

/-- the world once the pass has what it asks for -/
def Pass.grant (p : Pass) (L : Layout) (w : World) : World := fun k n i => (p.asks L k n i).or (w k n i)

/-- the world after one pass of a list -/
def World.grant (L : Layout) (passes : List Pass) (w : World) (i : Nat) : World :=
  match passes[i]? with
  | some p => p.grant L w
  | none => w

/-- the world after some passes, one after another -/
def World.grantAll (L : Layout) (passes : List Pass) (w : World) (indices : List Nat) : World :=
  indices.foldl (World.grant L passes) w

/-- pass after pass, the barriers are the exact difference between the world and what the pass is granted -/
def Granted (L : Layout) (passes : List Pass) : World → Batches → Prop
  | _, [] => True
  | w, (i, batch) :: rest =>
    (∀ k, Moves L (w k) (w.grant L passes i k) (batch.get k)) ∧ Granted L passes (w.grant L passes i) rest

/-- the addresses of every resource the pass uses in part can be numbered -/
def Pass.Countable (L : Layout) (p : Pass) : Prop :=
  ∀ k n b, L k n = some b → (∃ u ∈ p.usesOf k n, k.Proper b u.handle.part) → k.Numbered b

/-! ## Records that are ready -/

/-- a record with a native object and a tracker of its size -/
structure Resource.Ready (r : Resource k) : Prop where
  valid : r.tracker.Valid
  bounds : r.tracker.bounds = r.bounds
  backed : r.native.isSome = true

/-- every record is ready -/
def Registry.Ready (g : Registry) : Prop := ∀ k, ∀ r ∈ g.get k, r.Ready

/-- the tracked states -/
def Registry.world (g : Registry) : World := fun k n i => ((g.get k)[n]?).bind fun r => r.tracker.stateAt i

/-- the barrier is on the native object of its record -/
def Barrier.Named (g : Registry) (b : Barrier k) : Prop :=
  ((g.get k)[b.resource]?).bind Resource.native = some b.native

theorem Registry.getElem?_mapRecords (g : Registry) (f : (k : ResourceKind) → Nat → Resource k → Resource k)
    (k : ResourceKind) (n : Nat) : ((g.mapRecords f).get k)[n]? = ((g.get k)[n]?).map (f k n) := by
  rw [mapRecords, Both.get_ofFun, List.getElem?_mapIdx]

theorem Registry.ext_getElem? {g g' : Registry} (h : ∀ (k : ResourceKind) (n : Nat), (g.get k)[n]? = (g'.get k)[n]?) :
    g = g' :=
  Both.ext_get fun k => List.ext_getElem? (h k)

theorem Registry.rewind_getElem? (g : Registry) (k : ResourceKind) (n : Nat) :
    (g.rewind.get k)[n]? = ((g.get k)[n]?).map Resource.rewind := g.getElem?_mapRecords _ k n

/-- what a change leaves alone in each record is the same in the registry -/
theorem Registry.map_mapRecords {α : Type} {q : Resource k → α}
    {f : (k : ResourceKind) → Nat → Resource k → Resource k} (hf : ∀ n r, q (f k n r) = q r) (g : Registry) :
    ((g.mapRecords f).get k).map q = (g.get k).map q := by
  refine List.ext_getElem? fun n => ?_
  rw [List.getElem?_map, List.getElem?_map, getElem?_mapRecords, Option.map_map]
  refine Option.map_congr fun r _ => ?_
  exact hf n r

theorem Registry.layout_congr {g g' : Registry}
    (h : ∀ k, (g.get k).map Resource.bounds = (g'.get k).map Resource.bounds) : g.layout = g'.layout := by
  funext k n
  rw [layout, layout, ← List.getElem?_map, ← List.getElem?_map, h]

/-- registries that agree but for their tracked states have the same layout -/
theorem Registry.layout_of_rewind {g g' : Registry} (h : g.rewind = g'.rewind) : g.layout = g'.layout := by
  funext k n
  have e := congrArg (fun g : Registry => ((g.get k)[n]?).map Resource.bounds) h
  simp only [rewind_getElem?, Option.map_map] at e
  exact e

/-- registries that agree but for their tracked states agree on whatever rewinding leaves alone -/
theorem Registry.bind_of_rewind {α : Type} {g g' : Registry} (h : g.rewind = g'.rewind) (n : Nat)
    {f : Resource k → Option α} (hf : ∀ r, f r.rewind = f r) :
    ((g.get k)[n]?).bind f = ((g'.get k)[n]?).bind f := by
  have e := congrArg (fun g : Registry => ((g.get k)[n]?).bind f) h
  have hcomp : f ∘ Resource.rewind = f := funext hf
  simp only [rewind_getElem?, Option.bind_map, hcomp] at e
  exact e

/-- registries that agree but for their tracked states have the same native objects -/
theorem Registry.native_of_rewind {g g' : Registry} (h : g.rewind = g'.rewind) (k : ResourceKind) (n : Nat) :
    ((g.get k)[n]?).bind Resource.native = ((g'.get k)[n]?).bind Resource.native :=
  bind_of_rewind h n fun _ => rfl

/-! ## One resource -/

namespace Resource

variable {r : Resource k} {uses : List (Use k)} {index : Nat}

theorem ready_new (name : String) (d : k.Descriptor) (a : Allocation) (s : ResourceState) :
    (new name d (some a) s : Resource k).Ready :=
  ⟨Tracker.valid_uniform (k.measured_bounds d) s, rfl, rfl⟩

/-- meeting what usages ask for changes the tracker of the record and nothing else -/
theorem meet_fst (r : Resource k) (index : Nat) (uses : List (Use k)) :
    (r.meet index uses).1 = { r with tracker := (r.meet index uses).1.tracker } := by
  unfold meet
  split <;> rfl

theorem map_meet {α : Type} {q : Resource k → α}
    (hq : ∀ (r : Resource k) (t : Tracker k), q { r with tracker := t } = q r) : q (r.meet index uses).1 = q r := by
  rw [meet_fst]
  exact hq _ _

theorem bounds_meet : (r.meet index uses).1.bounds = r.bounds := map_meet fun _ _ => rfl

/-- a record that no usage names is left alone -/
theorem meet_nil (r : Resource k) (index : Nat) : r.meet index [] = (r, []) := by
  unfold meet
  split <;> rfl

theorem meet_eq {native : Nat} (h : r.native = some native) :
    r.meet index uses = ({ r with tracker := (r.tracker.serve ((r.demand uses).requests r.tracker.bounds)).1 },
      (r.tracker.serve ((r.demand uses).requests r.tracker.bounds)).2.map fun (w, c) => barrier index native w c) := by
  simp only [meet, h]

theorem wantAt_demand (i : Nat) :
    (r.demand uses).wantAt r.tracker.bounds i =
      (uses.findRev? fun u => k.reaches r.tracker.bounds u.handle.part i).map
        fun u => ⟨u.state, u.tag.getD r.tag⟩ := by
  rw [demand, asked, Demand.wantAt_ofList, List.findRev?_eq_find?_reverse, List.findRev?_eq_find?_reverse,
    ← List.map_reverse, List.find?_map, Option.map_map]
  rfl

theorem tiles_demand (h : r.Ready) (hn : (∃ u ∈ uses, k.Proper r.bounds u.handle.part) → k.Numbered r.bounds) :
    Tiles r.tracker.bounds ((r.demand uses).wantAt r.tracker.bounds) ((r.demand uses).requests r.tracker.bounds) := by
  refine Demand.tiles_requests (fun s hs => ?_) (Demand.sized_ofList _ _)
  obtain ⟨x, hx, hp⟩ := Demand.proper_of_ofList hs
  obtain ⟨u, hu, rfl⟩ := List.mem_map.1 hx
  rw [h.bounds] at hp ⊢
  exact hn ⟨u, hu, hp⟩

theorem rewind_meet (h : r.Ready) : (r.meet index uses).1.rewind = r.rewind := by
  obtain ⟨native, hv⟩ := Option.isSome_iff_exists.1 h.backed
  rw [meet_eq hv]
  simp only [rewind, Tracker.reset, Tracker.bounds_serve h.valid]

theorem ready_meet (h : r.Ready) : (r.meet index uses).1.Ready := by
  obtain ⟨native, hv⟩ := Option.isSome_iff_exists.1 h.backed
  rw [meet_eq hv]
  exact ⟨Tracker.valid_serve h.valid, (Tracker.bounds_serve h.valid).trans h.bounds, h.backed⟩

/-- the last usage that has an address decides its state -/
theorem stateAt_meet (h : r.Ready) (hn : (∃ u ∈ uses, k.Proper r.bounds u.handle.part) → k.Numbered r.bounds)
    (i : Nat) :
    (r.meet index uses).1.tracker.stateAt i =
      ((uses.findRev? fun u => k.reaches r.bounds u.handle.part i).map Use.state).or (r.tracker.stateAt i) := by
  obtain ⟨native, hv⟩ := Option.isSome_iff_exists.1 h.backed
  rw [meet_eq hv, Tracker.stateAt_serve h.valid (tiles_demand h hn), wantAt_demand, Option.map_map, h.bounds]
  rfl

theorem of_mem_meet (h : r.Ready) {b : Barrier k} (hb : b ∈ (r.meet index uses).2) :
    b.resource = index ∧ r.native = some b.native ∧ b.before ≠ b.after ∧
      ∀ p, b.part = some p → k.Inside r.bounds p := by
  obtain ⟨native, hv⟩ := Option.isSome_iff_exists.1 h.backed
  rw [meet_eq hv] at hb
  obtain ⟨x, hx, rfl⟩ := List.mem_map.1 hb
  obtain ⟨h1, h2⟩ := Tracker.of_mem_serve h.valid hx
  rw [h.bounds] at h2
  exact ⟨rfl, hv, h1, h2⟩

/-- nothing goes wrong in meeting what usages ask for -/
theorem Ready.check_ok (h : r.Ready) (uses : List (Use k)) : r.check uses = .ok () := by
  rw [check, Demand.checkAll_ok h.valid.measured (sized_fill _ _), if_pos h.backed]
  exact Tracker.checkAll_ok h.valid _

/-- the barriers of one resource are the exact difference of its states -/
theorem countP_meet {L : Layout} (h : r.Ready) (hL : L k index = some r.bounds)
    (hn : (∃ u ∈ uses, k.Proper r.bounds u.handle.part) → k.Numbered r.bounds) (i : Nat) (s s' : ResourceState) :
    (r.meet index uses).2.countP (Barrier.takes L index i s s') =
      if r.tracker.stateAt i = some s ∧ (r.meet index uses).1.tracker.stateAt i = some s' ∧ s ≠ s' then 1 else 0 := by
  obtain ⟨native, hv⟩ := Option.isSome_iff_exists.1 h.backed
  rw [meet_eq hv, List.countP_map]
  refine Eq.trans (List.countP_congr fun x _ => ?_) (Tracker.countP_serve h.valid (tiles_demand h hn) i s s')
  simp [Barrier.takes, Barrier.covers, barrier, hL, h.bounds]

/-- so they take the resource, and nothing else, from the states it had to those it is left in -/
theorem moves_meet {L : Layout} (h : r.Ready) (hL : L k index = some r.bounds)
    (hn : (∃ u ∈ uses, k.Proper r.bounds u.handle.part) → k.Numbered r.bounds) :
    Moves L (fun n i => if n = index then r.tracker.stateAt i else none)
      (fun n i => if n = index then (r.meet index uses).1.tracker.stateAt i else none) (r.meet index uses).2 where
  same := fun n i => by
    have hmeet : (r.meet index uses).1.Ready := ready_meet h
    have hb : (r.meet index uses).1.bounds = r.bounds := bounds_meet
    by_cases hni : n = index
    · rw [if_pos hni, if_pos hni, Tracker.isSome_stateAt h.valid, Tracker.isSome_stateAt hmeet.valid, h.bounds,
        hmeet.bounds, hb]
    · rw [if_neg hni, if_neg hni]
  placed := fun b hb => by
    obtain ⟨hindex, -, -, hinside⟩ := of_mem_meet h hb
    exact ⟨r.bounds, hindex ▸ hL, hinside⟩
  changing := fun b hb => (of_mem_meet h hb).2.2.1
  count := fun n i s s' => by
    by_cases hni : n = index
    · rw [hni, if_pos rfl, if_pos rfl]
      exact countP_meet h hL hn i s s'
    · rw [if_neg hni, if_neg hni, if_neg fun hno => nomatch hno.1]
      refine List.countP_eq_zero.2 fun b hb htakes => ?_
      exact hni ((Moves.takes_iff.1 htakes).1.1.symm.trans (of_mem_meet h hb).1)

end Resource

/-! ## One pass -/

/-- of many lists, only the one an element can satisfy `q` in counts -/
theorem countP_flatMap_of_unique {α : Type} {ns : List Nat} {f : Nat → List α} {q : α → Bool} {n : Nat}
    (hnd : ns.Nodup) (h : ∀ m, m ≠ n → ∀ a ∈ f m, q a = false) :
    (ns.flatMap f).countP q = if n ∈ ns then (f n).countP q else 0 := by
  induction ns with
  | nil => rfl
  | cons m ns ih =>
    obtain ⟨hm, hnd⟩ := List.nodup_cons.1 hnd
    rw [List.flatMap_cons, List.countP_append, ih hnd]
    by_cases hmn : m = n
    · subst hmn
      simp [hm]
    · have hz : (f m).countP q = 0 := List.countP_eq_zero.2 fun a ha => by simp [h m hmn a ha]
      rw [hz, Nat.zero_add]
      simp [Ne.symm hmn]

theorem nodup_eraseDups {α : Type} [BEq α] [LawfulBEq α] (as : List α) : as.eraseDups.Nodup := by
  induction hn : as.length using Nat.strongRecOn generalizing as with
  | ind n ih =>
    cases as with
    | nil => exact List.nodup_nil
    | cons a as =>
      subst hn
      rw [List.eraseDups_cons, List.nodup_cons]
      refine ⟨fun hm => ?_, ih _ (Nat.lt_succ_of_le (List.length_filter_le _ _)) _ rfl⟩
      simpa using (List.mem_filter.1 (List.mem_eraseDups.1 hm)).2

namespace Pass

variable {g : Registry} {p : Pass}

theorem advance_getElem? (p : Pass) (g : Registry) (k : ResourceKind) (n : Nat) :
    ((p.advance g).get k)[n]? = ((g.get k)[n]?).map fun r => (r.meet n (p.usesOf k n)).1 :=
  g.getElem?_mapRecords _ k n

theorem rewind_advance (h : g.Ready) : (p.advance g).rewind = g.rewind := by
  refine Registry.ext_getElem? fun k n => ?_
  rw [Registry.rewind_getElem?, Registry.rewind_getElem?, advance_getElem?, Option.map_map]
  refine Option.map_congr fun r hr => ?_
  exact Resource.rewind_meet (h k r (List.mem_of_getElem? hr))

theorem ready_advance (h : g.Ready) : (p.advance g).Ready := by
  intro k r hr
  obtain ⟨n, hn⟩ := List.mem_iff_getElem?.1 hr
  rw [advance_getElem?] at hn
  obtain ⟨r', hr', rfl⟩ := Option.map_eq_some_iff.1 hn
  exact Resource.ready_meet (h k r' (List.mem_of_getElem? hr'))

theorem world_advance (h : g.Ready) (hc : p.Countable g.layout) : (p.advance g).world = p.grant g.layout g.world := by
  funext k n i
  simp only [Registry.world, advance_getElem?, Pass.grant, Pass.asks, Registry.layout]
  cases hr : (g.get k)[n]? with
  | none => rfl
  | some r =>
    exact Resource.stateAt_meet (h k r (List.mem_of_getElem? hr)) (hc k n _ (Registry.layout_of_getElem? hr)) i

theorem mem_touched {n : Nat} : n ∈ p.touched k ↔ p.usesOf k n ≠ [] := by
  rw [touched, usesOf, List.mem_eraseDups, List.mem_map, ne_eq, List.filter_eq_nil_iff]
  constructor
  · rintro ⟨u, hu, rfl⟩ h
    exact h u hu (decide_eq_true rfl)
  · intro h
    by_contra hn
    exact h fun u hu e => hn ⟨u, hu, of_decide_eq_true e⟩

theorem nodup_touched : (p.touched k).Nodup := nodup_eraseDups _

/-- nothing goes wrong in working out the barriers of a pass -/
theorem check_ok (h : g.Ready) : p.check g = .ok () := by
  have hk : ∀ k, p.checkOf g k = .ok () := by
    intro k
    refine forM_ok fun n _ => ?_
    cases hr : (g.get k)[n]? with
    | none => rfl
    | some r => exact (h k r (List.mem_of_getElem? hr)).check_ok _
  rw [check, hk, hk]
  rfl

theorem get_barriersFrom (p : Pass) (g : Registry) (k : ResourceKind) :
    (p.barriersFrom g).get k = (p.touched k).flatMap fun n =>
      match (g.get k)[n]? with
      | some r => (r.meet n (p.usesOf k n)).2
      | none => [] :=
  Both.get_ofFun _ k

theorem mem_barriersFrom (h : g.Ready) {b : Barrier k} (hb : b ∈ (p.barriersFrom g).get k) :
    ∃ r, (g.get k)[b.resource]? = some r ∧ b ∈ (r.meet b.resource (p.usesOf k b.resource)).2 := by
  rw [get_barriersFrom] at hb
  obtain ⟨n, -, hb⟩ := List.mem_flatMap.1 hb
  cases hr : (g.get k)[n]? with
  | none =>
    rw [hr] at hb
    cases hb
  | some r =>
    simp only [hr] at hb
    obtain ⟨e, -⟩ := Resource.of_mem_meet (h k r (List.mem_of_getElem? hr)) hb
    rw [e]
    exact ⟨r, hr, hb⟩

/-- a pass has barriers only on resources it uses, and on their native objects -/
theorem of_mem_barriersFrom (h : g.Ready) {b : Barrier k} (hb : b ∈ (p.barriersFrom g).get k) :
    p.usesOf k b.resource ≠ [] ∧ b.Named g := by
  obtain ⟨r, hr, hm⟩ := mem_barriersFrom h hb
  have hready := h k r (List.mem_of_getElem? hr)
  refine ⟨fun he => ?_, ?_⟩
  · rw [he, Resource.meet_nil] at hm
    cases hm
  · rw [Barrier.Named, hr]
    exact (Resource.of_mem_meet hready hm).2.1

/-- **The barriers of a pass are the exact difference between the tracked states and what the pass is granted.** -/
theorem moves_barriersFrom (h : g.Ready) (hc : p.Countable g.layout) (k : ResourceKind) :
    Moves g.layout (g.world k) (p.grant g.layout g.world k) ((p.barriersFrom g).get k) where
  same := fun n i => by
    rw [← world_advance h hc]
    simp only [Registry.world, advance_getElem?]
    cases hr : (g.get k)[n]? with
    | none => rfl
    | some r =>
      have hready := h k r (List.mem_of_getElem? hr)
      have hmeet : (r.meet n (p.usesOf k n)).1.Ready := Resource.ready_meet hready
      have hb : (r.meet n (p.usesOf k n)).1.bounds = r.bounds := Resource.bounds_meet
      simp only [Option.map_some, Option.bind_some]
      rw [Tracker.isSome_stateAt hready.valid, Tracker.isSome_stateAt hmeet.valid, hready.bounds, hmeet.bounds, hb]
  placed := fun b hb => by
    obtain ⟨r, hr, hm⟩ := mem_barriersFrom h hb
    refine ⟨r.bounds, Registry.layout_of_getElem? hr, ?_⟩
    exact (Resource.of_mem_meet (h k r (List.mem_of_getElem? hr)) hm).2.2.2
  changing := fun b hb => by
    obtain ⟨r, hr, hm⟩ := mem_barriersFrom h hb
    exact (Resource.of_mem_meet (h k r (List.mem_of_getElem? hr)) hm).2.2.1
  count := fun n i s s' => by
    rw [get_barriersFrom, countP_flatMap_of_unique (n := n) nodup_touched]
    · by_cases ht : n ∈ p.touched k
      · rw [if_pos ht, ← world_advance h hc]
        simp only [Registry.world, advance_getElem?]
        cases hr : (g.get k)[n]? with
        | none => simp
        | some r =>
          have hl : g.layout k n = some r.bounds := Registry.layout_of_getElem? hr
          exact Resource.countP_meet (h k r (List.mem_of_getElem? hr)) hl (hc k n _ hl) i s s'
      · rw [if_neg ht, if_neg]
        rintro ⟨h1, h2, h3⟩
        have hu : p.usesOf k n = [] := by
          by_contra hu
          exact ht (mem_touched.2 hu)
        have ha : p.asks g.layout k n i = none := by
          rw [asks, hu]
          cases g.layout k n <;> rfl
        rw [grant, ha, Option.none_or, h1] at h2
        exact h3 (Option.some.inj h2)
    · intro m hm b hb
      cases hr : (g.get k)[m]? with
      | none =>
        rw [hr] at hb
        cases hb
      | some r =>
        simp only [hr] at hb
        have e := (Resource.of_mem_meet (h k r (List.mem_of_getElem? hr)) hb).1
        rw [Bool.eq_false_iff]
        exact fun ht => hm (e.symm.trans (Moves.takes_iff.1 ht).1.1)

end Pass

/-! ## Pass after pass -/

variable {passes : List Pass} {g g' : Registry} {indices : List Nat} {batches : Batches}

/-- a pass whose states its kind can use is served, then the others are -/
theorem synthesize_legal (h : g.Ready) {i : Nat} {p : Pass} (hp : passes[i]? = some p) (hl : p.illegal? = none) :
    synthesize passes g (i :: indices) =
      (synthesize passes (p.advance g) indices).map fun x => (x.1, (i, p.barriersFrom g) :: x.2) := by
  simp only [synthesize, hp, hl, Pass.check_ok h, bind, Except.bind]
  cases synthesize passes (p.advance g) indices <;> rfl

/-- the first pass is served, then the others -/
theorem synthesize_cons {i : Nat} (hs : synthesize passes g (i :: indices) = .ok (g', batches)) :
    ∃ p later, passes[i]? = some p ∧ synthesize passes (p.advance g) indices = .ok (g', later) ∧
      batches = (i, p.barriersFrom g) :: later := by
  unfold synthesize at hs
  split at hs
  · cases hs
  · rename_i p hp
    split at hs
    · cases hs
    · obtain ⟨-, -, hs⟩ := bind_eq_ok.1 hs
      obtain ⟨⟨g'', later⟩, hrest, hs⟩ := bind_eq_ok.1 hs
      cases hs
      exact ⟨p, later, hp, hrest, rfl⟩

/-- what the records hold beside the tracked states is left alone -/
theorem map_synthesize {α : Type} {q : Resource k → α}
    (hq : ∀ (r : Resource k) (t : Tracker k), q { r with tracker := t } = q r)
    (hs : synthesize passes g indices = .ok (g', batches)) : (g'.get k).map q = (g.get k).map q := by
  induction indices generalizing g batches with
  | nil =>
    cases hs
    rfl
  | cons i rest ih =>
    obtain ⟨p, later, -, hrest, -⟩ := synthesize_cons hs
    rw [ih hrest]
    refine Registry.map_mapRecords (fun n r => ?_) g
    exact Resource.map_meet hq

/-- there is a batch for each pass -/
theorem indices_of_synthesize (hs : synthesize passes g indices = .ok (g', batches)) :
    batches.map Prod.fst = indices := by
  induction indices generalizing g batches with
  | nil =>
    cases hs
    rfl
  | cons i rest ih =>
    obtain ⟨p, later, -, hrest, rfl⟩ := synthesize_cons hs
    rw [List.map_cons, ih hrest]

/-- only the tracked states change, and there is a batch for each pass -/
theorem synthesize_ready (h : g.Ready) (hs : synthesize passes g indices = .ok (g', batches)) :
    g'.Ready ∧ g'.rewind = g.rewind ∧ batches.map Prod.fst = indices := by
  refine and_assoc.1 ⟨?_, indices_of_synthesize hs⟩
  induction indices generalizing g batches with
  | nil =>
    cases hs
    exact ⟨h, rfl⟩
  | cons i rest ih =>
    obtain ⟨p, later, -, hrest, rfl⟩ := synthesize_cons hs
    obtain ⟨h1, h2⟩ := ih (Pass.ready_advance h) hrest
    exact ⟨h1, h2.trans (Pass.rewind_advance h)⟩

/-- **The barriers of some passes take the tracked states, pass after pass, to what each pass is granted.** The trackers
end in the states all of them leave. -/
theorem synthesize_granted (h : g.Ready) (hc : ∀ p ∈ passes, p.Countable g.layout)
    (hs : synthesize passes g indices = .ok (g', batches)) :
    Granted g.layout passes g.world batches ∧ g'.world = g.world.grantAll g.layout passes indices := by
  induction indices generalizing g batches with
  | nil =>
    cases hs
    exact ⟨trivial, rfl⟩
  | cons i rest ih =>
    obtain ⟨p, later, hp, hrest, rfl⟩ := synthesize_cons hs
    have hpc := hc p (List.mem_of_getElem? hp)
    have hl : (p.advance g).layout = g.layout := Registry.layout_of_rewind (Pass.rewind_advance h)
    have hw : g.world.grant g.layout passes i = p.grant g.layout g.world := by rw [World.grant, hp]
    obtain ⟨h1, h2⟩ := ih (Pass.ready_advance h) (by rwa [hl]) hrest
    rw [hl, Pass.world_advance h hpc, ← hw] at h1 h2
    refine ⟨⟨fun k => ?_, h1⟩, h2⟩
    rw [hw]
    exact Pass.moves_barriersFrom h hpc k

/-- a pass has barriers only on resources it uses, and on their native objects -/
theorem of_mem_synthesize (h : g.Ready) (hs : synthesize passes g indices = .ok (g', batches)) :
    ∀ x ∈ batches, ∃ p, passes[x.1]? = some p ∧ ∀ (k : ResourceKind), ∀ b ∈ x.2.get k,
      p.usesOf k b.resource ≠ [] ∧ b.Named g := by
  induction indices generalizing g batches with
  | nil =>
    cases hs
    simp
  | cons i rest ih =>
    obtain ⟨p, later, hp, hrest, rfl⟩ := synthesize_cons hs
    intro x hx
    rcases List.mem_cons.1 hx with rfl | hx
    · exact ⟨p, hp, fun k b hb => Pass.of_mem_barriersFrom h hb⟩
    · obtain ⟨q, hq, hb⟩ := ih (Pass.ready_advance h) hrest x hx
      refine ⟨q, hq, fun k b hm => ⟨(hb k b hm).1, ?_⟩⟩
      have hn := (hb k b hm).2
      rwa [Barrier.Named, Registry.native_of_rewind (Pass.rewind_advance h)] at hn

end FrameGraph
