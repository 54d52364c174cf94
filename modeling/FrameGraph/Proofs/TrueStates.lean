/-
Tracked states are true states.

Barriers are made from the trackers, resource by resource, while a pass is looked at part by part; they are issued sorted
and merged. Replaying the issued ones on a resource, each moving its part into its after-state, leads to the very tracker
the resource is left with: both are canonical and mean the same.

- `synthesize_canonical`: making barriers leaves canonical trackers.
- `Tracker.stateAt_follow`: what a tracker that follows barriers means.
- `compile_tracks`: the trackers of a compiled graph are those that follow its barriers, and the barriers are the same
  with and without elimination.
- `wrapped_not_tracked`: past the numbers of cells a tracker need not follow its barriers.
-/
import FrameGraph.Proofs.Canonical
import FrameGraph.Proofs.SharedFrames

namespace FrameGraph

variable {k : ResourceKind} {σ : Type}

/-! ## Canonical records -/

theorem Tracker.Canonical.serve {t : Tracker k} {initial : ResourceState} (h : t.Canonical initial)
    (requests : List (Option k.Part × Want k)) : (t.serve requests).1.Canonical initial := by
  induction requests generalizing t with
  | nil => exact h
  | cons x rest ih => exact ih h.transition

/-- every tracker is canonical -/
def Registry.Canonical (g : Registry) : Prop := ∀ k, ∀ r ∈ g.get k, r.tracker.Canonical r.initial

theorem Resource.canonical_meet {r : Resource k} (h : r.tracker.Canonical r.initial) (index : Nat) (uses : List (Use k)) :
    (r.meet index uses).1.tracker.Canonical (r.meet index uses).1.initial := by
  unfold meet
  split
  · exact h
  · exact h.serve _

theorem Registry.Opened.canonical {g : Registry} (h : g.Opened) : g.Canonical := by
  intro k r hr
  have hwhole := h.whole k r hr
  refine ⟨(h.ready k r hr).valid, fun s hs => ?_, fun _ => hwhole⟩
  rw [hwhole] at hs
  cases hs

theorem Pass.canonical_advance {g : Registry} (h : g.Canonical) (p : Pass) : (p.advance g).Canonical := by
  intro k r hr
  obtain ⟨n, hn⟩ := List.mem_iff_getElem?.1 hr
  rw [advance_getElem?] at hn
  obtain ⟨q, hq, rfl⟩ := Option.map_eq_some_iff.1 hn
  exact Resource.canonical_meet (h k q (List.mem_of_getElem? hq)) n _

/-- **Making the barriers of some passes leaves canonical trackers.** -/
theorem synthesize_canonical {passes : List Pass} {g g' : Registry} {indices : List Nat} {batches : Batches}
    (h : g.Canonical) (hs : synthesize passes g indices = .ok (g', batches)) : g'.Canonical := by
  induction indices generalizing g batches with
  | nil =>
    cases hs
    exact h
  | cons i rest ih =>
    obtain ⟨p, later, -, hrest, -⟩ := synthesize_cons hs
    exact ih (Pass.canonical_advance h p) hrest

/-! ## Following barriers -/

namespace Tracker

variable {t : Tracker k} {initial : ResourceState}

/-- the tracker after some barriers, each of which moves its part into its after-state -/
def follow (t : Tracker k) (bs : List (Barrier k)) : Tracker k :=
  bs.foldl (fun t b => (t.transition b.part b.after).1) t

theorem Canonical.follow (h : t.Canonical initial) (bs : List (Barrier k)) :
    (t.follow bs).Canonical initial ∧ (t.follow bs).bounds = t.bounds := by
  induction bs generalizing t with
  | nil => exact ⟨h, rfl⟩
  | cons b bs ih =>
    obtain ⟨hcanonical, hbounds⟩ := ih (t := (t.transition b.part b.after).1) h.transition
    exact ⟨hcanonical, hbounds.trans (bounds_transition h.valid)⟩

/-- **A tracker that follows the barriers on a resource means the states they lead to.** -/
theorem stateAt_follow {L : Layout} {n : Nat} {s : States} (hv : t.Valid) (hL : L k n = some t.bounds)
    (hs : ∀ i, t.stateAt i = s n i) (bs : List (Barrier k)) (i : Nat) :
    (t.follow (bs.filter fun b => b.resource = n)).stateAt i = bs.foldl (Barrier.apply L) s n i := by
  induction bs generalizing t s with
  | nil => exact hs i
  | cons b bs ih =>
    by_cases hb : b.resource = n
    · rw [List.filter_cons_of_pos (by simpa using hb)]
      refine ih (t := (t.transition b.part b.after).1) (valid_transition hv) ?_ fun j => ?_
      · rw [hL, bounds_transition hv]
      · have hcovers : b.covers L j = k.reaches t.bounds b.part j := by
          rw [Barrier.covers, hb, hL, Option.any_some]
        rw [stateAt_transition hv, Barrier.apply, hcovers, hs]
        simp only [hb, true_and]
    · rw [List.filter_cons_of_neg (by simpa using hb)]
      refine ih hv hL fun j => ?_
      rw [Barrier.apply, if_neg fun e => hb e.1, hs]

end Tracker

/-! ## Compiled graphs -/

namespace Graph

variable {g g' : Graph} {dev : Device σ} {s s' : σ} {stats : Stats}

/-- the barriers the passes issue on one resource, in order -/
def barriersOn (g : Graph) (k : ResourceKind) (n : Nat) : List (Barrier k) :=
  ((g.planned k).map Prod.snd).filter fun b => b.resource = n

/-- compiling leaves canonical trackers -/
theorem canonical_of_compile (h : g.Built) (hc : g.compile dev s = .ok (g', .ok stats, s')) : g'.registry.Canonical := by
  obtain ⟨records, plan, hb, hp, rfl⟩ := compile_inv hc
  obtain ⟨needed, after, raw, merged, final, removed, dropped, -, hs, -, -, rfl⟩ := compilePasses_eq_ok_iff.1 hp
  have hopened : records.Opened := Registry.opened_of_back h.coherent hb
  exact synthesize_canonical (hopened.noteWriters _).canonical hs

/-- following the barriers on a resource from its initial state leads where all the barriers lead -/
theorem stateAt_barriersOn {n : Nat} {r : Resource k} (hr : (g.registry.get k)[n]? = some r) (i : Nat) :
    ((Tracker.uniform r.bounds r.initial).follow (g.barriersOn k n)).stateAt i =
      ((g.planned k).map Prod.snd).foldl (Barrier.apply g.registry.layout) (g.registry.initially k) n i := by
  have hlayout : g.registry.layout k n = some r.bounds := Registry.layout_of_getElem? hr
  have hvalid := Tracker.valid_uniform (k.measured_bounds r.descriptor) r.initial
  have hstart : ∀ j, (Tracker.uniform r.bounds r.initial).stateAt j = g.registry.initially k n j := by
    intro j
    rw [Tracker.stateAt_uniform, Registry.initially, hr, Option.bind_some]
  exact Tracker.stateAt_follow hvalid hlayout hstart _ i

/-- a canonical tracker of a planned graph is the one that follows the barriers on its resource -/
theorem Planned.follows (hp : g.Planned) (hcan : g.registry.Canonical) {n : Nat} {r : Resource k}
    (hr : (g.registry.get k)[n]? = some r) :
    r.tracker = (Tracker.uniform r.bounds r.initial).follow (g.barriersOn k n) := by
  have hm := List.mem_of_getElem? hr
  have hbounds : r.tracker.bounds = r.bounds := (hp.ready k r hm).bounds
  have hopen : (Tracker.uniform r.bounds r.initial).Canonical r.initial :=
    Tracker.canonical_uniform (k.measured_bounds r.descriptor) r.initial
  obtain ⟨hcanonical, hsame⟩ := hopen.follow (g.barriersOn k n)
  refine (hcan k r hm).eq_of_stateAt hcanonical (hbounds.trans hsame.symm) fun i => ?_
  calc r.tracker.stateAt i
      = g.registry.world k n i := by rw [Registry.world, hr, Option.bind_some]
    _ = ((g.planned k).map Prod.snd).foldl (Barrier.apply g.registry.layout) (g.registry.initially k) n i := by
        rw [hp.tracked, planned, (hp.granted.replays_ofKind k).2, List.map_map]
        rfl
    _ = _ := (stateAt_barriersOn hr i).symm

/-- without shared objects the plan is the same whatever the settings say of elimination -/
theorem compile_of_elimination (h : g.Built) (hc : g.compile dev s = .ok (g', .ok stats, s')) (hd : g'.registry.Distinct)
    (hn : g'.Countable) :
    stats.redundantDropped = 0 ∧ ∀ eliminate onStale,
      { g with settings := { g.settings with eliminate, onStale } }.compile dev s =
        .ok ({ g' with settings := { g'.settings with eliminate, onStale } }, .ok stats, s') := by
  have hcount := countable_of_compile hc hn
  obtain ⟨records, plan, hb, hp, rfl⟩ := compile_inv hc
  rw [compile_of_back hb, hp] at hc
  cases hc
  obtain ⟨needed, after, raw, merged, final, removed, dropped, hk, hs, hm, hf, rfl⟩ := compilePasses_eq_ok_iff.1 hp
  have hnodup : needed.Nodup := (ascending_of_keptPasses hk).1.imp fun h => h.ne
  obtain ⟨hexact, -, -⟩ := merged_exact (Registry.opened_of_back h.coherent hb) hs hm hcount
  have hkeep : ∀ settings, afterElimination settings (g.passes.map Pass.withSets) after needed merged = .ok (merged, 0) :=
    afterElimination_of_exact hexact hd hnodup
  rw [hkeep] at hf
  cases hf
  refine ⟨rfl, fun eliminate onStale => ?_⟩
  have hplan : compilePasses { g.settings with eliminate, onStale } records g.passes =
      .ok (.assemble (g.passes.map Pass.withSets) needed after raw merged removed 0) :=
    compilePasses_eq_ok_iff.2 ⟨needed, after, raw, merged, merged, removed, 0, hk, hs, hm, hkeep _, rfl⟩
  rw [compile_of_back (g := { g with settings := { g.settings with eliminate, onStale } }) hb, hplan]
  rfl

/-- **Tracked states are true states, and elimination changes nothing.** If no two records share an object, each tracker
of a compiled graph is the one that follows, from the initial state, the barriers issued on its resource; and with or
without elimination, whatever the policy for stale barriers, the plan is the same and none of its barriers is dropped. -/
theorem compile_tracks (h : g.Built) (hc : g.compile dev s = .ok (g', .ok stats, s')) (hd : g'.registry.Distinct)
    (hn : g'.Countable) :
    (∀ (k : ResourceKind) (n : Nat) (r : Resource k), (g'.registry.get k)[n]? = some r →
      r.tracker = (Tracker.uniform r.bounds r.initial).follow (g'.barriersOn k n)) ∧
    stats.redundantDropped = 0 ∧ ∀ eliminate onStale,
      { g with settings := { g.settings with eliminate, onStale } }.compile dev s =
        .ok ({ g' with settings := { g'.settings with eliminate, onStale } }, .ok stats, s') :=
  ⟨fun _ _ _ hr => (planned_of_compile h hc hd hn).follows (canonical_of_compile h hc) hr,
    compile_of_elimination h hc hd hn⟩

theorem compile_tracks_sample : ∃ g' stats s', sample.compile CountingDevice.device {} = .ok (g', .ok stats, s') ∧
    (∀ (k : ResourceKind) (n : Nat) (r : Resource k), (g'.registry.get k)[n]? = some r →
      r.tracker = (Tracker.uniform r.bounds r.initial).follow (g'.barriersOn k n)) ∧
    stats.redundantDropped = 0 ∧ ∀ eliminate onStale,
      { sample with settings := { sample.settings with eliminate, onStale } }.compile CountingDevice.device {} =
        .ok ({ g' with settings := { g'.settings with eliminate, onStale } }, .ok stats, s') := by
  obtain ⟨g', stats, s', hc, hd, hcells, -⟩ := sample_compiles
  exact ⟨g', stats, s', hc, compile_tracks built_sample hc hd (countable_of_cells hcells)⟩

/-- **Past the numbers of cells a tracker need not follow its barriers.** The last one issued on the first cell leaves it as
a render target, and the tracker says that all of the texture is a copy destination. -/
theorem wrapped_not_tracked : wrapped.Built ∧ ∃ g' stats r,
    wrapped.compile CountingDevice.device {} = .ok (g', .ok stats, {}) ∧ g'.registry.Distinct ∧
      (g'.registry.get .texture)[0]? = some r ∧
      r.tracker ≠ (Tracker.uniform r.bounds r.initial).follow (g'.barriersOn .texture 0) := by
  obtain ⟨g', stats, hc, -, hregistry, hwalk⟩ := wrapped_compiles
  have hr : (g'.registry.get .texture)[0]? = some wrappedTexture := by
    rw [hregistry]
    rfl
  refine ⟨built_wrapped, g', stats, wrappedTexture, hc, hregistry ▸ distinct_wrapped, hr, fun htracker => ?_⟩
  have hplanned : (g'.planned .texture).map Prod.snd =
      [wrappedBarrier .renderTarget .copyDest, wrappedBarrier .copyDest .renderTarget] := by
    rw [planned, hwalk]
    rfl
  have hleft := stateAt_barriersOn hr 0
  rw [← htracker, hplanned, hregistry, wrapped_left] at hleft
  have htracked : wrappedTexture.tracker.stateAt 0 = some .copyDest := if_pos (by decide)
  cases htracked.symm.trans hleft

end Graph

end FrameGraph
