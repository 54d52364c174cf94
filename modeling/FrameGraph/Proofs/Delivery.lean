/-
Exports are exact: every exported resource is left in its export state, by one batch that does no more than that.

An address is owed a transition (`Registry.Owes`) if its resource is exported and it is not in the export state yet. The
batch after the last pass settles what is owed there (`Registry.Settles`): it is issued only if something is owed,
covers each address that is owed a transition exactly once, and covers nothing else.

- `Planned.settles`: the export batch of a planned graph settles what is owed after the last pass. The trackers hold the
  states after the last pass, split or not, so the batch is the exact difference from these to the export states.
- `execute_delivers`: so each run of a compiled graph ends with every exported resource in its export state.
- `wrapped_not_delivered`: past the numbers of cells a run can end with one in another state.
-/
import FrameGraph.Proofs.OneQueue

namespace FrameGraph

open ResourceKind

variable {k : ResourceKind}

/-! ## What is owed -/

namespace Registry

variable {g : Registry} {w : World} {n i : Nat}

/-- the address is of an exported resource and is not in the export state -/
def Owes (g : Registry) (w : World) (k : ResourceKind) (n i : Nat) : Prop :=
  ∃ r s, (g.get k)[n]? = some r ∧ r.exported = some s ∧ i < k.size r.bounds ∧ w k n i ≠ some s

/-- the batch makes up for what is owed, and for nothing else -/
structure Settles (g : Registry) (w : World) (batch : Batch) : Prop where
  /-- there is something to issue if and only if something is owed -/
  issued : batch.count > 0 ↔ ∃ k n i, g.Owes w k n i
  /-- an address that is owed a transition is covered once -/
  once : ∀ k n i, g.Owes w k n i → (batch.get k).countP (fun b => decide (b.resource = n) && b.covers g.layout i) = 1
  /-- an address that is not is not covered -/
  only : ∀ k n i, ¬ g.Owes w k n i → (batch.get k).countP (fun b => decide (b.resource = n) && b.covers g.layout i) = 0
  /-- each barrier goes from the state of each address it covers to the export state of its resource -/
  exact : ∀ k, ∀ b ∈ batch.get k, ∀ i, b.covers g.layout i = true →
    w k b.resource i = some b.before ∧ ((g.get k)[b.resource]?).bind Resource.exported = some b.after

/-- what is owed is what delivering changes -/
theorem owes_iff : g.Owes w k n i ↔ w k n i ≠ g.deliver w k n i := by
  unfold Owes deliver
  cases hr : (g.get k)[n]? with
  | none => simp
  | some r =>
    cases hs : r.exported with
    | none => simp [hs]
    | some s =>
      by_cases hi : i < k.size r.bounds
      · simp [hs, hi]
      · simp [hs, hi]

/-- delivering leaves each address of an exported resource in the export state -/
theorem deliver_of_exported {r : Resource k} {s : ResourceState} (hr : (g.get k)[n]? = some r)
    (hs : r.exported = some s) (hi : i < k.size r.bounds) : g.deliver w k n i = some s := by
  rw [deliver, hr, Option.bind_some, hs, Option.bind_some, if_pos hi]
  rfl

end Registry

/-- a batch with barriers has one of some kind -/
theorem Batch.count_pos_iff {batch : Batch} : batch.count > 0 ↔ ∃ k b, b ∈ batch.get k := by
  rw [gt_iff_lt, count, Nat.add_pos_iff_pos_or_pos, List.length_pos_iff_exists_mem, List.length_pos_iff_exists_mem]
  constructor
  · rintro (⟨b, hb⟩ | ⟨b, hb⟩)
    · exact ⟨.texture, b, hb⟩
    · exact ⟨.buffer, b, hb⟩
  · rintro ⟨k, b, hb⟩
    cases k
    · exact Or.inl ⟨b, hb⟩
    · exact Or.inr ⟨b, hb⟩

/-- a barrier to an export state covers an address that is owed it -/
theorem owes_of_mem_exportBarriers {g : Registry} (h : g.Ready) {b : Barrier k}
    (hb : b ∈ ((g.get k).mapIdx fun i r => r.exportBarriers i).flatten) : ∃ i, g.Owes g.world k b.resource i := by
  obtain ⟨r, hr, hb⟩ := exists_of_mem_exportBarriers hb
  have hready := h k r (List.mem_of_getElem? hr)
  unfold Resource.exportBarriers at hb
  split at hb
  · rename_i state native hexported hnative
    obtain ⟨c, hc, -⟩ := List.mem_map.1 hb
    obtain ⟨i, hi, hstate⟩ := Tracker.exists_of_mem_transition hready.valid hc
    have hne : c.before ≠ state := Tracker.before_ne_of_mem_transition hready.valid hc
    refine ⟨i, r, state, hr, hexported, ?_, ?_⟩
    · rw [← hready.bounds]
      exact lt_size_of_reaches hi
    · rw [Registry.world, hr, Option.bind_some, hstate]
      exact fun e => hne (Option.some.inj e)
  · cases hb

namespace Graph

variable {g : Graph}

/-- **The export batch settles what is owed after the last pass.** -/
theorem Planned.settles (h : g.Planned) {batch : Batch} (hb : exportBatch g.settings g.registry = .ok batch) :
    g.registry.Settles g.registry.world batch := by
  obtain ⟨batch', hb', hbatch⟩ := exportBatch_inv h.ready g.settings
  obtain rfl : batch = batch' := Except.ok.inj (hb.symm.trans hb')
  have hmoves := fun k => (hbatch k).1
  refine ⟨⟨fun hcount => ?_, fun ⟨k, n, i, howes⟩ => ?_⟩, fun k n i howes => ?_, fun k n i hno => ?_,
    fun k b hm i hi => ?_⟩
  · -- a barrier of the batch is, but for its part, one to an export state
    obtain ⟨k, b, hm⟩ := Batch.count_pos_iff.1 hcount
    obtain ⟨c, hc, -⟩ := (hbatch k).2 b hm
    obtain ⟨i, howes⟩ := owes_of_mem_exportBarriers h.ready hc
    exact ⟨k, c.resource, i, howes⟩
  · obtain ⟨b, hm, -⟩ := (hmoves k).exists_covers (Registry.owes_iff.1 howes)
    exact Batch.count_pos_iff.2 ⟨k, b, hm⟩
  · exact (hmoves k).countP_covers_of_ne (Registry.owes_iff.1 howes)
  · exact (hmoves k).countP_covers_of_eq (not_not.1 fun hne => hno (Registry.owes_iff.2 hne))
  · obtain ⟨hold, hnew⟩ := (hmoves k).of_mem hm hi
    refine ⟨hold, ?_⟩
    have howes : g.registry.Owes g.registry.world k b.resource i := by
      rw [Registry.owes_iff, hold, hnew]
      exact fun e => (hmoves k).changing b hm (Option.some.inj e)
    obtain ⟨r, s, hr, hs, hlt, -⟩ := howes
    rw [Registry.deliver_of_exported hr hs hlt] at hnew
    rw [hr, Option.bind_some, hs, hnew]

/-- **Exports are exact.** The passes are run in order, then at most one batch is issued. It settles what is owed after
the last pass, and after it every exported resource is in its export state. -/
theorem execute_delivers {σ : Type} {g g' : Graph} {dev : Device σ} {s s' : σ} {stats : Stats} (h : g.Built)
    (hc : g.compile dev s = .ok (g', .ok stats, s')) (hd : g'.registry.Distinct) (hn : g'.Countable) (runs : Nat)
    (syncs : PerQueue Bool) (fences : Fences) :
    let frame := afterRun^[runs] g'
    let layout := frame.registry.layout
    let initially := frame.registry.initially
    ∃ log blocks batch, frame.execute syncs fences = .ok (frame.afterRun, log) ∧
      log.blocks = blocks ++ exportBlocks batch ∧
      Recorded frame.settings.events (fun _ => .graphics) frame.walk blocks ∧
      frame.registry.Settles (initially.afterAll layout (blocks.flatMap (Block.moments frame))) batch ∧
      ∀ k n r state, (frame.registry.get k)[n]? = some r → r.exported = some state → ∀ i < k.size r.bounds,
        initially.afterAll layout (frame.moments log) k n i = some state := by
  intro frame layout initially
  have hp : frame.Planned := (planned_of_compile h hc hd hn).afterRuns runs
  obtain ⟨log, blocks, batch, hlog, hblocks, hrec, hb, hmoves⟩ := hp.execute syncs fences
  have hpasses : ∀ x ∈ frame.walk, frame.passes[x.1]? = some x.2 := fun x hx => (of_mem_walk hx).1
  have hlast : initially.afterAll layout (blocks.flatMap (Block.moments frame)) = frame.registry.world := by
    rw [(hrec.replay hpasses hp.granted).2, hp.tracked]
  have hend : initially.afterAll layout (frame.moments log) = frame.registry.deliver frame.registry.world := by
    rw [moments, hblocks, List.flatMap_append, World.afterAll_append, hlast, moments_exportBlocks]
    have hexports := (consistent_of_moves hmoves).2
    split
    · rename_i hcount
      rw [if_pos hcount] at hexports
      exact hexports
    · rename_i hcount
      rw [if_neg hcount] at hexports
      exact hexports
  refine ⟨log, blocks, batch, hlog, hblocks, hrec, ?_, fun k n r state hr hs i hi => ?_⟩
  · rw [hlast]
    exact hp.settles hb
  · rw [hend]
    exact Registry.deliver_of_exported hr hs hi

/-- in the sample frame both resources are exported, and both are delivered -/
theorem execute_delivers_sample : ∃ g' stats s', sample.compile CountingDevice.device {} = .ok (g', .ok stats, s') ∧
    ∃ log blocks batch, g'.execute (.both true) (.both .new) = .ok (g'.afterRun, log) ∧
      log.blocks = blocks ++ exportBlocks batch ∧
      Recorded g'.settings.events (fun _ => .graphics) g'.walk blocks ∧
      g'.registry.Settles (g'.registry.initially.afterAll g'.registry.layout (blocks.flatMap (Block.moments g')))
        batch ∧
      ∀ k n r state, (g'.registry.get k)[n]? = some r → r.exported = some state → ∀ i < k.size r.bounds,
        g'.registry.initially.afterAll g'.registry.layout (g'.moments log) k n i = some state := by
  obtain ⟨g', stats, s', hc, hd, hcells, -⟩ := sample_compiles
  exact ⟨g', stats, s', hc, execute_delivers built_sample hc hd (countable_of_cells hcells) 0 _ _⟩

/-- **Past the numbers of cells an export can be missed.** The texture is left with its first cell as a render target, though
it is exported as a copy destination, and no batch is issued for it: its tracker says that it is one. -/
theorem wrapped_not_delivered : wrapped.Built ∧ ∃ g' stats log r,
    wrapped.compile CountingDevice.device {} = .ok (g', .ok stats, {}) ∧ g'.registry.Distinct ∧
      g'.execute (.both true) (.both .new) = .ok (g'.afterRun, log) ∧
      exportBatch g'.settings g'.registry = .ok .empty ∧
      (g'.registry.get .texture)[0]? = some r ∧ r.exported = some .copyDest ∧ 0 < texture.size r.bounds ∧
      g'.registry.initially.afterAll g'.registry.layout (g'.moments log) .texture 0 0 = some .renderTarget := by
  obtain ⟨g', stats, log, hc, hregistry, hexports, hlog, hissued⟩ := wrapped_executes
  refine ⟨built_wrapped, g', stats, log, wrappedTexture, hc, hregistry ▸ distinct_wrapped, hlog, hexports,
    by rw [hregistry]; rfl, rfl, by decide, ?_⟩
  have hend : g'.registry.initially.afterAll g'.registry.layout (g'.moments log) =
      (g'.issued log).foldl (World.apply g'.registry.layout) g'.registry.initially := rfl
  rw [hend, hissued, hregistry]
  exact wrapped_left

end Graph

end FrameGraph
