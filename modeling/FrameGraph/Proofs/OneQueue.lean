/-
A frame on one queue: its barriers replay, and no callback finds a resource in the wrong state.

A built graph that has been compiled may be run any number of times. Each time the batches the executor issues are
replayed from the initial states of the resources (`Registry.initially`).

- `execute_consistent`: every batch is sound where the ones before it lead. Each barrier starts from the state of every
  address it covers and changes it, and no address is covered twice by one batch.
- `execute_guarded`: when the callback of a pass is called, each address the pass uses is in the state of the last usage
  that has it, and every other address is as it was before the pass.
- `wrapped_not_consistent`: a frame with a batch that is not sound, because a pass moves a cell twice.

The first two need that no two textures share a native object and no two buffers do. Cells of a texture are numbered by
32-bit words when a pass uses a part of it, so textures used in part need cells that can be numbered
(`Graph.Countable`); the third shows that they do.
-/
import FrameGraph.Proofs.CellNumbers
import FrameGraph.Proofs.Exports
import FrameGraph.Proofs.Moments

namespace FrameGraph

open ResourceKind

variable {k : ResourceKind} {g : Graph}

namespace Graph

/-- the moments of a log, in order -/
def moments (g : Graph) (log : Log) : List Moment := log.blocks.flatMap (Block.moments g)

/-- the batches the executor issues, in order -/
def issued (g : Graph) (log : Log) : List Batch := (g.moments log).filterMap Moment.batch?

theorem Planned.afterRuns (h : g.Planned) (runs : Nat) : (Graph.afterRun^[runs] g).Planned := by
  induction runs with
  | zero => exact h
  | succ runs ih =>
    rw [Function.iterate_succ_apply']
    exact ih.afterRun

end Graph

theorem moments_exportBlocks (g : Graph) (batch : Batch) :
    (exportBlocks batch).flatMap (Block.moments g) = if batch.count > 0 then [.own (.barriers batch)] else [] := by
  unfold exportBlocks
  split <;> rfl

/-- the batches of passes that are not empty, in order -/
theorem Recorded.batches {on : Pass → Queue} {walk : List (Nat × Pass)} {blocks : List Block}
    (h : Recorded g.settings.events on walk blocks) (hp : ∀ x ∈ walk, g.passes[x.1]? = some x.2) :
    (blocks.flatMap (Block.moments g)).filterMap Moment.batch? =
      (walk.map fun x => x.2.plan.barriers).filter fun b => decide (b.count > 0) := by
  induction h with
  | nil => rfl
  | @pass x walk b blocks hb _ ih =>
    obtain ⟨hx, hp⟩ := List.forall_mem_cons.1 hp
    rw [List.flatMap_cons, List.filterMap_append, hb.batches hx, ih hp, List.map_cons, List.filter_cons]
    by_cases hc : x.2.plan.barriers.count > 0 <;> simp [hc]
  | @sync walk b blocks hs hb _ ih =>
    rw [List.flatMap_cons, List.filterMap_append, ih hp, sync_batches hs hb, List.nil_append]

/-- each pass is called once, in order -/
theorem Recorded.calls {on : Pass → Queue} {walk : List (Nat × Pass)} {blocks : List Block}
    (h : Recorded g.settings.events on walk blocks) (hp : ∀ x ∈ walk, g.passes[x.1]? = some x.2) :
    (blocks.flatMap (Block.moments g)).filterMap Moment.call? = walk.map Prod.fst := by
  induction h with
  | nil => rfl
  | @pass x walk b blocks hb _ ih =>
    obtain ⟨hx, hp⟩ := List.forall_mem_cons.1 hp
    obtain ⟨post, e, -, hpost⟩ := hb.moments hx
    have hown : ((x.2.opening g.settings.events).map Moment.own).filterMap Moment.call? = [] := own_calls _
    rw [List.flatMap_cons, List.filterMap_append, ih hp, e, List.filterMap_append, hown, List.filterMap_cons, hpost]
    rfl
  | @sync walk b blocks hs hb _ ih =>
    have hown : (b.moments g).filterMap Moment.call? = [] := by
      unfold Block.moments
      rw [hs]
      exact own_calls _
    rw [List.flatMap_cons, List.filterMap_append, ih hp, hown, List.nil_append]

/-- a block of a pass is not among the exports -/
theorem exists_eq_append_of_exportBlocks {batch : Batch} {blocks before after : List Block} {b : Block}
    (h : blocks ++ exportBlocks batch = before ++ b :: after) (hb : b.source ≠ .exports) :
    ∃ after', blocks = before ++ b :: after' := by
  have hmem : ∀ c ∈ exportBlocks batch, c.source = .exports := by
    intro c hc
    unfold exportBlocks at hc
    split at hc
    · rw [List.mem_singleton.1 hc]
    · cases hc
  rcases List.append_eq_append_iff.1 h with ⟨mid, -, hmid⟩ | ⟨mid, hblocks, hmid⟩
  · exact absurd (hmem b (hmid ▸ List.mem_append_right mid List.mem_cons_self)) hb
  · cases mid with
    | nil =>
      rw [List.nil_append] at hmid
      exact absurd (hmem b (hmid ▸ List.mem_cons_self)) hb
    | cons c mid =>
      obtain ⟨rfl, -⟩ := List.cons.inj hmid
      exact ⟨mid, hblocks⟩

/-- what a pass is granted: the state of the last usage that has an address, and otherwise the state it had -/
theorem World.grant_spec {L : Layout} {passes : List Pass} {w : World} {i : Nat} {p : Pass} (hp : passes[i]? = some p)
    {n : Nat} {bounds : k.Bounds} (hl : L k n = some bounds) (a : Nat) :
    (∀ u, (p.usesOf k n).findRev? (fun u => k.reaches bounds u.handle.part a) = some u →
      w.grant L passes i k n a = some u.state) ∧
    ((∀ u ∈ p.usesOf k n, k.reaches bounds u.handle.part a = false) → w.grant L passes i k n a = w k n a) := by
  have hgrant : w.grant L passes i k n a =
      (((p.usesOf k n).findRev? fun u => k.reaches bounds u.handle.part a).map Use.state).or (w k n a) := by
    rw [World.grant, hp]
    simp only [Pass.grant, Pass.asks, hl, Option.bind_some]
  rw [hgrant]
  refine ⟨fun u hu => by rw [hu]; rfl, fun hu => ?_⟩
  have hnone : (p.usesOf k n).findRev? (fun u => k.reaches bounds u.handle.part a) = none := by
    rw [List.findRev?_eq_find?_reverse, List.find?_eq_none]
    intro u hm
    rw [hu u (List.mem_reverse.1 hm)]
    exact Bool.false_ne_true
  rw [hnone]
  rfl

namespace Graph

/-- whenever the callback of a pass is called, each address the pass uses is in the state of the last usage that has it,
and every other address is as it was before the block of the pass -/
def Guarded (frame : Graph) (log : Log) : Prop :=
  ∀ before b after i p, log.blocks = before ++ b :: after → b.source = .pass i → frame.passes[i]? = some p →
    ∃ pre post, b.moments frame = pre ++ .call i :: post ∧
      let earlier := frame.registry.initially.afterAll frame.registry.layout (before.flatMap (Block.moments frame))
      let now := earlier.afterAll frame.registry.layout pre
      ∀ k n bounds, frame.registry.layout k n = some bounds → ∀ a,
        (∀ u, (p.usesOf k n).findRev? (fun u => k.reaches bounds u.handle.part a) = some u → now k n a = some u.state) ∧
        ((∀ u ∈ p.usesOf k n, k.reaches bounds u.handle.part a = false) → now k n a = earlier k n a)

/-- a planned graph runs, its batches replay, and its exports are delivered -/
theorem Planned.execute (h : g.Planned) (syncs : PerQueue Bool) (fences : Fences) :
    ∃ log blocks batch, g.execute syncs fences = .ok (g.afterRun, log) ∧ log.blocks = blocks ++ exportBlocks batch ∧
      Recorded g.settings.events (fun _ => .graphics) g.walk blocks ∧
      exportBatch g.settings g.registry = .ok batch ∧
      ∀ k, Moves g.registry.layout (g.registry.world k) (g.registry.deliver g.registry.world k) (batch.get k) := by
  obtain ⟨batch, hb, hmoves⟩ := exportBatch_moves h.ready g.settings
  obtain ⟨log, blocks, hlog, hblocks, hrec⟩ := execute_recorded hb
  exact ⟨log, blocks, batch, hlog, hblocks, hrec, hb, fun k => (hmoves k).1⟩

/-- the batches a run issues are those of its passes and the exports, without the empty ones -/
theorem issued_of_recorded {log : Log} {blocks : List Block} {exports : Batch}
    (hblocks : log.blocks = blocks ++ exportBlocks exports)
    (hrec : Recorded g.settings.events (fun _ => .graphics) g.walk blocks) :
    g.issued log = (blocks.flatMap (Block.moments g)).filterMap Moment.batch? ++
        (if exports.count > 0 then [exports] else []) ∧
      g.issued log = ((g.walk.map fun x => x.2.plan.barriers) ++ [exports]).filter fun b => decide (b.count > 0) := by
  have hexports : ((exportBlocks exports).flatMap (Block.moments g)).filterMap Moment.batch? =
      if exports.count > 0 then [exports] else [] := by
    rw [moments_exportBlocks]
    split <;> rfl
  have hissued : g.issued log = (blocks.flatMap (Block.moments g)).filterMap Moment.batch? ++
      if exports.count > 0 then [exports] else [] := by
    rw [issued, moments, hblocks, List.flatMap_append, List.filterMap_append, hexports]
  refine ⟨hissued, ?_⟩
  rw [hissued, hrec.batches fun x hx => (of_mem_walk hx).1, List.filter_append, List.filter_cons, List.filter_nil]
  by_cases hcount : exports.count > 0 <;> simp [hcount]

/-- **Frame-wide barrier consistency.** -/
theorem execute_consistent {σ : Type} {g g' : Graph} {dev : Device σ} {s s' : σ} {stats : Stats} (h : g.Built)
    (hc : g.compile dev s = .ok (g', .ok stats, s')) (hd : g'.registry.Distinct) (hn : g'.Countable) (runs : Nat)
    (syncs : PerQueue Bool) (fences : Fences) :
    let frame := afterRun^[runs] g'
    ∃ log exports, frame.execute syncs fences = .ok (frame.afterRun, log) ∧
      exportBatch frame.settings frame.registry = .ok exports ∧
      frame.issued log = ((frame.walk.map fun x => x.2.plan.barriers) ++ [exports]).filter (fun b => decide (b.count > 0)) ∧
      Consistent frame.registry.layout frame.registry.initially (frame.issued log) := by
  intro frame
  have hp : frame.Planned := (planned_of_compile h hc hd hn).afterRuns runs
  obtain ⟨log, blocks, batch, hlog, hblocks, hrec, hb, hmoves⟩ := hp.execute syncs fences
  obtain ⟨hissued, hbatches⟩ := issued_of_recorded hblocks hrec
  obtain ⟨h1, h2⟩ := hrec.replay (fun x hx => (of_mem_walk hx).1) hp.granted
  rw [World.afterAll, ← hp.tracked] at h2
  refine ⟨log, batch, hlog, hb, hbatches, ?_⟩
  rw [hissued, consistent_append, h2]
  exact ⟨h1, (consistent_of_moves hmoves).1⟩

/-- a compute pass writes one level of a texture and half a buffer, a graphics pass samples the texture and writes the rest
of the buffer, and both resources are exported -/
def sample : Graph :=
  let (g, t) := (new {}).create (k := .texture) { TextureDescriptor.blank with mipCount := 2 }
  let (g, b) := g.importNative (k := .buffer) 7 ⟨none, 8, 0#_, 0⟩ .common
  let g := (g.exportState ⟨.texture, t⟩ .present).exportState ⟨.buffer, b⟩ .copySource
  let g := (g.addPass "fill" .compute
    [.access ⟨.texture, t.restrict (.mip 0)⟩ .unorderedAccess .write,
     .access ⟨.buffer, b.restrict ⟨0, 4⟩⟩ .unorderedAccess .readWrite] fun _ => []).1
  (g.addPass "draw" .graphics
    [.access ⟨.texture, t⟩ .shaderResource .read,
     .access ⟨.buffer, b.restrict ⟨4, 4⟩⟩ .unorderedAccess .write] fun _ => []).1

theorem built_sample : sample.Built :=
  .addPass _ _ _ _ (.addPass _ _ _ _ (.exportState _ _ (.exportState _ _
    (.importNative .buffer _ _ _ (.create .texture _ (.new _))))))

theorem sample_compiles : ∃ g' stats s', sample.compile CountingDevice.device {} = .ok (g', .ok stats, s') ∧
    g'.registry.Distinct ∧ (∀ r ∈ g'.registry.textures, r.bounds.cells ≤ 2 ^ 32) ∧
    (∀ x ∈ g'.walk, x.2.callback (x.2.runs + 1) = []) ∧
    ∃ result, g'.executeAsync (.both true) (.both .new) = .ok result := by
  have h : (match sample.compile CountingDevice.device {} with
      | .ok (g', .ok _, _) =>
        decide ((g'.registry.textures.filterMap Resource.native).Nodup) &&
          decide ((g'.registry.buffers.filterMap Resource.native).Nodup) &&
          (g'.registry.textures.all fun r => decide (r.bounds.cells ≤ 2 ^ 32)) &&
          (g'.walk.all fun x => (x.2.callback (x.2.runs + 1)).isEmpty) &&
          (g'.executeAsync (.both true) (.both .new)).toOption.isSome
      | _ => false) = true := by decide +kernel
  split at h
  · rename_i g' stats s' hc
    simp only [Bool.and_eq_true, decide_eq_true_eq, List.all_eq_true, List.isEmpty_iff] at h
    refine ⟨g', stats, s', hc, fun k => by cases k; exacts [h.1.1.1.1, h.1.1.1.2], h.1.1.2, h.1.2, ?_⟩
    cases hrun : g'.executeAsync (.both true) (.both .new) with
    | ok result => exact ⟨result, rfl⟩
    | error fault =>
      rw [hrun] at h
      cases h.2
  · cases h

/-- the sample frame compiles to a graph whose batches replay -/
theorem execute_consistent_sample : ∃ g' stats s', sample.compile CountingDevice.device {} = .ok (g', .ok stats, s') ∧
    ∃ log exports, g'.execute (.both true) (.both .new) = .ok (g'.afterRun, log) ∧
      exportBatch g'.settings g'.registry = .ok exports ∧
      g'.issued log = ((g'.walk.map fun x => x.2.plan.barriers) ++ [exports]).filter (fun b => decide (b.count > 0)) ∧
      Consistent g'.registry.layout g'.registry.initially (g'.issued log) := by
  obtain ⟨g', stats, s', hc, hd, hcells, -⟩ := sample_compiles
  exact ⟨g', stats, s', hc, execute_consistent built_sample hc hd (countable_of_cells hcells) 0 _ _⟩

/-- a run of the frame that uses two cells with one number issues one batch: its first pass moves the first cell twice -/
theorem wrapped_executes : ∃ g' stats log, wrapped.compile CountingDevice.device {} = .ok (g', .ok stats, {}) ∧
    g'.registry = ⟨[wrappedTexture], []⟩ ∧ exportBatch g'.settings g'.registry = .ok .empty ∧
    g'.execute (.both true) (.both .new) = .ok (g'.afterRun, log) ∧
    g'.issued log = [⟨[wrappedBarrier .renderTarget .copyDest, wrappedBarrier .copyDest .renderTarget], []⟩] := by
  obtain ⟨g', stats, hc, hsettings, hregistry, hwalk⟩ := wrapped_compiles
  have hb : exportBatch g'.settings g'.registry = .ok .empty := by
    rw [hsettings, hregistry]
    rfl
  obtain ⟨log, blocks, hlog, hblocks, hrec⟩ := @execute_recorded (.both true) (.both .new) g' .empty hb
  have hbarriers := congrArg (List.map Prod.snd) hwalk
  rw [List.map_map] at hbarriers
  refine ⟨g', stats, log, hc, hregistry, hb, hlog, (issued_of_recorded hblocks hrec).2.trans ?_⟩
  exact congrArg (fun batches => (batches ++ [.empty]).filter fun b => decide (b.count > 0)) hbarriers

/-- **Past the numbers of cells a batch need not be sound.** It covers the first cell twice, and its first barrier does not
start from the state the cell is in. -/
theorem wrapped_not_consistent : wrapped.Built ∧ ∃ g' stats log,
    wrapped.compile CountingDevice.device {} = .ok (g', .ok stats, {}) ∧ g'.registry.Distinct ∧
      g'.execute (.both true) (.both .new) = .ok (g'.afterRun, log) ∧
      ¬ Consistent g'.registry.layout g'.registry.initially (g'.issued log) := by
  obtain ⟨g', stats, log, hc, hregistry, -, hlog, hissued⟩ := wrapped_executes
  refine ⟨built_wrapped, g', stats, log, hc, hregistry ▸ distinct_wrapped, hlog, fun hconsistent => ?_⟩
  rw [hissued, hregistry] at hconsistent
  exact absurd (hconsistent.1.once .texture 0 0) (by decide)

/-- **No unguarded access.** -/
theorem execute_guarded {σ : Type} {g g' : Graph} {dev : Device σ} {s s' : σ} {stats : Stats} (h : g.Built)
    (hc : g.compile dev s = .ok (g', .ok stats, s')) (hd : g'.registry.Distinct)
    (hcells : ∀ r ∈ g'.registry.textures, r.bounds.cells ≤ 2 ^ 32) (runs : Nat) (syncs : PerQueue Bool)
    (fences : Fences) :
    let frame := afterRun^[runs] g'
    ∃ log, frame.execute syncs fences = .ok (frame.afterRun, log) ∧
      ((frame.moments log).filterMap Moment.call? =
        (List.range frame.passes.length).filter fun i => frame.passes[i]?.any fun p => !p.plan.culled) ∧
      frame.Guarded log := by
  intro frame
  have hp : frame.Planned := (planned_of_compile h hc hd (countable_of_cells hcells)).afterRuns runs
  obtain ⟨log, blocks, batch, hlog, hblocks, hrec, -, -⟩ := hp.execute syncs fences
  have hpasses : ∀ x ∈ frame.walk, frame.passes[x.1]? = some x.2 := fun x hx => (of_mem_walk hx).1
  refine ⟨log, hlog, ?_, fun before b after i p hlogb hb hpi => ?_⟩
  · have hexports : ((exportBlocks batch).flatMap (Block.moments frame)).filterMap Moment.call? = [] := by
      rw [moments_exportBlocks]
      split <;> rfl
    rw [moments, hblocks, List.flatMap_append, List.filterMap_append, hexports, List.append_nil, hrec.calls hpasses,
      hp.walked]
  · have hne : b.source ≠ .exports := by
      rw [hb]
      exact Source.noConfusion
    obtain ⟨after', hbefore⟩ := exists_eq_append_of_exportBlocks (hblocks.symm.trans hlogb) hne
    rw [hbefore] at hrec
    obtain ⟨pre, post, e, -, hw⟩ := hrec.world_at_call hb hpasses hp.granted
    refine ⟨pre, post, e, fun k n bounds hl a => ?_⟩
    rw [hw]
    exact World.grant_spec hpi hl a

/-- in the sample frame both callbacks find what their passes asked for -/
theorem execute_guarded_sample : ∃ g' stats s', sample.compile CountingDevice.device {} = .ok (g', .ok stats, s') ∧
    ∃ log, g'.execute (.both true) (.both .new) = .ok (g'.afterRun, log) ∧
      ((g'.moments log).filterMap Moment.call? =
        (List.range g'.passes.length).filter fun i => g'.passes[i]?.any fun p => !p.plan.culled) ∧
      g'.Guarded log := by
  obtain ⟨g', stats, s', hc, hd, hcells, -⟩ := sample_compiles
  exact ⟨g', stats, s', hc, execute_guarded built_sample hc hd hcells 0 _ _⟩

end Graph

end FrameGraph
