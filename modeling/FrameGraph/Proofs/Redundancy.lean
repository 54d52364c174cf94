/-
What elimination leaves of a compiled graph whose records share native objects.

The barriers the passes issue (`Graph.planned`) are compared with those of the same graph compiled without elimination
(`Graph.keepingAll`). The records of one native object have to agree on its size and on the state it starts in.

- `compile_sieves`: elimination sieves the barriers, whatever the policy for stale ones.
- `compile_drops_redundant`: if a stale barrier is a fault, the barriers left replay on the native objects, and the ones
  dropped would have changed nothing there.
- `compile_keeps_replayable`: if stale barriers are dropped, this holds of the objects no stale barrier is on.
- `dropped_not_replayable`: it does not hold of the others. The states elimination goes by move with the barriers it
  drops, but the native objects do not.
-/
import FrameGraph.Proofs.Outcomes
import FrameGraph.Proofs.SharedObjects

namespace FrameGraph

variable {k : ResourceKind} {σ : Type}

namespace Graph

variable {g g' : Graph} {dev : Device σ} {s s' : σ} {stats : Stats}

/-- the graph without elimination -/
def keepingAll (g : Graph) : Graph := { g with settings := { g.settings with eliminate := false } }

/-- the barriers of one kind that the passes issue, in order and each with the index of its pass -/
def planned (g : Graph) (k : ResourceKind) : List (Nat × Barrier k) :=
  Batches.ofKind k (g.walk.map fun x => (x.1, x.2.plan.barriers))

/-- merged or not, the barriers of the kept passes are on the native objects of their records -/
theorem named_of_stages {records after : Registry} {passes : List Pass} {needed : List Nat} {raw merged : Batches}
    {settings : Settings} {removed : Nat} (h : records.Opened) (hs : synthesize passes records needed = .ok (after, raw))
    (hm : afterMerging settings after raw = .ok (merged, removed)) :
    merged.map Prod.fst = needed ∧ ∀ x ∈ merged, ∀ k, ∀ b ∈ x.2.get k, b.Named after := by
  obtain ⟨-, -, hindices⟩ := synthesize_ready h.ready hs
  have hnamed := named_of_synthesize h.ready hs
  unfold afterMerging at hm
  split at hm
  · let Q : Nat → (k : ResourceKind) → Barrier k → Prop := fun _ _ b => b.Named after
    obtain ⟨hfst, hQ⟩ := @of_mem_mergeAll raw merged Q (mergeAll_from hm) (fun _ _ _ _ hb => hb) hnamed
    exact ⟨hfst.trans hindices, hQ⟩
  · cases hm
    exact ⟨hindices, hnamed⟩

section Stages

variable {settings : Settings} {passes : List Pass} {after : Registry} {needed : List Nat} {merged final : Batches}
  {dropped : Nat}

/-- elimination, if it is not left out, gets the merged barriers -/
theorem afterElimination_inv (hfst : merged.map Prod.fst = needed) (hn : needed.Nodup)
    (h : afterElimination settings passes after needed merged = .ok (final, dropped)) :
    (settings.eliminate = false ∧ final = merged) ∨
      ∃ name, eliminate settings.onStale name after ⟨[], []⟩ merged = .ok (final, dropped) := by
  unfold afterElimination at h
  split at h
  · rw [Batches.map_ofPass hfst hn] at h
    exact Or.inr ⟨_, h⟩
  · rename_i he
    cases h
    exact Or.inl ⟨by simpa using he, rfl⟩

/-- there is a batch left for each pass -/
theorem afterElimination_indices (hfst : merged.map Prod.fst = needed) (hn : needed.Nodup)
    (h : afterElimination settings passes after needed merged = .ok (final, dropped)) : final.map Prod.fst = needed := by
  rcases afterElimination_inv hfst hn h with ⟨-, rfl⟩ | ⟨name, he⟩
  · exact hfst
  · exact (eliminate_indices he).trans hfst

/-- elimination, if it is not left out, sieves the merged barriers -/
theorem afterElimination_sieved (ha : after.Agree) (hfst : merged.map Prod.fst = needed) (hn : needed.Nodup)
    (hnamed : ∀ x ∈ merged, ∀ k, ∀ b ∈ x.2.get k, b.Named after)
    (h : afterElimination settings passes after needed merged = .ok (final, dropped)) :
    (settings.eliminate = false ∧ final = merged) ∨
      ∀ k, ∃ stale, Sieved after.nativeLayout (after.nativesInitially k) (merged.ofKind k) (final.ofKind k) stale ∧
        (settings.onStale = .fault → stale = []) := by
  rcases afterElimination_inv hfst hn h with hno | ⟨name, he⟩
  · exact Or.inl hno
  · exact Or.inr fun k => eliminate_sieved (Natives.holds_empty ha) hnamed he k

end Stages

/-- a graph whose passes are planned compiles, and then walks the kept passes, each with the barriers left of it -/
theorem compile_of_assemble {records after : Registry} {needed : List Nat} {raw final : Batches} {removed dropped : Nat}
    (hb : g.registry.back dev s = (records, none, s')) (hasc : needed.Pairwise (· < ·))
    (hlt : ∀ i ∈ needed, i < (g.passes.map Pass.withSets).length) (hfst : final.map Prod.fst = needed)
    (hp : compilePasses g.settings records g.passes =
      .ok (.assemble (g.passes.map Pass.withSets) needed after raw final removed dropped)) :
    ∃ g' stats, g.compile dev s = .ok (g', .ok stats, s') ∧ g'.registry = after ∧
      g'.walk.map Prod.fst = needed ∧ g'.walk.map (fun x => (x.1, x.2.plan.barriers)) = final := by
  rw [compile_of_back hb, hp]
  exact ⟨_, _, rfl, rfl, walk_of_plan rfl rfl rfl hlt hfst (hasc.imp fun h => h.ne)⟩

/-- **Elimination sieves the barriers of a graph.** Without it the graph compiles as well, and to the same passes. -/
theorem compile_sieves (h : g.Built) (he : g.settings.eliminate = true) (hc : g.compile dev s = .ok (g', .ok stats, s'))
    (ha : g'.registry.Agree) :
    ∃ u stats', g.keepingAll.compile dev s = .ok (u, .ok stats', s') ∧ u.walk.map Prod.fst = g'.walk.map Prod.fst ∧
      ∀ k, ∃ stale, Sieved g'.registry.nativeLayout (g'.registry.nativesInitially k) (u.planned k) (g'.planned k) stale ∧
        (g.settings.onStale = .fault → stale = []) := by
  obtain ⟨records, plan, hb, hp, -⟩ := compile_inv hc
  obtain ⟨needed, after, raw, merged, final, removed, dropped, hk, hs, hm, hf, rfl⟩ := compilePasses_eq_ok_iff.1 hp
  obtain ⟨hasc, hlt⟩ := ascending_of_keptPasses hk
  have hopened := (Registry.opened_of_back h.coherent hb).noteWriters (g.passes.map Pass.withSets)
  obtain ⟨hfst, hnamed⟩ := named_of_stages hopened hs hm
  -- without elimination the stages are the same up to merging
  have hall : compilePasses g.keepingAll.settings records g.keepingAll.passes =
      .ok (.assemble (g.passes.map Pass.withSets) needed after raw merged removed 0) :=
    compilePasses_eq_ok_iff.2 ⟨needed, after, raw, merged, merged, removed, 0, hk, hs, hm, rfl, rfl⟩
  obtain ⟨u, stats', hcu, -, hwalk, hbatches⟩ := compile_of_assemble (g := g.keepingAll) hb hasc hlt hfst hall
  have hnodup : needed.Nodup := hasc.imp fun h => h.ne
  have hfinal := afterElimination_indices hfst hnodup hf
  obtain ⟨v, stats'', hcv, rfl, hwalk', hbatches'⟩ := compile_of_assemble hb hasc hlt hfinal hp
  rw [hc] at hcv
  cases hcv
  refine ⟨u, stats', hcu, hwalk.trans hwalk'.symm, fun k => ?_⟩
  rw [planned, planned, hbatches, hbatches']
  rcases afterElimination_sieved ha hfst hnodup hnamed hf with ⟨hno, -⟩ | hsieved
  · rw [he] at hno
    cases hno
  · exact hsieved k

/-- **Barriers that change nothing are dropped, and nothing else.** If a stale barrier is a fault, the barriers of a graph
that compiles replay on its native objects, and each one dropped finds every address it covers in its after-state. -/
theorem compile_drops_redundant (h : g.Built) (he : g.settings.eliminate = true) (hf : g.settings.onStale = .fault)
    (hc : g.compile dev s = .ok (g', .ok stats, s')) (ha : g'.registry.Agree) :
    ∃ u stats', g.keepingAll.compile dev s = .ok (u, .ok stats', s') ∧ u.walk.map Prod.fst = g'.walk.map Prod.fst ∧
      ∀ k, Sieved g'.registry.nativeLayout (g'.registry.nativesInitially k) (u.planned k) (g'.planned k) [] ∧
        Replays g'.registry.nativeLayout (g'.registry.nativesInitially k)
          ((g'.planned k).map fun x => x.2.onNative) := by
  obtain ⟨u, stats', hcu, hwalk, hsieved⟩ := compile_sieves h he hc ha
  refine ⟨u, stats', hcu, hwalk, fun k => ?_⟩
  obtain ⟨stale, hk, hstale⟩ := hsieved k
  rw [hstale hf] at hk
  exact ⟨hk, hk.replays⟩

/-- the graph with one more pass, which uses records of textures in some states -/
def addUses (g : Graph) (uses : List (Nat × ResourceState × Access)) : Graph :=
  (g.addPass "pass" .graphics
    (uses.map fun (record, state, access) => .access ⟨.texture, ⟨record, none⟩⟩ state access) fun _ => []).1

/-- two records of one texture and one of another, and passes that use them -/
def shared (settings : Settings) (passes : List (List (Nat × ResourceState × Access))) : Graph :=
  let g := ((new settings).importNative (k := .texture) 9 .blank .shaderResource).1
  let g := (g.importNative (k := .texture) 9 .blank .shaderResource).1
  let g := (g.importNative (k := .texture) 10 .blank .renderTarget).1
  passes.foldl addUses g

theorem built_shared (settings : Settings) (passes : List (List (Nat × ResourceState × Access))) :
    (shared settings passes).Built := by
  refine List.foldlRecOn passes addUses ?_ fun _ hg _ _ => .addPass _ _ _ _ hg
  exact .importNative .texture _ _ _ (.importNative .texture _ _ _ (.importNative .texture _ _ _ (.new _)))

/-- both records are asked to be a render target: the second time the texture is one already -/
def repeated : Graph := shared {} [[(0, .renderTarget, .write)], [(1, .renderTarget, .write)]]

theorem compile_drops_redundant_repeated : ∃ g' stats s',
    repeated.compile CountingDevice.device {} = .ok (g', .ok stats, s') ∧ stats.redundantDropped = 1 ∧
    ∃ u stats', repeated.keepingAll.compile CountingDevice.device {} = .ok (u, .ok stats', s') ∧
      u.walk.map Prod.fst = g'.walk.map Prod.fst ∧
      ∀ k, Sieved g'.registry.nativeLayout (g'.registry.nativesInitially k) (u.planned k) (g'.planned k) [] ∧
        Replays g'.registry.nativeLayout (g'.registry.nativesInitially k)
          ((g'.planned k).map fun x => x.2.onNative) := by
  have h : (match repeated.compile CountingDevice.device {} with
      | .ok (g', .ok stats, _) => decide g'.registry.Agree && decide (stats.redundantDropped = 1)
      | _ => false) = true := by decide +kernel
  split at h
  · rename_i g' stats s' hc
    rw [Bool.and_eq_true, decide_eq_true_eq, decide_eq_true_eq] at h
    exact ⟨g', stats, s', hc, h.2, compile_drops_redundant (built_shared _ _) rfl rfl hc h.1⟩
  · cases h

/-- **Where no barrier is stale, the ones left replay.** This is so whatever is done with stale barriers. -/
theorem compile_keeps_replayable (h : g.Built) (he : g.settings.eliminate = true)
    (hc : g.compile dev s = .ok (g', .ok stats, s')) (ha : g'.registry.Agree) :
    ∃ u stats', g.keepingAll.compile dev s = .ok (u, .ok stats', s') ∧ u.walk.map Prod.fst = g'.walk.map Prod.fst ∧
      ∀ k, ∃ stale,
        Sieved g'.registry.nativeLayout (g'.registry.nativesInitially k) (u.planned k) (g'.planned k) stale ∧
          ∀ native, (∀ x ∈ stale, x.2.native ≠ native) →
            Replays g'.registry.nativeLayout (g'.registry.nativesInitially k)
              ((onObject native (g'.planned k)).map fun x => x.2.onNative) := by
  obtain ⟨u, stats', hcu, hwalk, hsieved⟩ := compile_sieves h he hc ha
  refine ⟨u, stats', hcu, hwalk, fun k => ?_⟩
  obtain ⟨stale, hk, -⟩ := hsieved k
  exact ⟨stale, hk, fun native hnative => hk.replays_on hnative rfl⟩

/-- the second record is a copy destination when the texture is a render target, and then it is something else; the other
texture becomes a copy destination, too -/
def outdated : Graph :=
  shared { onStale := .drop }
    [[(0, .renderTarget, .write)], [(1, .copyDest, .write), (2, .copyDest, .write)], [(1, .unorderedAccess, .write)]]

theorem outdated_compiles : ∃ g' stats s', outdated.compile CountingDevice.device {} = .ok (g', .ok stats, s') ∧
    g'.registry.Agree ∧ g'.registry.nativeLayout .texture 9 = some ⟨1, 1⟩ ∧
    g'.planned .texture = [(0, ⟨0, 9, .shaderResource, .renderTarget, .color, none⟩),
      (1, ⟨2, 10, .renderTarget, .copyDest, .color, none⟩),
      (2, ⟨1, 9, .copyDest, .unorderedAccess, .color, none⟩)] := by
  have h : (match outdated.compile CountingDevice.device {} with
      | .ok (g', .ok _, _) =>
        decide g'.registry.Agree && decide (g'.registry.nativeLayout .texture 9 = some ⟨1, 1⟩) &&
          decide (g'.planned .texture = [(0, ⟨0, 9, .shaderResource, .renderTarget, .color, none⟩),
            (1, ⟨2, 10, .renderTarget, .copyDest, .color, none⟩),
            (2, ⟨1, 9, .copyDest, .unorderedAccess, .color, none⟩)])
      | _ => false) = true := by decide +kernel
  split at h
  · rename_i g' stats s' hc
    simp only [Bool.and_eq_true, decide_eq_true_eq] at h
    exact ⟨g', stats, s', hc, h.1.1, h.1.2, h.2⟩
  · cases h

/-- no barrier of the other texture is stale -/
theorem compile_keeps_replayable_outdated : ∃ g' stats s',
    outdated.compile CountingDevice.device {} = .ok (g', .ok stats, s') ∧
    ∃ u stats', outdated.keepingAll.compile CountingDevice.device {} = .ok (u, .ok stats', s') ∧
      u.walk.map Prod.fst = g'.walk.map Prod.fst ∧
      ∀ k, ∃ stale,
        Sieved g'.registry.nativeLayout (g'.registry.nativesInitially k) (u.planned k) (g'.planned k) stale ∧
          ∀ native, (∀ x ∈ stale, x.2.native ≠ native) →
            Replays g'.registry.nativeLayout (g'.registry.nativesInitially k)
              ((onObject native (g'.planned k)).map fun x => x.2.onNative) := by
  obtain ⟨g', stats, s', hc, ha, -, -⟩ := outdated_compiles
  exact ⟨g', stats, s', hc, compile_keeps_replayable (built_shared _ _) rfl hc ha⟩

/-- **What is left of stale barriers need not replay.** The second record's move to a copy destination is stale and dropped,
so its next barrier is left, although the texture is a render target when it is issued. -/
theorem dropped_not_replayable : outdated.Built ∧ outdated.settings.eliminate = true ∧
    outdated.settings.onStale = .drop ∧ ∃ g' stats s',
      outdated.compile CountingDevice.device {} = .ok (g', .ok stats, s') ∧ g'.registry.Agree ∧
      ¬ Replays g'.registry.nativeLayout (g'.registry.nativesInitially .texture)
        ((g'.planned .texture).map fun x => x.2.onNative) := by
  obtain ⟨g', stats, s', hc, ha, hl, hplanned⟩ := outdated_compiles
  refine ⟨built_shared _ _, rfl, rfl, g', stats, s', hc, ha, fun hr => ?_⟩
  have hcovers : ∀ b : Barrier .texture, b.resource = 9 → b.part = none →
      b.covers g'.registry.nativeLayout 0 = true := by
    intro b hb hpart
    rw [Barrier.covers, hb, hl, hpart]
    decide
  rw [hplanned] at hr
  obtain ⟨-, -, hstarts, -⟩ := hr
  have hstate := hstarts 0 (hcovers _ rfl rfl)
  simp [Barrier.apply, Barrier.onNative, hcovers] at hstate

end Graph

end FrameGraph
