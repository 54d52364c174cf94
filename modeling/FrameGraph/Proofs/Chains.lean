/-
Culling keeps the passes from which a chain leads out of the graph.

One pass feeds another if a usage of it writes a resource that a usage of the other reads. A pass is kept if a chain of
such steps leads from it to a pass that writes an imported or an exported resource; the chain may be empty, and it may
run against the order the passes were declared in, through a pass twice, and through parts that do not overlap.

- `needed_iff_chain`: the passes the backward search finds are those with such a chain.
- `compile_chains`: they are the ones a compiled graph keeps. A culled pass has no barriers and no place in the order, is
  not seen outside the graph (`Unseen`) and is counted.
-/
import FrameGraph.Proofs.Redundancy

namespace FrameGraph

variable {σ : Type}

/-- picking indices by what is at them picks as many as there are elements to pick -/
theorem length_filter_range_any {α : Type} (as : List α) (q : α → Bool) :
    ((List.range as.length).filter fun i => as[i]?.any q).length = as.countP q := by
  have hsome : (List.range as.length).map (as[·]?) = as.map some := by
    refine List.ext_getElem (by simp) fun i h _ => ?_
    rw [List.length_map, List.length_range] at h
    simp [h]
  calc ((List.range as.length).filter fun i => as[i]?.any q).length
      = ((List.range as.length).map (as[·]?)).countP (Option.any q) := by
        rw [List.countP_map, List.countP_eq_length_filter]
        rfl
    _ = as.countP q := by
        rw [hsome, List.countP_map]
        rfl

namespace Graph

variable {g g' : Graph} {dev : Device σ} {s s' : σ} {stats : Stats} {i : Nat}

/-! ## Chains -/

/-- a usage of pass `i` writes a resource that a usage of pass `j` reads -/
def Feeds (g : Graph) (i j : Nat) : Prop :=
  ∃ p u q v, g.passes[i]? = some p ∧ u ∈ p.usages ∧ u.writes = true ∧
    g.passes[j]? = some q ∧ v ∈ q.usages ∧ v.reads = true ∧ u.key = v.key

/-- a usage of pass `i` writes a resource that is imported or has an export state -/
def WritesVisible (g : Graph) (i : Nat) : Prop :=
  ∃ p u, g.passes[i]? = some p ∧ u ∈ p.usages ∧ u.writes = true ∧ g.registry.visible u.key = true

/-- a chain leads from pass `i` to a pass that writes a visible resource -/
def LeadsOut (g : Graph) (i : Nat) : Prop := ∃ j, Relation.ReflTransGen g.Feeds i j ∧ g.WritesVisible j

/-- **A pass is needed if and only if a chain leads out of the graph from it.** -/
theorem needed_iff_chain : Needed g.registry.visible g.passes i ↔ g.LeadsOut i := by
  constructor
  · intro h
    induction h with
    | visible hp hu hw hv => exact ⟨_, .refl, _, _, hp, hu, hw, hv⟩
    | feeds hp hu hw hq hv hr hkey _ ih =>
      obtain ⟨j, hchain, hvisible⟩ := ih
      exact ⟨j, .head ⟨_, _, _, _, hp, hu, hw, hq, hv, hr, hkey⟩ hchain, hvisible⟩
  · rintro ⟨j, hchain, hvisible⟩
    -- from the end of the chain back to its start
    induction hchain using Relation.ReflTransGen.head_induction_on with
    | refl =>
      obtain ⟨p, u, hp, hu, hw, hv⟩ := hvisible
      exact .visible hp hu hw hv
    | head hfeeds _ ih =>
      obtain ⟨p, u, q, v, hp, hu, hw, hq, hv, hr, hkey⟩ := hfeeds
      exact .feeds hp hu hw hq hv hr hkey ih

/-! ## Culled passes -/

/-- pass `i` leaves no trace: it has no barriers and no place in the order, and it writes nothing that is visible or that
a kept pass reads -/
structure Unseen (g g' : Graph) (i : Nat) : Prop where
  barriers : ∀ p, g'.passes[i]? = some p → p.plan.barriers = .empty
  order : i ∉ g'.order
  hidden : ¬ g.WritesVisible i
  unread : ∀ j q, g'.passes[j]? = some q → q.plan.culled = false → ¬ g.Feeds i j

/-- the barriers of the passes are those left for the passes in the order -/
theorem compile_batches (hc : g.compile dev s = .ok (g', .ok stats, s')) :
    ∃ final : Batches, final.map Prod.fst = g'.order ∧
      ∀ (i : Nat) (p : Pass), g'.passes[i]? = some p → p.plan.barriers = final.ofPass i := by
  obtain ⟨registry, plan, -, hp, rfl⟩ := compile_inv hc
  obtain ⟨needed, after, raw, merged, final, removed, dropped, hk, hs, hm, hf, rfl⟩ := compilePasses_eq_ok_iff.1 hp
  have hnodup : needed.Nodup := (ascending_of_keptPasses hk).1.imp fun h => h.ne
  have hmerged : merged.map Prod.fst = needed := (indices_of_afterMerging hm).trans (indices_of_synthesize hs)
  refine ⟨final, afterElimination_indices hmerged hnodup hf, fun i p hp => ?_⟩
  simp only [Compiled.assemble, List.getElem?_mapIdx] at hp
  obtain ⟨d, -, rfl⟩ := Option.map_eq_some_iff.1 hp
  rfl

/-- a pass of a compiled graph is culled if it is not in the order -/
theorem culled_eq_false_iff (hc : g.compile dev s = .ok (g', .ok stats, s')) {p : Pass} (hp : g'.passes[i]? = some p) :
    p.plan.culled = false ↔ i ∈ g'.order := by
  obtain ⟨needed, final, raw, -, -, rfl, -, hpasses⟩ := compile_passes hc
  rw [hpasses] at hp
  obtain ⟨d, -, rfl⟩ := Option.map_eq_some_iff.1 hp
  simp

/-- as many passes are in the order as are not culled -/
theorem length_order_of_compile (hc : g.compile dev s = .ok (g', .ok stats, s')) :
    g'.order.length = g'.passes.countP fun p => !p.plan.culled := by
  rw [order_of_compile hc, length_filter_range_any]

/-- the passes that are not in the order are counted -/
theorem culledPasses_of_compile (hc : g.compile dev s = .ok (g', .ok stats, s')) :
    g'.stats = stats ∧ stats.culledPasses = g'.passes.countP fun p => p.plan.culled := by
  have hlength := length_compile_passes hc
  have hkept := length_order_of_compile hc
  have hcount : g'.stats = stats ∧ stats.culledPasses = g.passes.length - g'.order.length := by
    obtain ⟨registry, plan, hb, hp, rfl⟩ := compile_inv hc
    rw [compile_of_back hb, hp] at hc
    cases hc
    obtain ⟨needed, after, raw, merged, final, removed, dropped, -, -, -, -, rfl⟩ := compilePasses_eq_ok_iff.1 hp
    simp only [Compiled.assemble, List.length_map, and_self]
  refine ⟨hcount.1, ?_⟩
  have htotal : g'.passes.length = (g'.passes.countP fun p => p.plan.culled) + g'.order.length := by
    rw [hkept]
    simpa using g'.passes.length_eq_countP_add_countP fun p => p.plan.culled
  omega

/-- **Culling keeps exactly the passes from which a chain leads out of the graph.** The culled ones leave no trace, and
they are counted. -/
theorem compile_chains (hcull : g.settings.cull = true) (hc : g.compile dev s = .ok (g', .ok stats, s')) :
    (∀ i p, g'.passes[i]? = some p →
      (p.plan.culled = false ↔ ∃ j, Relation.ReflTransGen g.Feeds i j ∧ g.WritesVisible j) ∧
        (p.plan.culled = true → g.Unseen g' i)) ∧
      g'.stats = stats ∧ stats.culledPasses = g'.passes.countP fun p => p.plan.culled := by
  obtain ⟨hstats, hcount⟩ := culledPasses_of_compile hc
  have hkept : ∀ i, i ∈ g'.order ↔ g.LeadsOut i := by
    intro i
    rw [mem_order hc, Kept, if_pos hcull, needed_iff_chain]
  refine ⟨fun i p hp => ⟨(culled_eq_false_iff hc hp).trans (hkept i), fun hculled => ?_⟩, hstats, hcount⟩
  have hout : i ∉ g'.order := by
    rw [← culled_eq_false_iff hc hp, hculled]
    exact Bool.noConfusion
  constructor
  case barriers =>
    intro q hq
    obtain ⟨final, hindices, hbatches⟩ := compile_batches hc
    rw [hbatches i q hq, Batches.ofPass_of_not_mem (by rwa [hindices])]
  case order => exact hout
  case hidden =>
    intro hv
    exact hout ((hkept i).2 ⟨i, .refl, hv⟩)
  case unread =>
    intro j q hq hj hfeeds
    -- the chain that keeps the reader could start here
    obtain ⟨m, hchain, hv⟩ := (hkept j).1 ((culled_eq_false_iff hc hq).1 hj)
    exact hout ((hkept i).2 ⟨m, .head hfeeds hchain, hv⟩)

/-- passes declared against the flow of the data. The first fills an imported buffer from what the second makes, and the
second reads the half of a buffer whose other half the last one reworks. The two in between read the imported buffer and
feed each other. -/
def upstream : Graph :=
  let d : BufferDescriptor := ⟨none, 8, 0#_, 0⟩
  let (g, target) := (new {}).importNative (k := .buffer) 7 d .common
  let (g, made) := g.create (k := .buffer) d
  let (g, raw) := g.create (k := .buffer) d
  let (g, there) := g.create (k := .buffer) d
  let (g, back) := g.create (k := .buffer) d
  let read (h : Handle .buffer) : SetupCall := .access ⟨.buffer, h⟩ .shaderResource .read
  let write (h : Handle .buffer) : SetupCall := .access ⟨.buffer, h⟩ .unorderedAccess .write
  let g := (g.addPass "fill" .compute [read made, write target] fun _ => []).1
  let g := (g.addPass "make" .compute [read (raw.restrict ⟨0, 4⟩), write made] fun _ => []).1
  let g := (g.addPass "to" .compute [read target, read back, write there] fun _ => []).1
  let g := (g.addPass "fro" .compute [read there, write back] fun _ => []).1
  (g.addPass "rework" .compute
    [.access ⟨.buffer, raw.restrict ⟨4, 4⟩⟩ .unorderedAccess .readWrite] fun _ => []).1

/-- the two passes that feed each other are culled, and the last one is kept -/
theorem compile_chains_upstream : upstream.settings.cull = true ∧
    ∃ g' stats s', upstream.compile CountingDevice.device {} = .ok (g', .ok stats, s') ∧ g'.order = [0, 1, 4] ∧
      (∀ i p, g'.passes[i]? = some p →
        (p.plan.culled = false ↔ ∃ j, Relation.ReflTransGen upstream.Feeds i j ∧ upstream.WritesVisible j) ∧
          (p.plan.culled = true → upstream.Unseen g' i)) ∧
        g'.stats = stats ∧ stats.culledPasses = g'.passes.countP fun p => p.plan.culled := by
  have h : (match upstream.compile CountingDevice.device {} with
      | .ok (g', .ok _, _) => decide (g'.order = [0, 1, 4])
      | _ => false) = true := by decide +kernel
  split at h
  · rename_i g' stats s' hc
    exact ⟨rfl, g', stats, s', hc, of_decide_eq_true h, compile_chains rfl hc⟩
  · cases h

end Graph

end FrameGraph
