/-
The statistics of a compile balance.

Barriers are counted where they are made, where those of a pass are merged, where redundant ones are dropped, and in the
end. Between two of these places the batches shrink (`Batches.Shrinks`): no pass has more barriers than before, and what
is gone is counted. This needs nothing of the barriers or of the records, so it holds with shared objects, with any parts
and with either policy for stale barriers.

- `length_mergeBarriers_le`: merging leaves at most as many barriers as there were.
- `shrinks_afterMerging`, `shrinks_afterElimination`: both stages shrink the batches by what they count.
- `compile_balances`: each raw barrier of a compiled graph is left, merged away or dropped, and every count is a count of
  the barriers of its passes, with and without the two stages.
-/
import FrameGraph.Proofs.Chains
import FrameGraph.Proofs.MergingGroups
import FrameGraph.Proofs.MergingOutcomes

namespace FrameGraph

variable {k : ResourceKind} {σ : Type}

/-! ## Merging -/

section Merging

variable {β ρ : Type} {meets : ρ → ρ → Bool} {grow : ρ → ρ → Except Fault ρ} {run next : β × ρ}
  {parts runs others : List (β × ρ)}

theorem length_joinNeighbours_le (h : joinNeighbours meets grow run parts = .ok runs) :
    runs.length ≤ parts.length + 1 := by
  induction parts generalizing run runs with
  | nil =>
    cases h
    exact le_rfl
  | cons next rest ih =>
    unfold joinNeighbours at h
    split at h
    · obtain ⟨part, -, h⟩ := bind_eq_ok.1 h
      exact (ih h).trans (Nat.le_succ _)
    · obtain ⟨later, hlater, h⟩ := bind_eq_ok.1 h
      cases h
      exact Nat.succ_le_succ (ih hlater)

theorem length_neighbourRuns_le (h : neighbourRuns meets grow parts = .ok runs) : runs.length ≤ parts.length := by
  cases parts with
  | nil =>
    cases h
    exact le_rfl
  | cons first rest => exact length_joinNeighbours_le h

theorem length_joinFirst_le (h : joinFirst meets grow next runs = .ok others) : others.length ≤ runs.length + 1 := by
  induction runs generalizing others with
  | nil =>
    cases h
    exact le_rfl
  | cons run rest ih =>
    unfold joinFirst at h
    split at h
    · obtain ⟨part, -, h⟩ := bind_eq_ok.1 h
      cases h
      exact Nat.le_succ _
    · obtain ⟨later, hlater, h⟩ := bind_eq_ok.1 h
      cases h
      exact Nat.succ_le_succ (ih hlater)

theorem length_foldlM_joinFirst_le
    (h : parts.foldlM (fun runs next => joinFirst meets grow next runs) runs = .ok others) :
    others.length ≤ parts.length + runs.length := by
  induction parts generalizing runs with
  | nil =>
    cases h
    exact (Nat.zero_add _).ge
  | cons next rest ih =>
    rw [List.foldlM_cons] at h
    obtain ⟨mid, hmid, h⟩ := bind_eq_ok.1 h
    have hfirst := length_joinFirst_le hmid
    have hrest := ih h
    rw [List.length_cons]
    omega

theorem length_coalesce_le {parts runs : List (β × k.Part)} (h : k.coalesce parts = .ok runs) :
    runs.length ≤ parts.length := by
  cases k with
  | texture =>
    obtain ⟨mid, hmid, h⟩ := bind_eq_ok.1 h
    exact (length_foldlM_joinFirst_le h).trans (length_neighbourRuns_le hmid)
  | buffer => exact length_neighbourRuns_le h

variable {bounds : Nat → Except Fault k.Bounds}

theorem length_mergeGroup_le {group ms : List (Barrier k)} (h : mergeGroup bounds group = .ok ms) :
    ms.length ≤ group.length := by
  unfold mergeGroup at h
  split at h
  · rename_i whole hf
    cases h
    exact List.length_pos_of_mem (List.mem_of_find?_eq_some hf)
  · obtain ⟨runs, hruns, h⟩ := bind_eq_ok.1 h
    split at h
    · cases h
      exact le_rfl
    · obtain ⟨size, -, h⟩ := bind_eq_ok.1 h
      cases h
      rw [List.length_map]
      exact (length_coalesce_le hruns).trans (List.length_filterMap_le _ _)

/-- **Merging leaves at most as many barriers as there were,** whatever parts they have. -/
theorem length_mergeBarriers_le {bs ms : List (Barrier k)} (h : mergeBarriers bounds bs = .ok ms) :
    ms.length ≤ bs.length := by
  have hgroups : ∀ {groups mss : List (List (Barrier k))},
      List.Forall₂ (fun group ms => mergeGroup bounds group = .ok ms) groups mss →
        mss.flatten.length ≤ groups.flatten.length := by
    intro groups mss hgroups
    induction hgroups with
    | nil => exact le_rfl
    | cons hms _ ih =>
      rw [List.flatten_cons, List.flatten_cons, List.length_append, List.length_append]
      exact Nat.add_le_add (length_mergeGroup_le hms) ih
  obtain ⟨mss, hmss, h⟩ := bind_eq_ok.1 h
  cases h
  exact (hgroups (mapM_eq_ok_iff.1 hmss)).trans (flatten_barrierGroups bs).length_eq.le

end Merging

/-! ## Counts of merges -/

theorem MergeCounts.eq_of_add {a b c : MergeCounts} (h : a.add b = .ok c) :
    c = ⟨a.input + b.input, a.output + b.output⟩ := by
  obtain ⟨input, hin, h⟩ := bind_eq_ok.1 h
  obtain ⟨output, hout, h⟩ := bind_eq_ok.1 h
  unfold checkedAdd at hin hout
  split at hin <;> split at hout <;> cases hin <;> cases hout
  cases h
  rfl

theorem MergeCounts.removed_eq_ok {c : MergeCounts} (h : c.output ≤ c.input) : c.removed = .ok (c.input - c.output) :=
  checkedSub_eq_ok h

/-- **What a merge removes can be counted.** A batch never has more barriers merged than it had before. -/
theorem removed_of_merged {g : Registry} {batch : Batch} {textures : List (Barrier .texture)}
    {buffers : List (Barrier .buffer)} {counts : MergeCounts}
    (ht : mergeBarriers (g.boundsOf .texture) batch.textures = .ok textures)
    (hb : mergeBarriers (g.boundsOf .buffer) batch.buffers = .ok buffers)
    (hc : MergeCounts.add ⟨batch.textures.length, textures.length⟩ ⟨batch.buffers.length, buffers.length⟩ = .ok counts) :
    ∃ removed, counts.removed = .ok removed ∧ removed + counts.output = counts.input := by
  obtain rfl := MergeCounts.eq_of_add hc
  have hle := Nat.add_le_add (length_mergeBarriers_le ht) (length_mergeBarriers_le hb)
  exact ⟨_, MergeCounts.removed_eq_ok hle, Nat.sub_add_cancel hle⟩

theorem count_mergeBatch {g : Registry} {batch merged : Batch} {removed : Nat}
    (h : mergeBatch g batch = .ok (merged, removed)) : removed + merged.count = batch.count := by
  obtain ⟨textures, ht, h⟩ := bind_eq_ok.1 h
  obtain ⟨buffers, hb, h⟩ := bind_eq_ok.1 h
  obtain ⟨counts, hc, h⟩ := bind_eq_ok.1 h
  obtain ⟨removed', hr, h⟩ := bind_eq_ok.1 h
  cases h
  obtain ⟨n, hn, hsum⟩ := removed_of_merged ht hb hc
  rw [hr] at hn
  cases hn
  rwa [MergeCounts.eq_of_add hc] at hsum

/-! ## Replaying -/

/-- each barrier replayed is kept or dropped -/
theorem Natives.length_sift {policy : StalePolicy} {pass : String} {g : Registry} {n n' : Natives k}
    {bs kept : List (Barrier k)} {dropped : Nat} (h : n.sift policy pass g bs = .ok (kept, dropped, n')) :
    dropped + kept.length = bs.length := by
  induction bs generalizing n n' kept dropped with
  | nil =>
    cases h
    rfl
  | cons b bs ih =>
    obtain ⟨⟨keep, moved⟩, -, h⟩ := bind_eq_ok.1 h
    obtain ⟨⟨kept', dropped', n''⟩, hrest, h⟩ := bind_eq_ok.1 h
    have hlength := ih hrest
    cases keep with
    | true =>
      cases h
      rw [List.length_cons, List.length_cons, ← hlength]
      rfl
    | false =>
      cases h
      rw [List.length_cons, ← hlength, Nat.add_right_comm]

/-! ## Shrinking batches -/

namespace Batches

/-- the same passes, none with more barriers than before, and `n` barriers fewer in all -/
structure Shrinks (before after : Batches) (n : Nat) : Prop where
  fewer : List.Forall₂ (fun x y => x.1 = y.1 ∧ y.2.count ≤ x.2.count) before after
  counted : n + after.count = before.count

namespace Shrinks

variable {before after : Batches} {n : Nat}

theorem refl (batches : Batches) : batches.Shrinks batches 0 where
  fewer := List.forall₂_same.2 fun _ _ => ⟨rfl, le_rfl⟩
  counted := Nat.zero_add _

theorem cons {batch left : Batch} {m : Nat} (h : before.Shrinks after n) (hb : m + left.count = batch.count) (i : Nat) :
    Shrinks ((i, batch) :: before) ((i, left) :: after) (m + n) where
  fewer := List.Forall₂.cons ⟨rfl, hb ▸ Nat.le_add_left _ _⟩ h.fewer
  counted := by
    rw [count_cons, count_cons, ← hb, ← h.counted]
    omega

theorem indices (h : before.Shrinks after n) : after.map Prod.fst = before.map Prod.fst := by
  obtain ⟨hfewer, -⟩ := h
  induction hfewer with
  | nil => rfl
  | cons hxy _ ih => rw [List.map_cons, List.map_cons, hxy.1, ih]

theorem ofPass_le (h : before.Shrinks after n) (i : Nat) : (after.ofPass i).count ≤ (before.ofPass i).count := by
  obtain ⟨hfewer, -⟩ := h
  induction hfewer with
  | nil => exact le_rfl
  | @cons x y _ _ hxy _ ih =>
    obtain ⟨j, batch⟩ := x
    obtain ⟨j', left⟩ := y
    obtain ⟨rfl, hle⟩ := hxy
    simp only [ofPass, List.lookup_cons] at ih ⊢
    split
    · exact hle
    · exact ih

end Shrinks

end Batches

theorem shrinks_mergeAll {g : Registry} {batches merged : Batches} {removed : Nat}
    (h : mergeAll g batches = .ok (merged, removed)) : batches.Shrinks merged removed := by
  induction batches generalizing merged removed with
  | nil =>
    cases h
    exact .refl []
  | cons x rest ih =>
    obtain ⟨i, batch⟩ := x
    obtain ⟨⟨batch', n⟩, hb, h⟩ := bind_eq_ok.1 h
    obtain ⟨⟨rest', n'⟩, hr, h⟩ := bind_eq_ok.1 h
    cases h
    exact (ih hr).cons (count_mergeBatch hb) i

theorem shrinks_eliminate {policy : StalePolicy} {passName : Nat → String} {g : Registry} {ns : Both Natives}
    {batches final : Batches} {dropped : Nat} (h : eliminate policy passName g ns batches = .ok (final, dropped)) :
    batches.Shrinks final dropped := by
  induction batches generalizing ns final dropped with
  | nil =>
    cases h
    exact .refl []
  | cons x rest ih =>
    obtain ⟨i, batch⟩ := x
    obtain ⟨⟨textures, n₁, _⟩, ht, h⟩ := bind_eq_ok.1 h
    obtain ⟨⟨buffers, n₂, _⟩, hb, h⟩ := bind_eq_ok.1 h
    obtain ⟨⟨later, n₃⟩, hlater, h⟩ := bind_eq_ok.1 h
    cases h
    refine (ih hlater).cons ?_ i
    have htextures := Natives.length_sift ht
    have hbuffers := Natives.length_sift hb
    rw [Batch.count, Batch.count, ← htextures, ← hbuffers]
    dsimp only
    omega

variable {settings : Settings} {g : Registry} {raw merged final : Batches} {removed dropped : Nat}

/-- merged or not, each barrier is left or counted as merged away -/
theorem shrinks_afterMerging (h : afterMerging settings g raw = .ok (merged, removed)) : raw.Shrinks merged removed := by
  unfold afterMerging at h
  split at h
  · exact shrinks_mergeAll h
  · cases h
    exact .refl raw

/-- whether redundant barriers are dropped or not, each barrier is left or counted as dropped -/
theorem shrinks_afterElimination {passes : List Pass} {needed : List Nat} (hfst : merged.map Prod.fst = needed)
    (hn : needed.Nodup) (h : afterElimination settings passes g needed merged = .ok (final, dropped)) :
    merged.Shrinks final dropped := by
  unfold afterElimination at h
  split at h
  · rw [Batches.map_ofPass hfst hn] at h
    exact shrinks_eliminate h
  · cases h
    exact .refl merged

theorem Batches.count_eq (batches : Batches) : batches.count = (batches.map fun x => x.2.count).sum := by
  induction batches with
  | nil => rfl
  | cons x rest ih => rw [count_cons, ih, List.map_cons, List.sum_cons]

/-! ## Passes -/

/-- statistics count the raw barriers and the ones left in the end -/
structure Stats.Counts (stats : Stats) (raw final : Batches) : Prop where
  rawTextures : stats.rawTextureBarriers = raw.textureCount
  rawBuffers : stats.rawBufferBarriers = raw.bufferCount
  textures : stats.textureBarriers = final.textureCount
  buffers : stats.bufferBarriers = final.bufferCount

/-- what is zero at every index that is not picked sums up to the same over the picked ones -/
theorem sum_map_filter {is : List Nat} {q : Nat → Bool} {f : Nat → Nat} (h : ∀ i ∈ is, q i = false → f i = 0) :
    ((is.filter q).map f).sum = (is.map f).sum := by
  induction is with
  | nil => rfl
  | cons i is ih =>
    obtain ⟨hi, his⟩ := List.forall_mem_cons.1 h
    cases hq : q i with
    | true => rw [List.filter_cons_of_pos hq, List.map_cons, List.map_cons, List.sum_cons, List.sum_cons, ih his]
    | false =>
      rw [List.filter_cons_of_neg (by simp [hq]), List.map_cons, List.sum_cons, hi hq, Nat.zero_add, ih his]

namespace Graph

/-- the barriers of the passes are those of batches, which some of the passes have, in order -/
structure Plans (g : Graph) (batches : Batches) : Prop where
  indices : ∃ q, batches.map Prod.fst = (List.range g.passes.length).filter q
  barriers : (g.passes.map fun p => p.plan.barriers) = (List.range g.passes.length).map batches.ofPass

/-- the barriers of each pass in one graph and in another -/
def passCounts (before after : Graph) : List MergeCounts :=
  List.zipWith (fun p q => ⟨p.plan.barriers.count, q.plan.barriers.count⟩) before.passes after.passes

namespace Plans

variable {g before after : Graph} {batches left : Batches} {n : Nat}

/-- a count over all passes is one over the batches -/
theorem sum_eq (h : g.Plans batches) {f : Batch → Nat} (hf : f .empty = 0) :
    (g.passes.map fun p => f p.plan.barriers).sum = (batches.map fun x => f x.2).sum := by
  obtain ⟨q, hq⟩ := h.indices
  have hzero : ∀ i ∈ List.range g.passes.length, q i = false → f (batches.ofPass i) = 0 := by
    intro i _ hi
    have hout : i ∉ batches.map Prod.fst := by
      rw [hq, List.mem_filter, hi]
      exact fun h => Bool.noConfusion h.2
    rw [Batches.ofPass_of_not_mem hout, hf]
  calc (g.passes.map fun p => f p.plan.barriers).sum
      = ((g.passes.map fun p => p.plan.barriers).map f).sum := by rw [List.map_map]; rfl
    _ = ((List.range g.passes.length).map fun i => f (batches.ofPass i)).sum := by rw [h.barriers, List.map_map]; rfl
    _ = (((List.range g.passes.length).filter q).map fun i => f (batches.ofPass i)).sum := (sum_map_filter hzero).symm
    _ = ((((List.range g.passes.length).filter q).map fun i => (i, batches.ofPass i)).map fun x => f x.2).sum := by
        rw [List.map_map]
        rfl
    _ = (batches.map fun x => f x.2).sum := by rw [Batches.map_ofPass hq (List.nodup_range.filter q)]

theorem count_eq (h : g.Plans batches) : (g.passes.map fun p => p.plan.barriers.count).sum = batches.count := by
  rw [h.sum_eq (f := Batch.count) rfl, Batches.count_eq]

theorem textureCount_eq (h : g.Plans batches) :
    batches.textureCount = (g.passes.map fun p => p.plan.barriers.textures.length).sum := by
  rw [h.sum_eq (f := fun batch => batch.textures.length) rfl]
  exact List.length_flatMap

theorem bufferCount_eq (h : g.Plans batches) :
    batches.bufferCount = (g.passes.map fun p => p.plan.barriers.buffers.length).sum := by
  rw [h.sum_eq (f := fun batch => batch.buffers.length) rfl]
  exact List.length_flatMap

theorem passCounts_eq (hb : before.Plans batches) (ha : after.Plans left)
    (hlength : after.passes.length = before.passes.length) :
    passCounts before after =
      (List.range before.passes.length).map fun i => ⟨(batches.ofPass i).count, (left.ofPass i).count⟩ := by
  calc passCounts before after
      = List.zipWith (fun b l : Batch => MergeCounts.mk b.count l.count) (before.passes.map fun p => p.plan.barriers)
          (after.passes.map fun p => p.plan.barriers) := by
        rw [List.zipWith_map]
        rfl
    _ = (List.range before.passes.length).map fun i => ⟨(batches.ofPass i).count, (left.ofPass i).count⟩ := by
        rw [hb.barriers, ha.barriers, hlength, List.zipWith_map, List.zipWith_self]

/-- batches that shrink take from each pass what the counts of the pass differ by -/
theorem passCounts_of_shrinks (hb : before.Plans batches) (ha : after.Plans left)
    (hlength : after.passes.length = before.passes.length) (h : batches.Shrinks left n) :
    (∀ c ∈ passCounts before after, c.removed = .ok (c.input - c.output)) ∧
      n = ((passCounts before after).map fun c => c.input - c.output).sum := by
  have hle : ∀ c ∈ passCounts before after, c.output ≤ c.input := by
    intro c hc
    rw [hb.passCounts_eq ha hlength] at hc
    obtain ⟨i, -, rfl⟩ := List.mem_map.1 hc
    exact h.ofPass_le i
  refine ⟨fun c hc => MergeCounts.removed_eq_ok (hle c hc), ?_⟩
  have hinput : ((passCounts before after).map MergeCounts.input).sum = batches.count := by
    rw [← hb.count_eq, hb.passCounts_eq ha hlength]
    simpa [Function.comp_def] using congrArg (fun bs => (bs.map Batch.count).sum) hb.barriers.symm
  have houtput : ((passCounts before after).map MergeCounts.output).sum = left.count := by
    rw [← ha.count_eq, hb.passCounts_eq ha hlength, ← hlength]
    simpa [Function.comp_def] using congrArg (fun bs => (bs.map Batch.count).sum) ha.barriers.symm
  have hsum : ((passCounts before after).map fun c => c.input - c.output).sum
      + ((passCounts before after).map MergeCounts.output).sum = ((passCounts before after).map MergeCounts.input).sum := by
    rw [← List.sum_map_add]
    exact congrArg List.sum (List.map_congr_left fun c hc => Nat.sub_add_cancel (hle c hc))
  have hcounted := h.counted
  omega

end Plans

variable {g g' : Graph} {dev : Device σ} {s s' : σ} {stats : Stats}

/-- a graph with a plan for its records compiles to it -/
theorem compile_of_plan {records : Registry} {plan : Compiled} (hb : g.registry.back dev s = (records, none, s'))
    (hp : compilePasses g.settings records g.passes = .ok plan) :
    g.compile dev s = .ok (g.withPlan plan, .ok plan.stats, s') := by
  rw [compile_of_back hb, hp]
  rfl

/-- a plan plans the batches it is put together from -/
theorem plans_assemble {needed : List Nat} {q : Nat → Bool} (g : Graph) (after : Registry) (raw : Batches)
    (removed dropped : Nat) (hq : needed = (List.range (g.passes.map Pass.withSets).length).filter q)
    (hfst : final.map Prod.fst = needed) :
    (g.withPlan (.assemble (g.passes.map Pass.withSets) needed after raw final removed dropped)).Plans final where
  indices := ⟨q, by simp [withPlan, Compiled.assemble, hfst, hq]⟩
  barriers := by
    refine List.ext_getElem (by simp) fun i _ _ => ?_
    simp [withPlan, Compiled.assemble]

/-- the graph with neither merging nor elimination -/
def plain (g : Graph) : Graph := (g.merging false).keepingAll

/-- the statistics count the barriers of a compiled graph; `raw` is the graph compiled with neither merging nor
elimination, `merged` the one compiled without elimination, and `left` is compiled as its settings say -/
structure Balanced (stats : Stats) (raw merged left : Graph) : Prop where
  /-- each raw barrier is left, merged away or dropped -/
  total : stats.rawTextureBarriers + stats.rawBufferBarriers =
    stats.textureBarriers + stats.bufferBarriers + stats.mergedAway + stats.redundantDropped
  /-- the barriers left are those of all passes -/
  textures : stats.textureBarriers = (left.passes.map fun p => p.plan.barriers.textures.length).sum
  buffers : stats.bufferBarriers = (left.passes.map fun p => p.plan.barriers.buffers.length).sum
  /-- the raw barriers are those of all passes before any is merged or dropped -/
  rawTextures : stats.rawTextureBarriers = (raw.passes.map fun p => p.plan.barriers.textures.length).sum
  rawBuffers : stats.rawBufferBarriers = (raw.passes.map fun p => p.plan.barriers.buffers.length).sum
  /-- merging leaves no pass with more barriers than it had, and takes away what the counts differ by -/
  merges : ∀ c ∈ passCounts raw merged, c.removed = .ok (c.input - c.output)
  mergedAway : stats.mergedAway = ((passCounts raw merged).map fun c => c.input - c.output).sum
  /-- elimination leaves no pass with more barriers than it had, and drops what the counts differ by -/
  drops : ∀ c ∈ passCounts merged left, c.removed = .ok (c.input - c.output)
  redundantDropped : stats.redundantDropped = ((passCounts merged left).map fun c => c.input - c.output).sum
  /-- the passes that execute are those in the order, and these are the ones that are not culled -/
  executed : stats.executed = .ok left.order.length
  kept : left.order.length = left.passes.countP fun p => !p.plan.culled
  /-- every other pass is counted as culled -/
  declared : stats.totalPasses = left.passes.length
  culled : stats.culledPasses + left.order.length = stats.totalPasses

/-- every pass is in the order or counted as culled -/
theorem passes_of_compile (hc : g.compile dev s = .ok (g', .ok stats, s')) :
    stats.totalPasses = g'.passes.length ∧ stats.culledPasses + g'.order.length = stats.totalPasses := by
  have hculled := (culledPasses_of_compile hc).2
  have hkept := length_order_of_compile hc
  have hlength := g'.passes.length_eq_countP_add_countP fun p => p.plan.culled
  have htotal : stats.totalPasses = g'.passes.length := by
    rw [length_compile_passes hc]
    obtain ⟨records, plan, hb, hp, rfl⟩ := compile_inv hc
    rw [compile_of_plan hb hp] at hc
    cases hc
    obtain ⟨needed, after, raw, merged, final, removed, dropped, -, -, -, -, rfl⟩ := compilePasses_eq_ok_iff.1 hp
    simp [Compiled.assemble]
  refine ⟨htotal, ?_⟩
  simp only [Bool.not_eq_true, Bool.decide_eq_false] at hlength
  rw [htotal, hculled, hkept, hlength]

/-- **What compiles compiles without the stages, too.** The three plans come from the same raw batches, and each stage
shrinks them by what it counts. -/
theorem exists_plans (hc : g.compile dev s = .ok (g', .ok stats, s')) :
    ∃ (u m : Graph) (rawStats mergedStats : Stats) (raw merged final : Batches),
      g.plain.compile dev s = .ok (u, .ok rawStats, s') ∧ g.keepingAll.compile dev s = .ok (m, .ok mergedStats, s') ∧
      (u.passes.length = g.passes.length ∧ m.passes.length = g.passes.length ∧ g'.passes.length = g.passes.length) ∧
      (u.Plans raw ∧ m.Plans merged ∧ g'.Plans final) ∧
      raw.Shrinks merged stats.mergedAway ∧ merged.Shrinks final stats.redundantDropped ∧
      rawStats.Counts raw raw ∧ stats.Counts raw final := by
  obtain ⟨records, plan, hb, hp, rfl⟩ := compile_inv hc
  rw [compile_of_plan hb hp] at hc
  cases hc
  obtain ⟨needed, after, raw, merged, final, removed, dropped, hk, hs, hm, hf, rfl⟩ := compilePasses_eq_ok_iff.1 hp
  obtain ⟨q, hq⟩ := exists_filter_of_keptPasses hk
  have hraw := indices_of_synthesize hs
  have hmerging := shrinks_afterMerging hm
  have hmerged := hmerging.indices.trans hraw
  have helimination := shrinks_afterElimination hmerged (hq ▸ List.nodup_range.filter q) hf
  have hrawPlan : compilePasses g.plain.settings records g.passes =
      .ok (.assemble (g.passes.map Pass.withSets) needed after raw raw 0 0) :=
    compilePasses_eq_ok_iff.2 ⟨needed, after, raw, raw, raw, 0, 0, hk, hs, rfl, rfl, rfl⟩
  have hmergedPlan : compilePasses g.keepingAll.settings records g.passes =
      .ok (.assemble (g.passes.map Pass.withSets) needed after raw merged removed 0) :=
    compilePasses_eq_ok_iff.2 ⟨needed, after, raw, merged, merged, removed, 0, hk, hs, hm, rfl, rfl⟩
  refine ⟨_, _, _, _, raw, merged, final, compile_of_plan (g := g.plain) hb hrawPlan,
    compile_of_plan (g := g.keepingAll) hb hmergedPlan, ⟨?_, ?_, ?_⟩, ⟨plans_assemble g.plain after raw 0 0 hq hraw,
      plans_assemble g.keepingAll after raw removed 0 hq hmerged,
      plans_assemble g after raw removed dropped hq (helimination.indices.trans hmerged)⟩, hmerging, helimination,
    ⟨rfl, rfl, rfl, rfl⟩, ⟨rfl, rfl, rfl, rfl⟩⟩
  all_goals simp [Graph.withPlan, Compiled.assemble, plain, merging, keepingAll]

/-- **The statistics balance.** A batch never has more barriers merged than it had before. If a graph compiles, it
compiles without elimination and with neither elimination nor merging as well, the raw counts are those of the last
compile, and the counts are those of the barriers that the three compiles plan. -/
theorem compile_balances (g : Graph) (dev : Device σ) (s : σ) :
    (∀ (records : Registry) (batch : Batch) textures buffers counts,
      mergeBarriers (records.boundsOf .texture) batch.textures = .ok textures →
      mergeBarriers (records.boundsOf .buffer) batch.buffers = .ok buffers →
      MergeCounts.add ⟨batch.textures.length, textures.length⟩ ⟨batch.buffers.length, buffers.length⟩ = .ok counts →
      ∃ removed, counts.removed = .ok removed ∧ removed + counts.output = counts.input) ∧
    ∀ g' stats s', g.compile dev s = .ok (g', .ok stats, s') →
      ∃ raw merged rawStats mergedStats,
        g.plain.compile dev s = .ok (raw, .ok rawStats, s') ∧
        g.keepingAll.compile dev s = .ok (merged, .ok mergedStats, s') ∧
        (rawStats.rawTextureBarriers = stats.rawTextureBarriers ∧
          rawStats.textureBarriers = stats.rawTextureBarriers) ∧
        (rawStats.rawBufferBarriers = stats.rawBufferBarriers ∧
          rawStats.bufferBarriers = stats.rawBufferBarriers) ∧
        Balanced stats raw merged g' := by
  refine ⟨fun _ _ _ _ _ => removed_of_merged, fun g' stats s' hc => ?_⟩
  obtain ⟨u, m, rawStats, mergedStats, raw, merged, final, hu, hm, ⟨hlu, hlm, hl⟩, ⟨hraw, hmerged, hfinal⟩, hmerging,
    helimination, hrawCounts, hcounts⟩ := exists_plans hc
  obtain ⟨hmerges, hmergedAway⟩ := hraw.passCounts_of_shrinks hmerged (hlm.trans hlu.symm) hmerging
  obtain ⟨hdrops, hdropped⟩ := hmerged.passCounts_of_shrinks hfinal (hl.trans hlm.symm) helimination
  obtain ⟨hdeclared, hculled⟩ := passes_of_compile hc
  refine ⟨u, m, rawStats, mergedStats, hu, hm,
    ⟨hrawCounts.rawTextures.trans hcounts.rawTextures.symm, hrawCounts.textures.trans hcounts.rawTextures.symm⟩,
    ⟨hrawCounts.rawBuffers.trans hcounts.rawBuffers.symm, hrawCounts.buffers.trans hcounts.rawBuffers.symm⟩, ?_⟩
  constructor
  case total =>
    have h₁ := hmerging.counted
    have h₂ := helimination.counted
    rw [hcounts.rawTextures, hcounts.rawBuffers, hcounts.textures, hcounts.buffers]
    simp only [Batches.count] at h₁ h₂
    omega
  case textures => rw [hcounts.textures, hfinal.textureCount_eq]
  case buffers => rw [hcounts.buffers, hfinal.bufferCount_eq]
  case rawTextures => rw [hcounts.rawTextures, hraw.textureCount_eq]
  case rawBuffers => rw [hcounts.rawBuffers, hraw.bufferCount_eq]
  case merges => exact hmerges
  case mergedAway => exact hmergedAway
  case drops => exact hdrops
  case redundantDropped => exact hdropped
  case executed => exact executed_of_compile hc
  case kept => exact length_order_of_compile hc
  case declared => exact hdeclared
  case culled => exact hculled

/-- two records of one texture, and two passes that render to the same two levels of it through different ones -/
def doubled : Graph := leveled [(0, [0, 1]), (1, [0, 1])]

/-- each pass of the sample has two barriers, which are merged to one, and the second pass finds it redundant -/
theorem compile_balances_doubled :
    (let batch : Batch := ⟨[⟨0, 9, .shaderResource, .renderTarget, .color, some (.cell 0 0)⟩,
        ⟨0, 9, .shaderResource, .renderTarget, .color, some (.cell 1 0)⟩], []⟩
      ∃ removed, (⟨batch.textures.length + batch.buffers.length, 1⟩ : MergeCounts).removed = .ok removed ∧
        removed + 1 = batch.textures.length + batch.buffers.length) ∧
    ∃ g' stats s', doubled.compile CountingDevice.device {} = .ok (g', .ok stats, s') ∧
      (stats.rawTextureBarriers = 4 ∧ stats.mergedAway = 2 ∧ stats.redundantDropped = 1 ∧ stats.textureBarriers = 1) ∧
      ∃ raw merged rawStats mergedStats,
        doubled.plain.compile CountingDevice.device {} = .ok (raw, .ok rawStats, s') ∧
        doubled.keepingAll.compile CountingDevice.device {} = .ok (merged, .ok mergedStats, s') ∧
        rawStats.textureBarriers = 4 ∧ Balanced stats raw merged g' := by
  obtain ⟨hmerge, hbalanced⟩ := compile_balances doubled CountingDevice.device {}
  constructor
  · intro batch
    exact hmerge doubled.registry batch [⟨0, 9, .shaderResource, .renderTarget, .color, some ⟨0, 1, 0, 2⟩⟩] [] ⟨2, 1⟩
      (by decide +kernel) rfl rfl
  · have h : (match doubled.compile CountingDevice.device {} with
        | .ok (_, .ok stats, _) => decide (stats.rawTextureBarriers = 4 ∧ stats.mergedAway = 2 ∧
          stats.redundantDropped = 1 ∧ stats.textureBarriers = 1)
        | _ => false) = true := by decide +kernel
    split at h
    · rename_i g' stats s' hc
      have hstats := of_decide_eq_true h
      obtain ⟨raw, merged, rawStats, mergedStats, hraw, hmerged, ⟨-, htextures⟩, -, hall⟩ := hbalanced g' stats s' hc
      exact ⟨g', stats, s', hc, hstats, raw, merged, rawStats, mergedStats, hraw, hmerged,
        htextures.trans hstats.1, hall⟩
    · cases h

end Graph

end FrameGraph
