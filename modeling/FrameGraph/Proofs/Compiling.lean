/-
What a plan guarantees.

A compiled graph is planned (`Graph.Planned`) when the passes it walks are the passes that are not culled, in the order
they are declared in, the barriers planned for each are the exact difference between the states before it and what it is
granted, starting from the initial states, and the trackers hold the states after the last one.

- `compilePasses_of_kept`: compiling in stages. `compilePasses_eq_ok_iff`: each with its result. The order is always the
  declared one.
- `Batches.Exact`: what synthesis establishes and merging keeps (`merged_exact`), and the later stages, too
  (`compilePasses_exact`).
- `planned_of_compilePasses`: a plan made from opened records (`Registry.Opened`) is of this kind, whether barriers are
  merged or not and whether redundant ones are dropped or not. Dropping needs that no two records share an object.
-/
import FrameGraph.Proofs.DeclarationOrder
import FrameGraph.Proofs.Elimination
import FrameGraph.Proofs.Merging
import FrameGraph.Graph

namespace FrameGraph

open ResourceKind

variable {k : ResourceKind} {g g' : Registry}

/-! ## Opened records -/

/-- every record is ready and tracked as a whole in its initial state -/
structure Registry.Opened (g : Registry) : Prop where
  ready : g.Ready
  whole : ∀ k, ∀ r ∈ g.get k, r.tracker.content = .whole r.initial

theorem Registry.Opened.world (h : g.Opened) : g.world = g.initially := by
  funext k n i
  rw [Registry.world, Registry.initially]
  cases hr : (g.get k)[n]? with
  | none => rfl
  | some r =>
    have hm := List.mem_of_getElem? hr
    simp only [Option.bind_some, Tracker.stateAt, h.whole k r hm, (h.ready k r hm).bounds]

theorem Registry.Opened.noteWriters (h : g.Opened) (passes : List Pass) : (g.noteWriters passes).Opened := by
  have hfrom : ∀ k, ∀ r ∈ (g.noteWriters passes).get k, ∃ q ∈ g.get k, ∃ writers, r = { q with writers } :=
    fun k r hr => by
      obtain ⟨n, hn⟩ := List.mem_iff_getElem?.1 hr
      rw [Registry.noteWriters, Registry.getElem?_mapRecords] at hn
      obtain ⟨q, hq, rfl⟩ := Option.map_eq_some_iff.1 hn
      exact ⟨q, List.mem_of_getElem? hq, _, rfl⟩
  refine ⟨fun k r hr => ?_, fun k r hr => ?_⟩
  · obtain ⟨q, hq, writers, rfl⟩ := hfrom k r hr
    have hready := h.ready k q hq
    exact ⟨hready.valid, hready.bounds, hready.backed⟩
  · obtain ⟨q, hq, writers, rfl⟩ := hfrom k r hr
    exact h.whole k q hq

theorem Registry.initially_of_rewind (h : g.rewind = g'.rewind) : g.initially = g'.initially := by
  funext k n i
  exact bind_of_rewind h n fun _ => rfl

/-! ## Passes with the same usages -/

theorem World.grant_congr {L : Layout} {passes passes' : List Pass}
    (h : ∀ i : Nat, (passes[i]?).map Pass.usages = (passes'[i]?).map Pass.usages) :
    World.grant L passes = World.grant L passes' := by
  funext w i
  have hi := h i
  unfold World.grant
  cases hp : passes[i]? with
  | none =>
    rw [hp] at hi
    rw [Option.map_eq_none_iff.1 hi.symm]
  | some p =>
    rw [hp] at hi
    obtain ⟨p', hp', hu⟩ := Option.map_eq_some_iff.1 hi.symm
    rw [hp']
    funext k n i
    simp only [Pass.grant, Pass.asks, Pass.usesOf, hu]

theorem Granted.congr {L : Layout} {passes passes' : List Pass} {w : World} {batches : Batches}
    (h : ∀ i : Nat, (passes[i]?).map Pass.usages = (passes'[i]?).map Pass.usages) (hg : Granted L passes w batches) :
    Granted L passes' w batches := by
  induction batches generalizing w with
  | nil => trivial
  | cons x rest ih =>
    obtain ⟨h1, h2⟩ := hg
    rw [World.grant_congr h] at h1 h2
    exact ⟨h1, ih h2⟩

/-! ## Batches by pass -/

theorem Batches.ofPass_of_mem {batches : Batches} (hn : (batches.map Prod.fst).Nodup) {x : Nat × Batch}
    (hx : x ∈ batches) : batches.ofPass x.1 = x.2 := by
  rw [ofPass]
  induction batches with
  | nil => cases hx
  | cons y rest ih =>
    obtain ⟨hy, hn⟩ := List.nodup_cons.1 hn
    rcases List.mem_cons.1 hx with rfl | hx
    · rw [List.lookup_cons, beq_self_eq_true]
      rfl
    · have hne : (x.1 == y.1) = false := beq_eq_false_iff_ne.2 fun e => hy (e ▸ List.mem_map_of_mem hx)
      rw [List.lookup_cons, hne]
      exact ih hn hx

/-- a pass without a batch has no barriers -/
theorem Batches.ofPass_of_not_mem {batches : Batches} {i : Nat} (h : i ∉ batches.map Prod.fst) :
    batches.ofPass i = .empty := by
  have hlookup : batches.lookup i = none := by
    rw [List.lookup_eq_none_iff]
    intro x hx
    exact bne_iff_ne.2 fun e => h (e ▸ List.mem_map_of_mem hx)
  rw [ofPass, hlookup, Option.getD_none]

theorem Batches.map_ofPass {batches : Batches} {indices : List Nat} (h : batches.map Prod.fst = indices)
    (hn : indices.Nodup) : (indices.map fun i => (i, batches.ofPass i)) = batches := by
  subst h
  rw [List.map_map]
  refine (List.map_congr_left fun x hx => ?_).trans (List.map_id batches)
  rw [Function.comp, ofPass_of_mem hn hx]
  rfl

/-! ## The stages -/

/-- the kept passes are in registration order -/
theorem exists_filter_of_keptPasses {cull : Bool} {passes : List Pass} {needed : List Nat}
    (h : keptPasses cull g passes = .ok needed) : ∃ q, needed = (List.range passes.length).filter q := by
  unfold keptPasses at h
  split at h
  · split at h
    · cases h
      exact ⟨_, rfl⟩
    · cases h
  · cases h
    exact ⟨fun _ => true, (List.filter_true _).symm⟩

theorem ascending_of_keptPasses {cull : Bool} {passes : List Pass} {needed : List Nat}
    (h : keptPasses cull g passes = .ok needed) : needed.Pairwise (· < ·) ∧ ∀ i ∈ needed, i < passes.length := by
  obtain ⟨q, rfl⟩ := exists_filter_of_keptPasses h
  refine ⟨List.pairwise_lt_range.filter _, fun i hi => ?_⟩
  exact List.mem_range.1 (List.mem_filter.1 hi).1

/-- what is left of the barriers after merging, and how many were merged away: nothing changes if the settings say so -/
def afterMerging (settings : Settings) (g : Registry) (raw : Batches) : Except Fault (Batches × Nat) :=
  if settings.merge then mergeAll g raw else .ok (raw, 0)

/-- what is left of the merged barriers after elimination, and how many were dropped: none if the settings say so -/
def afterElimination (settings : Settings) (passes : List Pass) (g : Registry) (order : List Nat)
    (merged : Batches) : Except Fault (Batches × Nat) :=
  if settings.eliminate then
    eliminate settings.onStale (fun i => (passes[i]?.map Pass.name).getD "") g ⟨[], []⟩
      (order.map fun i => (i, merged.ofPass i))
  else .ok (merged, 0)

/-- what the results of the stages are put together to -/
def Compiled.assemble (passes : List Pass) (needed : List Nat) (registry : Registry) (raw final : Batches)
    (removed dropped : Nat) : Compiled where
  registry := registry
  passes := passes.mapIdx fun i p =>
    { p with plan := { p.plan with culled := !needed.contains i, barriers := final.ofPass i } }
  order := needed
  stats := {
    totalPasses := passes.length
    culledPasses := passes.length - needed.length
    rawTextureBarriers := raw.textureCount
    rawBufferBarriers := raw.bufferCount
    textureBarriers := final.textureCount
    bufferBarriers := final.bufferCount
    mergedAway := removed
    redundantDropped := dropped
    usedFallbackOrder := false }

/-- **Compiling is its stages, one after the other,** once the kept passes are found. The order is always the declared
one. -/
theorem compilePasses_of_kept {settings : Settings} {declared : List Pass} {needed : List Nat}
    (hk : keptPasses settings.cull (g.noteWriters (declared.map Pass.withSets)) (declared.map Pass.withSets) =
      .ok needed) :
    compilePasses settings g declared = (do
      let s ← synthesize (declared.map Pass.withSets) (g.noteWriters (declared.map Pass.withSets)) needed
      let m ← afterMerging settings s.1 s.2
      let e ← afterElimination settings (declared.map Pass.withSets) s.1 needed m.1
      return .assemble (declared.map Pass.withSets) needed s.1 s.2 e.1 m.2 e.2) := by
  obtain ⟨hasc, hlt⟩ := ascending_of_keptPasses hk
  unfold afterMerging afterElimination
  simp only [compilePasses, bind, Except.bind, pure, Except.pure, hk, resolveOrder_ascending hasc hlt]
  cases settings.merge <;> cases settings.eliminate <;> rfl

/-- once barriers are merged, only elimination can go wrong -/
theorem compilePasses_of_stages {settings : Settings} {declared : List Pass} {needed : List Nat} {registry : Registry}
    {raw merged : Batches} {removed : Nat}
    (hk : keptPasses settings.cull (g.noteWriters (declared.map Pass.withSets)) (declared.map Pass.withSets) = .ok needed)
    (hs : synthesize (declared.map Pass.withSets) (g.noteWriters (declared.map Pass.withSets)) needed =
      .ok (registry, raw))
    (hm : afterMerging settings registry raw = .ok (merged, removed)) :
    compilePasses settings g declared =
      (afterElimination settings (declared.map Pass.withSets) registry needed merged).map fun x =>
        .assemble (declared.map Pass.withSets) needed registry raw x.1 removed x.2 := by
  rw [compilePasses_of_kept hk, hs]
  simp only [bind, Except.bind, hm]
  cases afterElimination settings (declared.map Pass.withSets) registry needed merged <;> rfl

/-- **Compiling succeeds if and only if each stage does,** and the plan is put together from their results. The order is
always the declared one. -/
theorem compilePasses_eq_ok_iff {settings : Settings} {declared : List Pass} {plan : Compiled} :
    compilePasses settings g declared = .ok plan ↔
      ∃ (needed : List Nat) (registry : Registry) (raw merged final : Batches) (removed dropped : Nat),
        let passes := declared.map Pass.withSets
        keptPasses settings.cull (g.noteWriters passes) passes = .ok needed ∧
          synthesize passes (g.noteWriters passes) needed = .ok (registry, raw) ∧
          afterMerging settings registry raw = .ok (merged, removed) ∧
          afterElimination settings passes registry needed merged = .ok (final, dropped) ∧
          plan = .assemble passes needed registry raw final removed dropped := by
  constructor
  · intro h
    obtain ⟨needed, hk, -⟩ := bind_eq_ok.1 h
    rw [compilePasses_of_kept hk] at h
    obtain ⟨⟨registry, raw⟩, hs, h⟩ := bind_eq_ok.1 h
    obtain ⟨⟨merged, removed⟩, hm, h⟩ := bind_eq_ok.1 h
    obtain ⟨⟨final, dropped⟩, hf, h⟩ := bind_eq_ok.1 h
    cases h
    exact ⟨needed, registry, raw, merged, final, removed, dropped, hk, hs, hm, hf, rfl⟩
  · rintro ⟨needed, registry, raw, merged, final, removed, dropped, hk, hs, hm, hf, rfl⟩
    rw [compilePasses_of_stages hk hs hm, hf]
    rfl

/-- what is left of a batch after merging is on the same resources -/
theorem of_mem_mergeAll {batches merged : Batches} {Q : Nat → (k : ResourceKind) → Barrier k → Prop}
    (h : List.Forall₂ (fun x y => x.1 = y.1 ∧ Batch.From x.2 y.2) batches merged)
    (hQ : ∀ i k b p, Q i k b → Q i k { b with part := p }) (hb : ∀ x ∈ batches, ∀ k, ∀ b ∈ x.2.get k, Q x.1 k b) :
    merged.map Prod.fst = batches.map Prod.fst ∧ ∀ x ∈ merged, ∀ k, ∀ b ∈ x.2.get k, Q x.1 k b := by
  induction h with
  | nil => exact ⟨rfl, fun _ hx => absurd hx List.not_mem_nil⟩
  | cons hxy _ ih =>
    obtain ⟨hx, hrest⟩ := List.forall_mem_cons.1 hb
    obtain ⟨h1, h2⟩ := ih hrest
    obtain ⟨e, hfrom⟩ := hxy
    refine ⟨by rw [List.map_cons, List.map_cons, e, h1], List.forall_mem_cons.2 ⟨fun k b hm => ?_, h2⟩⟩
    obtain ⟨c, hc, p, rfl⟩ := hfrom k b hm
    rw [← e]
    exact hQ _ k c p (hx k c hc)

/-- merged or not, there is a batch for each pass that had one -/
theorem indices_of_afterMerging {settings : Settings} {raw merged : Batches} {removed : Nat}
    (hm : afterMerging settings g raw = .ok (merged, removed)) : merged.map Prod.fst = raw.map Prod.fst := by
  unfold afterMerging at hm
  split at hm
  · let Q : Nat → (k : ResourceKind) → Barrier k → Prop := fun _ _ _ => True
    exact (@of_mem_mergeAll raw merged Q (mergeAll_from hm) (fun _ _ _ _ _ => trivial) fun _ _ _ _ _ => trivial).1
  · cases hm
    rfl

/-! ## What each stage keeps -/

/-- the barriers synthesized are on the native objects of their records -/
theorem named_of_synthesize {passes : List Pass} {indices : List Nat} {batches : Batches} (h : g.Ready)
    (hs : synthesize passes g indices = .ok (g', batches)) : ∀ x ∈ batches, ∀ k, ∀ b ∈ x.2.get k, b.Named g' := by
  intro x hx k b hb
  obtain ⟨p, -, hp⟩ := of_mem_synthesize h hs x hx
  rw [Barrier.Named, Registry.native_of_rewind (synthesize_ready h hs).2.1]
  exact (hp k b hb).2

/-- a batch for each of some passes: together they are the exact difference between the states before each pass and what
it is granted, and each is on resources its pass uses, by their native objects -/
structure Batches.Exact (batches : Batches) (g : Registry) (passes : List Pass) (indices : List Nat) : Prop where
  indices : batches.map Prod.fst = indices
  granted : Granted g.layout passes g.initially batches
  used : ∀ x ∈ batches, ∀ k, ∀ b ∈ x.2.get k, ∃ p, passes[x.1]? = some p ∧ p.usesOf k b.resource ≠ []
  named : ∀ x ∈ batches, ∀ k, ∀ b ∈ x.2.get k, b.Named g

namespace Batches.Exact

variable {passes passes' : List Pass} {indices : List Nat} {batches merged : Batches}

/-- only the usages of the passes matter -/
theorem congr (he : batches.Exact g passes indices)
    (h : ∀ i : Nat, (passes[i]?).map Pass.usages = (passes'[i]?).map Pass.usages) : batches.Exact g passes' indices where
  indices := he.indices
  granted := he.granted.congr h
  used := fun x hx k b hb => by
    obtain ⟨p, hp, hne⟩ := he.used x hx k b hb
    have hi := h x.1
    rw [hp] at hi
    obtain ⟨p', hp', hu⟩ := Option.map_eq_some_iff.1 hi.symm
    exact ⟨p', hp', by rwa [Pass.usesOf, hu]⟩
  named := he.named

/-- synthesis makes such batches from records that are opened -/
theorem synthesize (h : g.Opened) (hc : ∀ p ∈ passes, p.Countable g'.layout)
    (hs : synthesize passes g indices = .ok (g', batches)) :
    batches.Exact g' passes indices ∧ g'.Ready ∧ g'.world = g'.initially.grantAll g'.layout passes indices := by
  obtain ⟨hready, hrew, hindices⟩ := synthesize_ready h.ready hs
  have hlayout := Registry.layout_of_rewind hrew
  obtain ⟨hgranted, hworld⟩ := synthesize_granted h.ready (hlayout ▸ hc) hs
  rw [h.world, ← Registry.initially_of_rewind hrew, ← hlayout] at hgranted hworld
  refine ⟨⟨hindices, hgranted, fun x hx k b hb => ?_, named_of_synthesize h.ready hs⟩, hready, hworld⟩
  obtain ⟨p, hp, hpb⟩ := of_mem_synthesize h.ready hs x hx
  exact ⟨p, hp, (hpb k b hb).1⟩

/-- merging keeps them so -/
theorem mergeAll {removed : Nat} (he : batches.Exact g passes indices)
    (hm : mergeAll g batches = .ok (merged, removed)) : merged.Exact g passes indices := by
  obtain ⟨hgranted, -⟩ := he.granted.mergeAll hm
  let Q : Nat → (k : ResourceKind) → Barrier k → Prop := fun i k b =>
    (∃ p, passes[i]? = some p ∧ p.usesOf k b.resource ≠ []) ∧ b.Named g
  obtain ⟨hindices, hQ⟩ := @of_mem_mergeAll batches merged Q (mergeAll_from hm) (fun i k b p hb => hb) fun x hx k b hb =>
    ⟨he.used x hx k b hb, he.named x hx k b hb⟩
  exact ⟨hindices.trans he.indices, hgranted, fun x hx k b hb => (hQ x hx k b hb).1, fun x hx k b hb => (hQ x hx k b hb).2⟩

/-- and none of them is redundant -/
theorem eliminate {policy : StalePolicy} {name : Nat → String} (he : batches.Exact g passes indices) (hd : g.Distinct)
    (hn : indices.Nodup) :
    eliminate policy name g ⟨[], []⟩ (indices.map fun i => (i, batches.ofPass i)) = .ok (batches, 0) := by
  rw [Batches.map_ofPass he.indices hn]
  refine eliminate_granted hd (fun k => ?_) he.granted he.named
  cases k <;> exact Natives.reflects_nil

end Batches.Exact

/-- the barriers that are left after merging are the exact difference, and the trackers hold the states after the last
pass -/
theorem merged_exact {settings : Settings} {declared : List Pass} {needed : List Nat} {raw merged : Batches}
    {removed : Nat} (h : g.Opened)
    (hs : synthesize (declared.map Pass.withSets) (g.noteWriters (declared.map Pass.withSets)) needed = .ok (g', raw))
    (hm : afterMerging settings g' raw = .ok (merged, removed)) (hc : ∀ p ∈ declared, p.Countable g'.layout) :
    merged.Exact g' declared needed ∧ g'.Ready ∧ g'.world = g'.initially.grantAll g'.layout declared needed := by
  let passes := declared.map Pass.withSets
  have husages : ∀ i : Nat, (passes[i]?).map Pass.usages = (declared[i]?).map Pass.usages := by
    intro i
    rw [List.getElem?_map, Option.map_map]
    rfl
  have hcount : ∀ p ∈ passes, p.Countable g'.layout := by
    intro p hm
    obtain ⟨d, hd, rfl⟩ := List.mem_map.1 hm
    exact hc d hd
  obtain ⟨hraw, hready, hworld⟩ := Batches.Exact.synthesize (h.noteWriters passes) hcount hs
  have hmerged : merged.Exact g' passes needed := by
    unfold afterMerging at hm
    split at hm
    · exact hraw.mergeAll hm
    · cases hm
      exact hraw
  refine ⟨hmerged.congr husages, hready, ?_⟩
  rw [hworld, World.grantAll, World.grant_congr husages]
  rfl

/-- elimination leaves barriers that are the exact difference as they are, whatever the settings say of it -/
theorem afterElimination_of_exact {passes declared : List Pass} {needed : List Nat} {merged : Batches}
    (he : merged.Exact g declared needed) (hd : g.Distinct) (hn : needed.Nodup) (settings : Settings) :
    afterElimination settings passes g needed merged = .ok (merged, 0) := by
  unfold afterElimination
  split
  · exact he.eliminate hd hn
  · rfl

/-- **The stages together: what is left of the barriers still is the exact difference.** -/
theorem compilePasses_exact {settings : Settings} {declared : List Pass} {plan : Compiled} (h : g.Opened)
    (hp : compilePasses settings g declared = .ok plan) (hd : plan.registry.Distinct)
    (hc : ∀ p ∈ declared, p.Countable plan.registry.layout) :
    ∃ (q : Nat → Bool) (final : Batches),
      plan.order = (List.range declared.length).filter q ∧
        plan.passes = (declared.map Pass.withSets).mapIdx (fun i p =>
          { p with plan := { p.plan with culled := !plan.order.contains i, barriers := final.ofPass i } }) ∧
        plan.registry.Ready ∧ final.Exact plan.registry declared plan.order ∧
        plan.registry.world = plan.registry.initially.grantAll plan.registry.layout declared plan.order := by
  obtain ⟨needed, after, raw, merged, final, removed, dropped, hk, hs, hm, hf, rfl⟩ := compilePasses_eq_ok_iff.1 hp
  obtain ⟨q, hq⟩ := exists_filter_of_keptPasses hk
  rw [List.length_map] at hq
  obtain ⟨hmerged, hready, hworld⟩ := merged_exact h hs hm hc
  rw [afterElimination_of_exact hmerged hd (hq ▸ List.nodup_range.filter _)] at hf
  cases hf
  exact ⟨q, merged, hq, rfl, hready, hmerged, hworld⟩

/-! ## Planned graphs -/

/-- the barriers of a plan are the exact difference between the states before each pass and what the pass is granted, and
the trackers hold the states after the last one -/
structure Graph.Planned (g : Graph) : Prop where
  ready : g.registry.Ready
  walked : g.walk.map Prod.fst = (List.range g.passes.length).filter fun i => g.passes[i]?.any fun p => !p.plan.culled
  granted : Granted g.registry.layout g.passes g.registry.initially (g.walk.map fun x => (x.1, x.2.plan.barriers))
  tracked : g.registry.world = g.registry.initially.grantAll g.registry.layout g.passes (g.walk.map Prod.fst)
  used : ∀ x ∈ g.walk, ∀ k, ∀ b ∈ x.2.plan.barriers.get k, x.2.usesOf k b.resource ≠ []

theorem Graph.of_mem_walk {g : Graph} {x : Nat × Pass} (hx : x ∈ g.walk) :
    g.passes[x.1]? = some x.2 ∧ x.2.plan.culled = false := by
  obtain ⟨hx, hc⟩ := List.mem_filter.1 hx
  obtain ⟨i, -, hi⟩ := List.mem_filterMap.1 hx
  obtain ⟨p, hp, rfl⟩ := Option.map_eq_some_iff.1 hi
  exact ⟨hp, by simpa using hc⟩

/-- a compiled graph walks its order if no pass of it is culled -/
theorem Graph.walk_of_compiled {g : Graph} (hc : g.compiled = true)
    (h : ∀ i ∈ g.order, ∃ p, g.passes[i]? = some p ∧ p.plan.culled = false) : g.walk.map Prod.fst = g.order := by
  rw [walk, if_pos hc]
  generalize g.order = order at h
  induction order with
  | nil => rfl
  | cons i rest ih =>
    obtain ⟨⟨p, hp, hcull⟩, hrest⟩ := List.forall_mem_cons.1 h
    rw [List.filterMap_cons, hp, Option.map_some, List.filter_cons_of_pos (by simpa using hcull), List.map_cons, ih hrest]

/-- a compiled graph walks the passes of its order, each with its batch -/
theorem Graph.walk_of_plan {g : Graph} {passes : List Pass} {order : List Nat} {batches : Batches}
    (hc : g.compiled = true) (ho : g.order = order)
    (hp : g.passes = passes.mapIdx fun i p =>
      { p with plan := { p.plan with culled := !order.contains i, barriers := batches.ofPass i } })
    (hlt : ∀ i ∈ order, i < passes.length) (hb : batches.map Prod.fst = order) (hn : order.Nodup) :
    g.walk.map Prod.fst = order ∧ g.walk.map (fun x => (x.1, x.2.plan.barriers)) = batches := by
  have hget : ∀ i : Nat, g.passes[i]? = (passes[i]?).map fun p =>
      { p with plan := { p.plan with culled := !order.contains i, barriers := batches.ofPass i } } := by
    intro i
    rw [hp, List.getElem?_mapIdx]
  have hwalk : g.walk.map Prod.fst = order := by
    refine ho ▸ Graph.walk_of_compiled hc fun i hi => ?_
    rw [ho] at hi
    refine ⟨_, (hget i).trans (by rw [List.getElem?_eq_getElem (hlt i hi)]; rfl), ?_⟩
    simpa using hi
  refine ⟨hwalk, ?_⟩
  rw [← Batches.map_ofPass hb hn, ← hwalk, List.map_map]
  refine List.map_congr_left fun x hx => ?_
  obtain ⟨p, -, e⟩ := Option.map_eq_some_iff.1 ((hget x.1).symm.trans (Graph.of_mem_walk hx).1)
  rw [Function.comp, ← e]

theorem planned_of_compilePasses {graph graph' : Graph} {plan : Compiled} (h : g.Opened)
    (hp : compilePasses graph.settings g graph.passes = .ok plan) (hd : plan.registry.Distinct)
    (hc : ∀ p ∈ graph.passes, p.Countable plan.registry.layout) (hg : graph' = { graph with
      registry := plan.registry, passes := plan.passes, order := plan.order, stats := plan.stats, compiled := true }) :
    graph'.Planned := by
  obtain ⟨q, final, horder, hpasses, hready, hexact, hworld⟩ := compilePasses_exact h hp hd hc
  have hget : ∀ i : Nat, plan.passes[i]? = (graph.passes[i]?).map fun p =>
      { p.withSets with
        plan := { p.withSets.plan with culled := !plan.order.contains i, barriers := final.ofPass i } } := by
    intro i
    rw [hpasses, List.getElem?_mapIdx, List.getElem?_map, Option.map_map]
    rfl
  have husages : ∀ i : Nat, (graph.passes[i]?).map Pass.usages = (plan.passes[i]?).map Pass.usages := by
    intro i
    rw [hget, Option.map_map]
    rfl
  have hexact := hexact.congr husages
  have hlen : plan.passes.length = graph.passes.length := by rw [hpasses, List.length_mapIdx, List.length_map]
  have hmem : ∀ i ∈ plan.order, i < graph.passes.length := by
    intro i hi
    rw [horder] at hi
    exact List.mem_range.1 (List.mem_filter.1 hi).1
  have hnodup : plan.order.Nodup := horder ▸ List.nodup_range.filter _
  have hreg : graph'.registry = plan.registry := by rw [hg]
  have hps : graph'.passes = plan.passes := by rw [hg]
  obtain ⟨hwalk, hbatches⟩ : graph'.walk.map Prod.fst = plan.order ∧
      graph'.walk.map (fun x => (x.1, x.2.plan.barriers)) = final := by
    refine Graph.walk_of_plan (by rw [hg]) (by rw [hg]) (hps.trans hpasses) (fun i hi => ?_) hexact.indices hnodup
    rw [List.length_map]
    exact hmem i hi
  have hpass : ∀ x ∈ graph'.walk, plan.passes[x.1]? = some x.2 := fun x hx => hps ▸ (Graph.of_mem_walk hx).1
  refine ⟨hreg ▸ hready, ?_, ?_, ?_, fun x hx k b hb => ?_⟩
  · rw [hwalk, hps, hlen, horder]
    refine List.filter_congr fun i hi => ?_
    rw [hget, List.getElem?_eq_getElem (List.mem_range.1 hi), horder]
    simp [List.mem_range.1 hi]
  · rw [hbatches, hreg, hps]
    exact hexact.granted
  · rw [hwalk, hreg, hps, hworld, World.grantAll, World.grant_congr husages]
    rfl
  · obtain ⟨p, hp, hne⟩ := hexact.used _ (hbatches ▸ List.mem_map_of_mem hx) k b hb
    obtain rfl : x.2 = p := Option.some.inj ((hpass x hx).symm.trans hp)
    exact hne

end FrameGraph
