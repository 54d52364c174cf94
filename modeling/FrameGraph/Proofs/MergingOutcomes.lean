/-
What merging changes of a compiled graph.

Two graphs that differ in whether barriers are merged are compiled on the same device. Up to elimination they go the same
way: merging takes nothing away from what each pass moves and only joins barriers (`Graph.Stages`). Elimination then judges
each barrier as a unit, and a joined one can be stale where the barriers it is joined from are not.

- `compile_merging`: the plans differ in their barriers only. If stale barriers are no faults, or if no address of an object
  is used through two records, both compiles end in the same way. If only no single pass uses an address through two
  records, the graph with merging is the one that may fault. Where no merged barrier is stale, an object is in the same
  states after each pass.
- `merged_stale`: a graph that compiles without merging, and faults with it.
-/
import FrameGraph.Proofs.OneRecord

namespace FrameGraph

open ResourceKind

variable {k : ResourceKind} {σ : Type}

/-! ## Elimination -/

section Elimination

variable {settings : Settings} {passes named : List Pass} {g : Registry} {needed : List Nat} {batches final : Batches}
  {dropped : Nat}

/-- elimination goes through, or faults because a barrier is stale -/
theorem afterElimination_outcome (he : batches.Exact g passes needed) (hn : needed.Nodup) :
    (∃ x, afterElimination settings named g needed batches = .ok x) ∨
      ((settings.eliminate = true ∧ settings.onStale = .fault) ∧
        (∃ pass text, afterElimination settings named g needed batches = .error (.staleBarrier pass text)) ∧
        (g.Agree → ¬ ∀ k, Timely g.nativeLayout (g.nativesInitially k) ((batches.ofKind k).map fun x => x.2.onNative))) := by
  unfold afterElimination
  split
  · rename_i helim
    rw [Batches.map_ofPass he.indices hn]
    have htracks : ∀ k, ((⟨[], []⟩ : Both Natives).get k).Tracks g := by
      intro k
      cases k <;> exact Natives.tracks_nil g
    rcases eliminate_outcome htracks he.named with ⟨final, dropped, h⟩ | ⟨hfault, hstale, htimely⟩
    · exact Or.inl ⟨_, h⟩
    · exact Or.inr ⟨⟨helim, hfault⟩, hstale, fun ha => htimely g.nativesInitially (Natives.holds_empty ha)⟩
  · exact Or.inl ⟨_, rfl⟩

/-- if stale barriers are faults and elimination goes through, none is stale -/
theorem timely_of_afterElimination (he : batches.Exact g passes needed) (hn : needed.Nodup) (ha : g.Agree)
    (helim : settings.eliminate = true) (hfault : settings.onStale = .fault)
    (h : afterElimination settings named g needed batches = .ok (final, dropped)) (k : ResourceKind) :
    Timely g.nativeLayout (g.nativesInitially k) ((batches.ofKind k).map fun x => x.2.onNative) := by
  rcases Graph.afterElimination_sieved ha he.indices hn he.named h with ⟨hno, -⟩ | hsieved
  · rw [helim] at hno
    cases hno
  · obtain ⟨stale, hk, hstale⟩ := hsieved k
    rw [hstale hfault] at hk
    exact hk.timely

/-- where no barrier is stale, the ones left lead an object through the states that all of them do -/
theorem statesAfter_left {native : Nat} (he : batches.Exact g passes needed) (hn : needed.Nodup) (ha : g.Agree)
    (ht : settings.eliminate = false ∨ Timely g.nativeLayout (g.nativesInitially k) (batches.onlyOn k native))
    (h : afterElimination settings named g needed batches = .ok (final, dropped)) (j : Nat) :
    statesAfter g.nativeLayout (g.nativesInitially k) (Batches.ofKind k (final.take j)) native =
      (Batches.onlyOn k native (batches.take j)).foldl (Barrier.apply g.nativeLayout) (g.nativesInitially k) native := by
  rw [← Batches.statesAfter_eq]
  rcases Graph.afterElimination_inv he.indices hn h with ⟨-, rfl⟩ | ⟨name, helim⟩
  · rfl
  · rcases ht with hno | ht
    · rw [afterElimination, hno] at h
      cases h
      rfl
    · obtain ⟨dropped', htake⟩ := eliminate_take helim j
      obtain ⟨stale, hsieved, -⟩ :=
        eliminate_sieved (Natives.holds_empty ha) (fun x hx => he.named x (List.mem_of_mem_take hx)) htake k
      refine hsieved.statesAfter_eq ?_ rfl
      rw [Batches.onObject_ofKind]
      rw [← List.take_append_drop j batches, Batches.onlyOn, List.flatMap_append, timely_append] at ht
      exact ht.1

end Elimination

/-! ## With and without merging -/

/-- the records with the same objects, sizes and initial states agree as well -/
theorem Registry.Agree.congr {g g' : Registry} (h : g.Agree)
    (hsame : ∀ k, (g'.get k).map (fun r => (r.native, r.bounds, r.initial)) =
      (g.get k).map fun r => (r.native, r.bounds, r.initial)) : g'.Agree := by
  have hfrom : ∀ k, ∀ r ∈ g'.get k, ∃ q ∈ g.get k, q.native = r.native ∧ q.bounds = r.bounds ∧ q.initial = r.initial := by
    intro k r hr
    have hm := List.mem_map_of_mem (f := fun r : Resource k => (r.native, r.bounds, r.initial)) hr
    rw [hsame] at hm
    obtain ⟨q, hq, e⟩ := List.mem_map.1 hm
    simp only [Prod.mk.injEq] at e
    exact ⟨q, hq, e⟩
  intro k r hr q hq hsome hnative
  obtain ⟨r', hr', e1, e2, e3⟩ := hfrom k r hr
  obtain ⟨q', hq', e1', e2', e3'⟩ := hfrom k q hq
  rw [← e2, ← e3, ← e2', ← e3']
  exact h k r' hr' q' hq' (e1 ▸ hsome) (e1.trans (hnative.trans e1'.symm))

/-- the pass without its barriers -/
def Pass.unbarred (p : Pass) : Pass := { p with plan := { p.plan with barriers := .empty } }

namespace Graph

variable {g : Graph} {dev : Device σ} {s s' : σ} {records : Registry}

/-- the graph with or without merging -/
def merging (g : Graph) (merge : Bool) : Graph := { g with settings := { g.settings with merge } }

/-- the graph for which a stale barrier is a fault -/
def strict (g : Graph) : Graph := { g with settings := { g.settings with onStale := .fault } }

/-- how a compile ends, apart from its plan: in a fault, an error of the device or success, with the device after it -/
def ending (r : Except Fault (Graph × Except AllocationError Stats × σ)) :
    Except Fault (Except AllocationError Unit × σ) := r.map fun x => (x.2.1.map fun _ => (), x.2.2)

/-- the native objects after the barriers of the first passes -/
def nativesThrough (g : Graph) (j : Nat) (k : ResourceKind) : States :=
  statesAfter g.registry.nativeLayout (g.registry.nativesInitially k)
    (Batches.ofKind k ((g.walk.take j).map fun x => (x.1, x.2.plan.barriers)))

/-- the graph with a plan -/
def withPlan (g : Graph) (plan : Compiled) : Graph :=
  { g with registry := plan.registry, passes := plan.passes, order := plan.order, stats := plan.stats, compiled := true }

/-- what compiling makes of a graph before it looks for barriers to drop, with and without merging -/
structure Stages (g : Graph) (records : Registry) where
  needed : List Nat
  after : Registry
  raw : Batches
  merged : Batches
  removed : Nat
  kept : keptPasses g.settings.cull (records.noteWriters (g.passes.map Pass.withSets)) (g.passes.map Pass.withSets) =
    .ok needed
  synthesized : synthesize (g.passes.map Pass.withSets) (records.noteWriters (g.passes.map Pass.withSets)) needed =
    .ok (after, raw)
  merges : mergeAll after raw = .ok (merged, removed)
  raws : raw.Exact after g.passes needed
  mergeds : merged.Exact after g.passes needed
  within : List.Forall₂ (fun x y => x.1 = y.1 ∧ Batch.Within after.layout x.2 y.2) raw merged

namespace Stages

variable (st : g.Stages records) {merge : Bool} {x : Batches × Nat} {native : Nat}

/-- the batches that elimination gets -/
def batches (merge : Bool) : Batches := if merge then st.merged else st.raw

/-- what elimination makes of the batches -/
def eliminated (merge : Bool) : Except Fault (Batches × Nat) :=
  afterElimination g.settings (g.passes.map Pass.withSets) st.after st.needed (st.batches merge)

/-- the plan made from what elimination leaves -/
def plan (merge : Bool) (x : Batches × Nat) : Compiled :=
  .assemble (g.passes.map Pass.withSets) st.needed st.after st.raw x.1 (if merge then st.removed else 0) x.2

/-- no barrier on the native objects is stale -/
def Timely (k : ResourceKind) (merge : Bool) : Prop :=
  FrameGraph.Timely st.after.nativeLayout (st.after.nativesInitially k)
    (((st.batches merge).ofKind k).map fun x => x.2.onNative)

/-- no barrier on a native object is stale -/
def TimelyOn (k : ResourceKind) (native : Nat) (merge : Bool) : Prop :=
  FrameGraph.Timely st.after.nativeLayout (st.after.nativesInitially k) ((st.batches merge).onlyOn k native)

theorem timely_iff {k : ResourceKind} : st.Timely k merge ↔ ∀ native, st.TimelyOn k native merge := by
  simp only [Timely, TimelyOn, timely_onObject_iff, Batches.onObject_ofKind]

theorem nodup : st.needed.Nodup := (ascending_of_keptPasses st.kept).1.imp fun h => h.ne

/-- the records keep their objects, sizes and initial states -/
theorem map_after (k : ResourceKind) : (st.after.get k).map (fun r => (r.native, r.bounds, r.initial)) =
    (records.get k).map fun r => (r.native, r.bounds, r.initial) :=
  map_planned (fun _ _ _ => rfl) st.synthesized

theorem agree (ha : records.Agree) : st.after.Agree := ha.congr st.map_after

theorem layout_after : st.after.layout = records.layout :=
  Registry.layout_congr fun _ => map_planned (fun _ _ _ => rfl) st.synthesized

theorem native_after (k : ResourceKind) (n : Nat) :
    ((st.after.get k)[n]?).bind Resource.native = ((records.get k)[n]?).bind Resource.native := by
  have e := congrArg (fun l : List (Option Nat) => l[n]?.bind id)
    (map_planned (q := @Resource.native k) (fun _ _ _ => rfl) st.synthesized)
  simpa only [List.getElem?_map, Option.bind_map, Function.id_comp] using e

theorem oneRecord {passes : List Pass} (hone : records.OneRecord passes k native) :
    st.after.OneRecord passes k native := by
  intro m n i
  rw [st.native_after, st.native_after, st.layout_after]
  exact hone m n i

/-- merged or not, the batches are exact differences -/
theorem exact (merge : Bool) : (st.batches merge).Exact st.after g.passes st.needed := by
  cases merge
  · exact st.raws
  · exact st.mergeds

/-- **Compiling goes on in the same way** with and without merging: elimination gets the one batches or the others. -/
theorem compile_eq (hb : g.registry.back dev s = (records, none, s')) (merge : Bool) :
    (g.merging merge).compile dev s = (st.eliminated merge).map fun x =>
      ((g.merging merge).withPlan (st.plan merge x), .ok (st.plan merge x).stats, s') := by
  have hmerging : afterMerging (g.merging merge).settings st.after st.raw =
      .ok (st.batches merge, if merge then st.removed else 0) := by
    cases merge
    · rfl
    · exact st.merges
  have hplan : compilePasses (g.merging merge).settings records (g.merging merge).passes =
      (st.eliminated merge).map (st.plan merge) := compilePasses_of_stages st.kept st.synthesized hmerging
  rw [compile_of_back (g := g.merging merge) hb, hplan]
  cases st.eliminated merge <;> rfl

/-- a compile that succeeds has eliminated barriers from the one batches or the others -/
theorem of_compile (hb : g.registry.back dev s = (records, none, s'))
    {result : Graph × Except AllocationError Stats × σ} (hc : (g.merging merge).compile dev s = .ok result) :
    ∃ x, st.eliminated merge = .ok x ∧
      result = ((g.merging merge).withPlan (st.plan merge x), .ok (st.plan merge x).stats, s') := by
  rw [st.compile_eq hb] at hc
  cases hx : st.eliminated merge with
  | error fault =>
    rw [hx] at hc
    cases hc
  | ok x =>
    rw [hx] at hc
    cases hc
    exact ⟨x, rfl, rfl⟩

/-- compiling succeeds, or faults because a barrier is stale -/
theorem outcome (hb : g.registry.back dev s = (records, none, s')) (merge : Bool) :
    ending ((g.merging merge).compile dev s) = .ok (.ok (), s') ∨
      ((g.settings.eliminate = true ∧ g.settings.onStale = .fault) ∧
        (∃ pass text, (g.merging merge).compile dev s = .error (.staleBarrier pass text)) ∧
        (st.after.Agree → ¬ ∀ k, st.Timely k merge)) := by
  rw [st.compile_eq hb, eliminated]
  rcases @afterElimination_outcome g.settings _ (g.passes.map Pass.withSets) _ _ _ (st.exact merge) st.nodup with
    ⟨x, hx⟩ | ⟨hfault, ⟨pass, text, hx⟩, htimely⟩
  · exact Or.inl (by rw [hx]; rfl)
  · exact Or.inr ⟨hfault, ⟨pass, text, by rw [hx]; rfl⟩, htimely⟩

/-- the plan walks the kept passes, each with the barriers left of it -/
theorem walk_plan (hx : st.eliminated merge = .ok x) :
    ((g.merging merge).withPlan (st.plan merge x)).walk.map (fun y => (y.1, y.2.plan.barriers)) = x.1 := by
  rw [eliminated] at hx
  have hfst : x.1.map Prod.fst = st.needed := afterElimination_indices (st.exact merge).indices st.nodup hx
  exact (walk_of_plan rfl rfl rfl (ascending_of_keptPasses st.kept).2 hfst st.nodup).2

/-- the states of a native object after the barriers of the first passes, if all of them are issued -/
def statesOn (k : ResourceKind) (native : Nat) (merge : Bool) (j : Nat) : Nat → Option ResourceState :=
  (Batches.onlyOn k native ((st.batches merge).take j)).foldl (Barrier.apply st.after.nativeLayout)
    (st.after.nativesInitially k) native

/-- the plan leads an object that no barrier is stale on through the states that all barriers do -/
theorem nativesThrough_plan (ha : st.after.Agree) (hx : st.eliminated merge = .ok x)
    (ht : g.settings.eliminate = false ∨ st.TimelyOn k native merge) (j : Nat) :
    ((g.merging merge).withPlan (st.plan merge x)).nativesThrough j k native = st.statesOn k native merge j := by
  rw [statesOn, ← statesAfter_left (st.exact merge) st.nodup ha ht hx j, ← st.walk_plan hx, nativesThrough, List.map_take]
  rfl

/-- where no merged barrier on an object is stale, no other one is, and they lead it through the same states -/
theorem merged_states (ha : st.after.Agree) (hone : ∀ p ∈ g.passes, st.after.OneRecord [p] k native) :
    (st.TimelyOn k native true → st.TimelyOn k native false) ∧
      ∀ j, st.statesOn k native false j = st.statesOn k native true j := by
  by_cases hn : ∃ n : Nat, ((st.after.get k)[n]?).bind Resource.native = some native
  · obtain ⟨n, hn⟩ := hn
    refine st.raws.granted.merged_states st.mergeds.granted st.within (fun i => ?_) rfl
    have hpass : st.after.OneRecord g.passes[i]?.toList k native := by
      cases hp : g.passes[i]? with
      | none => exact fun _ _ _ ⟨_, hnil, _⟩ => absurd hnil List.not_mem_nil
      | some p => exact hone p (List.mem_of_getElem? hp)
    obtain ⟨recordAt, -, hthrough⟩ := ha.exists_through hpass hn
    refine ⟨recordAt, ?_⟩
    rintro x (hx | hx) rfl
    · exact hthrough _ (st.raws.named x hx k) (st.raws.granted.asked hx k)
    · exact hthrough _ (st.mergeds.named x hx k) (st.mergeds.granted.asked hx k)
  · have hnil : ∀ merge, (st.batches merge).onlyOn k native = [] :=
      fun merge => (st.exact merge).onlyOn_eq_nil fun n hnn => hn ⟨n, hnn⟩
    have hstates : ∀ merge j, st.statesOn k native merge j = st.after.nativesInitially k native := by
      intro merge j
      have hall := hnil merge
      rw [← List.take_append_drop j (st.batches merge), Batches.onlyOn, List.flatMap_append] at hall
      rw [statesOn, Batches.onlyOn, (List.append_eq_nil_iff.1 hall).1, List.foldl_nil]
    refine ⟨fun _ => ?_, fun j => (hstates false j).trans (hstates true j).symm⟩
    rw [TimelyOn, hnil]
    trivial

/-- where no merged barrier is stale, no other one is -/
theorem timely_raw (ha : st.after.Agree) (hone : ∀ native, ∀ p ∈ g.passes, st.after.OneRecord [p] k native)
    (ht : st.Timely k true) : st.Timely k false := by
  rw [timely_iff] at ht ⊢
  exact fun native => (st.merged_states ha (hone native)).1 (ht native)

end Stages

/-- if the device creates all objects, compiling faults with and without merging, or gets as far as elimination -/
theorem stages_of_back (h : g.Built) (hn : g.Countable) (hfit : ∀ n, g.rawBarriers dev s = .ok n → n ≤ maxWord64)
    (hb : g.registry.back dev s = (records, none, s')) :
    (∃ fault, ∀ merge, (g.merging merge).compile dev s = .error fault) ∨
      Nonempty (g.Stages records) := by
  have hopened : records.Opened := Registry.opened_of_back h.coherent hb
  have hlayout : records.layout = g.registry.layout := by
    have hback : (g.registry.back dev s).1.layout = g.registry.layout :=
      Registry.layout_congr fun _ => Registry.map_back (fun _ _ _ _ => rfl) dev s g.registry
    rwa [hb] at hback
  have hcontains : ∀ p ∈ g.passes, ∀ u ∈ p.usages,
      (records.noteWriters (g.passes.map Pass.withSets)).contains u.key = true := by
    intro p hp u hu
    have hgrows := Registry.grows_back dev s g.registry
    rw [hb] at hgrows
    exact (records.grows_mapRecords _).contains (hgrows.contains (h.registered p hp u hu))
  obtain ⟨needed, hk⟩ := exists_keptPasses g.settings.cull hcontains
  cases hs : synthesize (g.passes.map Pass.withSets) (records.noteWriters (g.passes.map Pass.withSets)) needed with
  | error fault =>
    refine Or.inl ⟨fault, fun merge => ?_⟩
    have hfault : compilePasses (g.merging merge).settings records (g.merging merge).passes = .error fault :=
      compilePasses_error hk hs
    rw [compile_of_back (g := g.merging merge) hb, hfault]
    rfl
  | ok result =>
    obtain ⟨after, raw⟩ := result
    have hafter : after.layout = records.layout := Registry.layout_congr fun _ => map_planned (fun _ _ _ => rfl) hs
    have hcount : ∀ p ∈ g.passes, p.Countable after.layout := by
      rw [hafter, hlayout]
      exact hn
    have hraw : raw.count ≤ maxWord64 := by
      refine hfit raw.count ?_
      simp only [rawBarriers, hb, hk, hs, bind, Except.bind]
      rfl
    have hunmerged : afterMerging (g.merging false).settings after raw = .ok (raw, 0) := rfl
    obtain ⟨hraws, -, -⟩ := merged_exact hopened hs hunmerged hcount
    obtain ⟨merged, removed, hm, -⟩ := hraws.granted.mergeAll_ok hraw
    exact Or.inr
      ⟨⟨needed, after, raw, merged, removed, hk, hs, hm, hraws, hraws.mergeAll hm, (hraws.granted.mergeAll hm).2⟩⟩

/-- results that differ in the barriers of their passes only, and in what is counted of them -/
structure Alike (g g' : Graph) (stats stats' : Stats) : Prop where
  registry : g.registry = g'.registry
  order : g.order = g'.order
  passes : g.passes.map Pass.unbarred = g'.passes.map Pass.unbarred
  rawTextures : stats.rawTextureBarriers = stats'.rawTextureBarriers
  rawBuffers : stats.rawBufferBarriers = stats'.rawBufferBarriers

theorem Stages.alike (st : g.Stages records) (x y : Batches × Nat) :
    Alike ((g.merging true).withPlan (st.plan true x)) ((g.merging false).withPlan (st.plan false y))
      (st.plan true x).stats (st.plan false y).stats where
  registry := rfl
  order := rfl
  passes := by
    refine List.ext_getElem? fun i => ?_
    simp only [withPlan, Stages.plan, Compiled.assemble, List.getElem?_map, List.getElem?_mapIdx, Option.map_map]
    rfl
  rawTextures := rfl
  rawBuffers := rfl

/-- **The way to elimination.** With and without merging, compiling ends in the same way and makes no plan, or it gets as
far as elimination. -/
theorem exists_stages (h : g.Built) (hn : g.Countable) (hfit : ∀ n, g.rawBarriers dev s = .ok n → n ≤ maxWord64) :
    (∃ r, (∀ s', r ≠ .ok (.ok (), s')) ∧ ∀ merge, ending ((g.merging merge).compile dev s) = r) ∨
      ∃ s', g.registry.back dev s = ((g.registry.back dev s).1, none, s') ∧
        Nonempty (g.Stages (g.registry.back dev s).1) := by
  rcases hb : g.registry.back dev s with ⟨records, _ | e, s'⟩
  · rcases stages_of_back h hn hfit hb with ⟨fault, hfault⟩ | hst
    · refine Or.inl ⟨.error fault, fun _ => nofun, fun merge => ?_⟩
      rw [hfault]
      rfl
    · exact Or.inr ⟨s', rfl, hst⟩
  · refine Or.inl ⟨.ok (.error e, s'), fun _ => nofun, fun merge => ?_⟩
    have hback : (g.merging merge).registry.back dev s = (records, some e, s') := hb
    rw [compile, hback]
    rfl

section Results

variable (h : g.Built) (hn : g.Countable) (hfit : ∀ n, g.rawBarriers dev s = .ok n → n ≤ maxWord64)
include h hn hfit

/-- what is planned is the same but for the barriers -/
theorem alike_of_compile {g₁ g₂ : Graph} {stats₁ stats₂ : Stats} {s₁ s₂ : σ}
    (h₁ : (g.merging true).compile dev s = .ok (g₁, .ok stats₁, s₁))
    (h₂ : (g.merging false).compile dev s = .ok (g₂, .ok stats₂, s₂)) : s₁ = s₂ ∧ Alike g₁ g₂ stats₁ stats₂ := by
  rcases exists_stages h hn hfit with ⟨r, hr, hend⟩ | ⟨s', hb, ⟨st⟩⟩
  · rw [← hend true, h₁] at hr
    exact absurd rfl (hr s₁)
  · obtain ⟨x, -, e₁⟩ := st.of_compile hb h₁
    obtain ⟨y, -, e₂⟩ := st.of_compile hb h₂
    cases e₁
    cases e₂
    exact ⟨rfl, st.alike x y⟩

/-- compiling ends in the same way, or a stale barrier is a fault -/
theorem ending_merging : ending ((g.merging true).compile dev s) = ending ((g.merging false).compile dev s) ∨
    (g.settings.eliminate = true ∧ g.settings.onStale = .fault) ∧
      ∃ merge pass text, (g.merging merge).compile dev s = .error (.staleBarrier pass text) := by
  rcases exists_stages h hn hfit with ⟨r, -, hend⟩ | ⟨s', hb, ⟨st⟩⟩
  · exact Or.inl ((hend true).trans (hend false).symm)
  · rcases st.outcome hb true with htrue | ⟨hfault, hstale, -⟩
    · rcases st.outcome hb false with hfalse | ⟨hfault, hstale, -⟩
      · exact Or.inl (htrue.trans hfalse.symm)
      · exact Or.inr ⟨hfault, false, hstale⟩
    · exact Or.inr ⟨hfault, true, hstale⟩

/-- if the passes use no address of an object through two records, no barrier is stale -/
theorem ending_of_oneRecord (ha : (g.registry.back dev s).1.Agree)
    (hone : ∀ k native, (g.registry.back dev s).1.OneRecord g.passes k native) :
    ending ((g.merging true).compile dev s) = ending ((g.merging false).compile dev s) := by
  rcases exists_stages h hn hfit with ⟨r, -, hend⟩ | ⟨s', hb, ⟨st⟩⟩
  · exact (hend true).trans (hend false).symm
  · have hends : ∀ merge, ending ((g.merging merge).compile dev s) = .ok (.ok (), s') := by
      intro merge
      refine (st.outcome hb merge).resolve_right fun ⟨_, _, hstale⟩ => ?_
      exact hstale (st.agree ha) fun k => (st.exact merge).timely_of_oneRecord (st.agree ha)
        fun native => st.oneRecord (hone k native)
    exact (hends true).trans (hends false).symm

/-- if no pass uses an address through two records, what succeeds with merging succeeds without -/
theorem ending_of_merged (ha : (g.registry.back dev s).1.Agree)
    (hone : ∀ k native, ∀ p ∈ g.passes, (g.registry.back dev s).1.OneRecord [p] k native)
    {result : Graph × Except AllocationError Stats × σ} (hc : (g.merging true).compile dev s = .ok result) :
    ending ((g.merging true).compile dev s) = ending ((g.merging false).compile dev s) := by
  rcases exists_stages h hn hfit with ⟨r, -, hend⟩ | ⟨s', hb, ⟨st⟩⟩
  · exact (hend true).trans (hend false).symm
  · rcases st.outcome hb true with htrue | ⟨-, ⟨pass, text, hstale⟩, -⟩
    · rcases st.outcome hb false with hfalse | ⟨⟨helim, hfault⟩, -, hstale⟩
      · exact htrue.trans hfalse.symm
      · -- no merged barrier is stale, so no other one is
        obtain ⟨x, hx, -⟩ := st.of_compile hb hc
        have hafter := st.agree ha
        refine absurd (fun k => st.timely_raw hafter (fun native p hp => st.oneRecord (hone k native p hp)) ?_)
          (hstale hafter)
        exact timely_of_afterElimination st.mergeds st.nodup hafter helim hfault hx k
    · rw [hc] at hstale
      cases hstale

/-- where no merged barrier is stale, an object is in the same states if no pass uses an address of it through two records -/
theorem nativesThrough_merging (ha : (g.registry.back dev s).1.Agree) {native : Nat}
    (hone : ∀ p ∈ g.passes, (g.registry.back dev s).1.OneRecord [p] k native)
    {result : Graph × Except AllocationError Stats × σ} (hc : (g.merging true).strict.compile dev s = .ok result)
    {g₁ g₂ : Graph} {stats₁ stats₂ : Stats} {s₁ s₂ : σ}
    (h₁ : (g.merging true).compile dev s = .ok (g₁, .ok stats₁, s₁))
    (h₂ : (g.merging false).compile dev s = .ok (g₂, .ok stats₂, s₂)) (j : Nat) :
    g₁.nativesThrough j k native = g₂.nativesThrough j k native := by
  rcases exists_stages h hn hfit with ⟨r, hr, hend⟩ | ⟨s', hb, ⟨st⟩⟩
  · rw [← hend true, h₁] at hr
    exact absurd rfl (hr s₁)
  · obtain ⟨x, hx, e₁⟩ := st.of_compile hb h₁
    obtain ⟨y, hy, e₂⟩ := st.of_compile hb h₂
    cases e₁
    cases e₂
    have hafter := st.agree ha
    obtain ⟨htimely, hstates⟩ := st.merged_states hafter fun p hp => st.oneRecord (hone p hp)
    -- the stages do not depend on what is done with stale barriers
    let strict : g.strict.Stages (g.registry.back dev s).1 := { st with }
    have hc' : (g.strict.merging true).compile dev s = .ok result := hc
    obtain ⟨z, hz, -⟩ := strict.of_compile hb hc'
    have hmerged : g.settings.eliminate = false ∨ st.TimelyOn k native true := by
      cases helim : g.settings.eliminate with
      | false => exact Or.inl rfl
      | true =>
        have hall : st.Timely k true :=
          @timely_of_afterElimination g.strict.settings _ _ _ _ _ _ _ st.mergeds st.nodup hafter helim rfl hz k
        exact Or.inr (st.timely_iff.1 hall native)
    rw [st.nativesThrough_plan hafter hx hmerged, st.nativesThrough_plan hafter hy (hmerged.imp_right htimely)]
    exact (hstates j).symm

end Results

/-- **What merging changes.** With and without merging, compiling makes the same plan but for the barriers, and it ends in
the same way unless a barrier is stale and that is a fault. If no address of an object is used through two records, it ends
in the same way. If this is so in each single pass, a compile that succeeds with merging succeeds without it as well; and
where no merged barrier is stale, an object is in the same states after each pass. -/
theorem compile_merging (h : g.Built) (hn : g.Countable) (hfit : ∀ n, g.rawBarriers dev s = .ok n → n ≤ maxWord64) :
    (∀ g₁ g₂ stats₁ stats₂ s₁ s₂, (g.merging true).compile dev s = .ok (g₁, .ok stats₁, s₁) →
      (g.merging false).compile dev s = .ok (g₂, .ok stats₂, s₂) → s₁ = s₂ ∧ Alike g₁ g₂ stats₁ stats₂) ∧
    (ending ((g.merging true).compile dev s) = ending ((g.merging false).compile dev s) ∨
      (g.settings.eliminate = true ∧ g.settings.onStale = .fault) ∧
        ∃ merge pass text, (g.merging merge).compile dev s = .error (.staleBarrier pass text)) ∧
    ((g.registry.back dev s).1.Agree →
      ((∀ k native, (g.registry.back dev s).1.OneRecord g.passes k native) →
        ending ((g.merging true).compile dev s) = ending ((g.merging false).compile dev s)) ∧
      ((∀ k native, ∀ p ∈ g.passes, (g.registry.back dev s).1.OneRecord [p] k native) →
        (∃ result, (g.merging true).compile dev s = .ok result) →
        ending ((g.merging true).compile dev s) = ending ((g.merging false).compile dev s)) ∧
      ∀ k native, (∀ p ∈ g.passes, (g.registry.back dev s).1.OneRecord [p] k native) →
        (∃ result, (g.merging true).strict.compile dev s = .ok result) →
        ∀ g₁ g₂ stats₁ stats₂ s₁ s₂, (g.merging true).compile dev s = .ok (g₁, .ok stats₁, s₁) →
          (g.merging false).compile dev s = .ok (g₂, .ok stats₂, s₂) →
            ∀ j, g₁.nativesThrough j k native = g₂.nativesThrough j k native) := by
  exact ⟨fun _ _ _ _ _ _ h₁ h₂ => alike_of_compile h hn hfit h₁ h₂, ending_merging h hn hfit, fun ha =>
    ⟨ending_of_oneRecord h hn hfit ha, fun hone ⟨_, hc⟩ => ending_of_merged h hn hfit ha hone hc,
      fun _ _ hone ⟨_, hc⟩ _ _ _ _ _ _ h₁ h₂ => nativesThrough_merging h hn hfit ha hone hc h₁ h₂⟩⟩

/-- the graph with one more pass, which renders to some mip levels of a record of a texture -/
def addLevels (g : Graph) (pass : Nat × List Nat) : Graph :=
  (g.addPass "pass" .graphics
    (pass.2.map fun level => .access ⟨.texture, ⟨pass.1, some (.mip level)⟩⟩ .renderTarget .write) fun _ => []).1

/-- two records of one texture of three mip levels, and passes that render to some levels of one of them -/
def leveled (passes : List (Nat × List Nat)) : Graph :=
  let d := { TextureDescriptor.blank with mipCount := 3 }
  let g := ((new {}).importNative (k := .texture) 9 d .shaderResource).1
  passes.foldl addLevels (g.importNative (k := .texture) 9 d .shaderResource).1

theorem built_leveled (passes : List (Nat × List Nat)) : (leveled passes).Built := by
  refine List.foldlRecOn passes addLevels ?_ fun _ hg _ _ => .addPass _ _ _ _ hg
  exact .importNative .texture _ _ _ (.importNative .texture _ _ _ (.new _))

/-- each record is used for levels of its own -/
def parted : Graph := leveled [(0, [0]), (1, [1, 2])]

/-- two barriers of the second pass are merged, and the texture is in the same states -/
theorem compile_merging_parted : ∃ g₁ g₂ stats₁ stats₂ s',
    (parted.merging true).compile CountingDevice.device {} = .ok (g₁, .ok stats₁, s') ∧
    (parted.merging false).compile CountingDevice.device {} = .ok (g₂, .ok stats₂, s') ∧
    stats₁.mergedAway = 1 ∧ stats₂.mergedAway = 0 ∧ Alike g₁ g₂ stats₁ stats₂ ∧
    ∀ j, g₁.nativesThrough j .texture 9 = g₂.nativesThrough j .texture 9 := by
  have hn : parted.Countable := countable_of_cells (by decide +kernel)
  have hfit : ∀ n, parted.rawBarriers CountingDevice.device {} = .ok n → n ≤ maxWord64 := by decide +kernel
  have ha : (parted.registry.back CountingDevice.device {}).1.Agree := by decide +kernel
  have htouched : ∀ p ∈ parted.passes, ∀ m ∈ p.touched .texture, ∀ n ∈ p.touched .texture, m = n := by decide +kernel
  have h : (match (parted.merging true).compile CountingDevice.device {},
        (parted.merging false).compile CountingDevice.device {} with
      | .ok (_, .ok stats₁, _), .ok (_, .ok stats₂, _) =>
        decide (stats₁.mergedAway = 1) && decide (stats₂.mergedAway = 0)
      | _, _ => false) = true := by decide +kernel
  split at h
  · rename_i g₁ stats₁ s₁ g₂ stats₂ s₂ h₁ h₂
    rw [Bool.and_eq_true, decide_eq_true_eq, decide_eq_true_eq] at h
    obtain ⟨halike, -, hagree⟩ := compile_merging (built_leveled _) hn hfit
    obtain ⟨rfl, hsame⟩ := halike _ _ _ _ _ _ h₁ h₂
    refine ⟨g₁, g₂, stats₁, stats₂, s₁, h₁, h₂, h.1, h.2, hsame, ?_⟩
    refine (hagree ha).2.2 .texture 9 (fun p hp => Registry.oneRecord_of_touched ?_) ⟨_, h₁⟩ _ _ _ _ _ _ h₁ h₂
    intro q hq q' hq' m hm n hn _ _
    rw [List.mem_singleton.1 hq] at hm
    rw [List.mem_singleton.1 hq'] at hn
    exact htouched p hp m hm n hn
  · cases h

/-- the second record is used for a level that is rendered to already, and for one that is not -/
def nested : Graph := leveled [(0, [0]), (1, [0, 1])]

/-- **A merged barrier can be stale where the barriers it is merged from are not.** Of the two barriers of the second pass
one changes nothing and the other one is needed. -/
theorem merged_stale : nested.Built ∧ (nested.registry.back CountingDevice.device {}).1.Agree ∧
    (nested.merging true).compile CountingDevice.device {} =
      .error (.staleBarrier "pass" "Texture(1) mips 0..2 layers 0..1: ShaderResource -> RenderTarget") ∧
    ∃ g' stats s', (nested.merging false).compile CountingDevice.device {} = .ok (g', .ok stats, s') ∧
      stats.redundantDropped = 1 := by
  have hfault : (match (nested.merging true).compile CountingDevice.device {} with
      | .error (.staleBarrier pass text) =>
        decide (pass = "pass" ∧ text = "Texture(1) mips 0..2 layers 0..1: ShaderResource -> RenderTarget")
      | _ => false) = true := by decide +kernel
  have hok : (match (nested.merging false).compile CountingDevice.device {} with
      | .ok (_, .ok stats, _) => decide (stats.redundantDropped = 1)
      | _ => false) = true := by decide +kernel
  split at hfault
  · rename_i pass text hc
    obtain ⟨rfl, rfl⟩ := of_decide_eq_true hfault
    refine ⟨built_leveled _, by decide +kernel, hc, ?_⟩
    split at hok
    · rename_i g' stats s' hc'
      exact ⟨g', stats, s', hc', of_decide_eq_true hok⟩
    · cases hok
  · cases hfault

end Graph

end FrameGraph
