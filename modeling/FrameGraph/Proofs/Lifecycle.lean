/-
What holds of a graph between any two of its calls.

A graph is compiled or it is not. One that is not is idle (`Graph.Idle`): nothing of an earlier plan is left in it, and
every resource is tracked as a whole in its initial state. One that is compiled is live (`Graph.Live`): every resource
has an object, and the order lists the passes that are not culled.

Discarding a plan does nothing if there is none, and a compile that answers an error leaves the passes alone. What is
left of a plan is gone all the same, because compiling a live graph answers no error: no object is missing
(`Live.accepted`).

- `Settled.invalidate`, `Settled.refused`, `live_of_compile`: what each kind of call leaves.
- `mergeBarriers_of_whole`: merging leaves barriers of whole resources alone if they are listed in registration order.
- `Idle.execute`: an idle graph runs all its passes in registration order, then issues the exports.
- `Built.lifecycle`: every built graph is idle or live, and its usages name registered resources.
-/
import FrameGraph.Proofs.Recompiling

namespace FrameGraph

open ResourceKind

variable {k : ResourceKind} {σ : Type}

/-! ## Untouched records -/

/-- tracked as a whole in the initial state -/
def Resource.Untouched (r : Resource k) : Prop := r.tracker = .uniform r.bounds r.initial

/-- every record is untouched -/
def Registry.Untouched (g : Registry) : Prop := g.Every fun _ r => r.Untouched

theorem Resource.kept_untouched : Resource.Kept fun _ r => r.Untouched where
  new := fun _ _ _ _ => rfl
  rewind := fun h => congrArg (Tracker.reset · _) h
  exported := fun _ h => h
  back := fun _ h => h
  write := fun _ h => h

theorem Resource.Coherent.untouched_rewind {r : Resource k} (h : r.Coherent) : r.rewind.Untouched :=
  congrArg (fun b => Tracker.uniform b r.initial) h.bounds

/-- every resource has an object -/
def Registry.Backed (g : Registry) : Prop := g.Every fun _ r => r.backing.isSome = true

/-! ## Idle and live graphs -/

namespace Graph

/-- nothing of a plan is left: no order, no pass is culled or has barriers or sets, and no record is touched -/
structure Idle (g : Graph) : Prop where
  order : g.order = []
  unplanned : ∀ p ∈ g.passes, p.plan = {}
  untouched : g.registry.Untouched

/-- every resource has an object, and the order lists the passes that are not culled -/
structure Live (g : Graph) : Prop where
  backed : g.registry.Backed
  order : g.order = (List.range g.passes.length).filter fun i => g.passes[i]?.any fun p => !p.plan.culled

/-- live if compiled, and idle if not -/
structure Settled (g : Graph) : Prop where
  idle : g.compiled = false → g.Idle
  live : g.compiled = true → g.Live

variable {g g' : Graph} {dev : Device σ} {s s' : σ} {stats : Stats}

theorem settled_of_idle (hc : g.compiled = false) (h : g.Idle) : g.Settled :=
  ⟨fun _ => h, fun hc' => Bool.noConfusion (hc.symm.trans hc')⟩

theorem settled_of_live (hc : g.compiled = true) (h : g.Live) : g.Settled :=
  ⟨fun hc' => Bool.noConfusion (hc.symm.trans hc'), fun _ => h⟩

theorem idle_new (settings : Settings) : (new settings).Idle :=
  ⟨rfl, fun _ hp => (List.not_mem_nil hp).elim, Registry.every_empty⟩

theorem compiled_invalidate (g : Graph) : g.invalidate.compiled = false := by
  unfold invalidate
  split
  · rfl
  · rename_i hc
    exact Bool.eq_false_iff.2 hc

/-- a graph whose plan is discarded is idle -/
theorem Settled.invalidate (h : g.Settled) (hcoherent : g.registry.Coherent) : g.invalidate.Idle := by
  unfold Graph.invalidate
  split
  · refine ⟨rfl, fun p hp => ?_, fun k r hr => ?_⟩
    · obtain ⟨q, -, rfl⟩ := List.mem_map.1 hp
      rfl
    · obtain ⟨n, hn⟩ := List.mem_iff_getElem?.1 hr
      rw [Registry.rewind_getElem?] at hn
      obtain ⟨q, hq, rfl⟩ := Option.map_eq_some_iff.1 hn
      exact (hcoherent k q (List.mem_of_getElem? hq)).untouched_rewind
  · rename_i hc
    exact h.idle (Bool.eq_false_iff.2 hc)

/-- an idle graph stays idle when records change in ways that leave them untouched -/
theorem Idle.registry (h : g.Idle) {registry : Registry} (hr : registry.Untouched) : Idle { g with registry } :=
  ⟨h.order, h.unplanned, hr⟩

/-- **Compiling a live graph answers no error,** since no object is missing. -/
theorem Live.accepted (h : g.Live) (dev : Device σ) (s : σ) : (g.registry.back dev s).2.1 = none := by
  have hnone : ∀ k, ∀ r ∈ g.registry.get k, r.unbacked = false := by
    intro k r hr
    rw [Resource.unbacked, Option.isNone_eq_false_iff.2 (h.backed k r hr), Bool.and_false]
  have hback : ∀ k, Resource.backAll dev s (g.registry.get k) = ((g.registry.get k).map Resource.fresh, none, s) :=
    fun k => Resource.backAll_backed (hnone k)
  let after : Registry := .ofFun fun k => (g.registry.get k).map Resource.fresh
  have hb : g.registry.back dev s = (after, none, s) := Registry.back_of_backAll (hback .texture) (hback .buffer)
  rw [hb]

/-- a compile that answers an error starts from an idle graph -/
theorem Settled.idle_of_refused (h : g.Settled) {e : AllocationError}
    (hc : g.compile dev s = .ok (g', .error e, s')) : g.Idle := by
  refine h.idle (Bool.eq_false_iff.2 fun hcompiled => ?_)
  have haccepted := (h.live hcompiled).accepted dev s
  obtain ⟨registry, hb, -⟩ := exists_back_of_compile_error hc
  rw [hb] at haccepted
  cases haccepted

/-- a compile that answers an error leaves an idle graph, because it started from one -/
theorem Settled.refused (h : g.Settled) {e : AllocationError} (hc : g.compile dev s = .ok (g', .error e, s')) :
    g'.Idle := by
  have hidle := h.idle_of_refused hc
  rw [compile_error_inv hc]
  exact ⟨rfl, hidle.unplanned, Registry.Every.back hidle.untouched Resource.kept_untouched dev s⟩

/-- a compile that succeeds leaves a live graph -/
theorem live_of_compile (hcoherent : g.registry.Coherent) (hc : g.compile dev s = .ok (g', .ok stats, s')) :
    g'.Live := by
  obtain ⟨registry, plan, hb, hp, rfl⟩ := compile_inv hc
  obtain ⟨needed, after, raw, merged, final, removed, dropped, hk, hs, -, -, rfl⟩ := compilePasses_eq_ok_iff.1 hp
  have hopened := (Registry.opened_of_back hcoherent hb).noteWriters (g.passes.map Pass.withSets)
  have hready := (synthesize_ready hopened.ready hs).1
  refine ⟨fun k r hr => ?_, ?_⟩
  · have hbacked := (hready k r hr).backed
    rwa [Resource.native, Option.isSome_map] at hbacked
  · obtain ⟨q, rfl⟩ := exists_filter_of_keptPasses hk
    simp only [Compiled.assemble, List.length_mapIdx]
    refine List.filter_congr fun i hi => ?_
    have hlt := List.mem_range.1 hi
    rw [List.getElem?_mapIdx, List.getElem?_eq_getElem hlt, Option.map_some, Option.any_some]
    rw [Bool.not_not, Bool.eq_iff_iff, List.contains_iff_mem, List.mem_filter]
    exact ⟨fun hq => ⟨hi, hq⟩, And.right⟩

/-- running a graph keeps it idle or live -/
theorem Settled.afterRun (h : g.Settled) : g.afterRun.Settled := by
  refine ⟨fun hc => ⟨(h.idle hc).order, fun p hp => ?_, (h.idle hc).untouched⟩, fun hc => ⟨(h.live hc).backed, ?_⟩⟩
  · obtain ⟨i, hi, rfl⟩ := List.mem_mapIdx.1 hp
    have hp := (h.idle hc).unplanned g.passes[i] (List.getElem_mem hi)
    exact hp
  · refine (h.live hc).order.trans ?_
    rw [Graph.afterRun, List.length_mapIdx]
    refine List.filter_congr fun i _ => ?_
    rw [List.getElem?_mapIdx, Option.any_map]

/-- **Every built graph is idle or live.** -/
theorem Built.settled (h : g.Built) : g.Settled := by
  induction h with
  | new settings => exact settled_of_idle rfl (idle_new settings)
  | @create g k d hg ih =>
    have hidle := ih.invalidate hg.coherent
    exact settled_of_idle g.compiled_invalidate
      (hidle.registry (Registry.Every.create hidle.untouched Resource.kept_untouched d))
  | @importNative g k native d s hg ih =>
    have hidle := ih.invalidate hg.coherent
    exact settled_of_idle g.compiled_invalidate
      (hidle.registry (Registry.Every.importNative hidle.untouched Resource.kept_untouched native d s))
  | @exportState g h s hg ih =>
    unfold Graph.exportState
    split
    · rename_i registry he
      -- the export state is noted first, which neither touches a tracker nor needs an object
      refine settled_of_idle (compiled_invalidate _) (Settled.invalidate ⟨fun hc => ?_, fun hc => ?_⟩ ?_)
      · exact (ih.idle hc).registry (Registry.Every.export (ih.idle hc).untouched Resource.kept_untouched.exported he)
      · exact ⟨Registry.Every.export (ih.live hc).backed (fun _ h => h) he, (ih.live hc).order⟩
      · exact Registry.Every.export hg.coherent Resource.kept_coherent.exported he
    · exact ih
  | @addPass g name kind setup callback hg ih =>
    have hidle := ih.invalidate hg.coherent
    refine settled_of_idle g.compiled_invalidate ⟨hidle.order, fun p hp => ?_, ?_⟩
    · rcases List.mem_append.1 hp with hp | hp
      · exact hidle.unplanned p hp
      · rw [List.mem_singleton.1 hp]
    · exact Registry.Every.setup hidle.untouched Resource.kept_untouched kind setup
  | @compile g g' _ dev s s' answer hg hc ih =>
    cases answer with
    | error e =>
      refine settled_of_idle ?_ (ih.refused hc)
      rw [compile_error_inv hc]
    | ok stats =>
      refine settled_of_live ?_ (live_of_compile hg.coherent hc)
      obtain ⟨registry, plan, -, -, rfl⟩ := compile_inv hc
      rfl
  | afterRun _ ih => exact ih.afterRun
  | @clear g _ _ => exact settled_of_idle rfl (idle_new g.settings)

end Graph

/-! ## Merging barriers of whole resources -/

/-- a list whose neighbours are told apart is cut into single elements -/
theorem splitBy_of_pairwise {α : Type} {r : α → α → Bool} {as : List α} (h : as.Pairwise fun a b => r a b = false) :
    as.splitBy r = as.map fun a => [a] := by
  have hflat : (as.map fun a => [a]).flatten = as := by rw [← List.flatMap_def, List.flatMap_singleton']
  refine List.splitBy_eq_iff.2 ⟨hflat.symm, ?_, ?_, ?_⟩
  · simp
  · intro m hm
    obtain ⟨a, -, rfl⟩ := List.mem_map.1 hm
    exact List.isChain_singleton a
  · refine (List.isChain_map _).2 (h.isChain.imp fun {a b} hab => ?_)
    exact ⟨List.cons_ne_nil a [], List.cons_ne_nil b [], hab⟩

/-- **Merging leaves barriers of whole resources alone** if each is of a later resource than the ones before. -/
theorem mergeBarriers_of_whole {bounds : Nat → Except Fault k.Bounds} {bs : List (Barrier k)}
    (hasc : bs.Pairwise fun b c => b.resource < c.resource) (hw : ∀ b ∈ bs, b.part = none) :
    mergeBarriers bounds bs = .ok bs := by
  have hsorted : sortOn Barrier.sortKey bs = bs := by
    refine sortOn_of_pairwise (hasc.imp fun {b c} h => ?_)
    simp [Barrier.sortKey, Barrier.groupKey, List.lex, h.ne', h.le]
  have hgroups : barrierGroups bs = bs.map fun b => [b] := by
    rw [barrierGroups, hsorted]
    refine splitBy_of_pairwise (hasc.imp fun {b c} h => ?_)
    simp [Barrier.groupKey, h.ne]
  -- each group is one barrier, of a whole resource
  have hmerge : ∀ cs : List (Barrier k), (∀ b ∈ cs, b.part = none) →
      (cs.map fun b => [b]).mapM (mergeGroup bounds) = .ok (cs.map fun b => [b]) := by
    intro cs hcs
    induction cs with
    | nil => rfl
    | cons c cs ih =>
      obtain ⟨hc, hcs⟩ := List.forall_mem_cons.1 hcs
      have hfind : [c].find? (·.part.isNone) = some c := List.find?_cons_of_pos (by rw [hc, Option.isNone_none])
      rw [List.map_cons, List.mapM_cons, ih hcs, mergeGroup, hfind]
      rfl
  rw [mergeBarriers, hgroups, hmerge bs hw]
  exact congrArg Except.ok (by rw [← List.flatMap_def, List.flatMap_singleton'])

/-! ## The exports of untouched records -/

/-- the barrier from the initial state of a resource to its export state: of the whole resource, if it has an object and
anything in it changes -/
def Resource.openingExport (r : Resource k) (index : Nat) : List (Barrier k) :=
  match r.exported, r.native with
  | some state, some native =>
    if r.initial ≠ state ∧ 0 < k.size r.bounds then [⟨index, native, r.initial, state, r.tag, none⟩] else []
  | _, _ => []

/-- these barriers for all resources, in registration order -/
def Registry.openingExports (g : Registry) : Batch :=
  .ofFun fun k => ((g.get k).mapIdx fun i r => r.openingExport i).flatten

/-- there is one such barrier at most, and it is of the whole resource -/
theorem Resource.openingExport_cases (r : Resource k) (index : Nat) :
    r.openingExport index = [] ∨ ∃ b, r.openingExport index = [b] ∧ b.resource = index ∧ b.part = none := by
  rw [openingExport]
  cases r.exported with
  | none => exact Or.inl rfl
  | some state =>
    cases r.native with
    | none => exact Or.inl rfl
    | some native =>
      dsimp only
      split
      · exact Or.inr ⟨_, rfl, rfl, rfl⟩
      · exact Or.inl rfl

theorem Resource.of_mem_openingExport {r : Resource k} {index : Nat} {b : Barrier k} (hb : b ∈ r.openingExport index) :
    b.resource = index ∧ b.part = none := by
  rcases r.openingExport_cases index with he | ⟨c, he, hc⟩
  · rw [he] at hb
    cases hb
  · rw [he, List.mem_singleton] at hb
    rwa [hb]

/-- moving a whole resource into another state is one change, unless it has no addresses -/
theorem Tracker.transition_uniform {b : k.Bounds} (hb : k.Measured b) (before after : ResourceState) :
    ((uniform b before).transition none after).2 =
      if before ≠ after ∧ 0 < k.size b then [⟨none, before⟩] else [] := by
  cases hr : k.region b none with
  | none =>
    have hsize : k.size b = 0 := size_of_everything_none hr
    simp only [transition, uniform, hr, hsize, Nat.lt_irrefl, and_false, if_false]
  | some p =>
    have hsize : 0 < k.size b := by
      obtain ⟨i, hi, -⟩ := exists_holds (inside_of_region hb hr)
      exact Nat.zero_lt_of_lt hi
    simp only [transition, uniform, hr, hsize, and_true, (inside_of_everything hb hr).2, if_true]
    by_cases hs : before = after
    · simp only [hs, if_true, ne_eq, not_true, if_false]
    · simp only [hs, if_false, ne_eq, not_false_eq_true, if_true]

/-- the export barriers of an untouched record -/
theorem Resource.Untouched.exportBarriers {r : Resource k} (h : r.Untouched) (index : Nat) :
    r.exportBarriers index = r.openingExport index := by
  rw [Resource.exportBarriers, openingExport]
  cases r.exported with
  | none => rfl
  | some state =>
    cases r.native with
    | none => rfl
    | some native =>
      dsimp only
      have hmeasured : k.Measured r.bounds := k.measured_bounds r.descriptor
      rw [h, Tracker.transition_uniform hmeasured]
      split <;> rfl

theorem Resource.Untouched.checkExport {r : Resource k} (h : r.Untouched) : r.checkExport = .ok () := by
  unfold Resource.checkExport
  split
  · rw [h]
    exact Tracker.check_ok (Tracker.valid_uniform (k.measured_bounds r.descriptor) _) _ _
  · rfl

/-- each resource has one barrier at most, and they are listed in registration order -/
theorem pairwise_openingExports (g : Registry) (k : ResourceKind) :
    (g.openingExports.get k).Pairwise fun b c => b.resource < c.resource := by
  rw [Registry.openingExports, Both.get_ofFun, List.pairwise_flatten]
  refine ⟨fun bs hbs => ?_, ?_⟩
  · obtain ⟨n, hn, rfl⟩ := List.mem_mapIdx.1 hbs
    rcases ((g.get k)[n]).openingExport_cases n with he | ⟨b, he, -⟩
    · rw [he]
      exact List.Pairwise.nil
    · rw [he]
      exact List.pairwise_singleton _ _
  · rw [List.pairwise_iff_getElem]
    intro i j hi hj hij b hb c hc
    rw [List.getElem_mapIdx] at hb hc
    rw [(Resource.of_mem_openingExport hb).1, (Resource.of_mem_openingExport hc).1]
    exact hij

/-- **The exports of untouched records start from the initial states,** merged or not. -/
theorem Registry.Untouched.exportBatch {g : Registry} (h : g.Untouched) (settings : Settings) :
    exportBatch settings g = .ok g.openingExports := by
  have hcheck : ∀ k, (g.get k).forM Resource.checkExport = .ok () := fun k =>
    forM_ok fun r hr => (h k r hr).checkExport
  have hbarriers : (.ofFun fun k => ((g.get k).mapIdx fun i r => r.exportBarriers i).flatten : Batch) =
      g.openingExports := by
    refine congrArg Both.ofFun (funext fun k => congrArg List.flatten (List.ext_getElem? fun n => ?_))
    rw [List.getElem?_mapIdx, List.getElem?_mapIdx]
    refine Option.map_congr fun r hr => ?_
    exact (h k r (List.mem_of_getElem? hr)).exportBarriers n
  have hmerge : ∀ k, mergeBarriers (g.boundsOf k) (g.openingExports.get k) = .ok (g.openingExports.get k) := by
    intro k
    refine mergeBarriers_of_whole (pairwise_openingExports g k) fun b hb => ?_
    rw [openingExports, Both.get_ofFun] at hb
    obtain ⟨bs, hbs, hb⟩ := List.mem_flatten.1 hb
    obtain ⟨n, hn, rfl⟩ := List.mem_mapIdx.1 hbs
    exact (Resource.of_mem_openingExport hb).2
  have htextures : g.textures.forM Resource.checkExport = .ok () := hcheck .texture
  have hbuffers : g.buffers.forM Resource.checkExport = .ok () := hcheck .buffer
  have hmt : mergeBarriers (g.boundsOf .texture) g.openingExports.textures = .ok g.openingExports.textures :=
    hmerge .texture
  have hmb : mergeBarriers (g.boundsOf .buffer) g.openingExports.buffers = .ok g.openingExports.buffers :=
    hmerge .buffer
  rw [FrameGraph.exportBatch, htextures, hbuffers, hbarriers]
  simp only [bind, Except.bind, hmt, hmb]
  split <;> rfl

/-! ## Running an idle graph -/

/-- looking up each index of a list lists it with its indices -/
theorem filterMap_range_getElem? {α : Type} (as : List α) :
    ((List.range as.length).filterMap fun i => as[i]?.map (i, ·)) = as.zipIdx.map Prod.swap := by
  induction as using List.reverseRecOn with
  | nil => rfl
  | append_singleton as a ih =>
    have hearlier : ∀ i ∈ List.range as.length, (as ++ [a])[i]?.map (i, ·) = as[i]?.map (i, ·) := by
      intro i hi
      rw [List.getElem?_append_left (List.mem_range.1 hi)]
    rw [List.length_append, List.length_singleton, List.range_succ, List.filterMap_append,
      List.filterMap_congr hearlier, ih, List.zipIdx_append, List.map_append, Nat.zero_add, List.filterMap_cons,
      List.getElem?_concat_length]
    rfl

/-- what a pass without barriers asks its context for -/
def Pass.bareActions (events : Bool) (p : Pass) : List Action :=
  (if events then [.beginEvent p.name] else []) ++ p.callback (p.runs + 1) ++ (if events then [.endEvent] else [])

namespace Graph

/-- the log of all passes in registration order, without barriers -/
def bareLog (g : Graph) (syncs : PerQueue Bool) (fences : Fences) : Log :=
  g.passes.zipIdx.foldl (fun (log : Log) (p, i) => log.record syncs .graphics (.pass i) (p.bareActions g.settings.events))
    { fences }

/-- the same log, and one batch with the exports if there are any -/
def openingLog (g : Graph) (syncs : PerQueue Bool) (fences : Fences) : Log :=
  let batch := g.registry.openingExports
  let log := g.bareLog syncs fences
  if batch.count > 0 then log.record syncs .graphics .exports [.barriers batch] else log

variable {g : Graph}

/-- an idle graph walks all passes in registration order -/
theorem Idle.walk (h : g.Idle) (hc : g.compiled = false) : g.walk = g.passes.zipIdx.map Prod.swap := by
  rw [Graph.walk, hc, if_neg Bool.false_ne_true, filterMap_range_getElem?]
  refine List.filter_eq_self.2 fun x hx => ?_
  obtain ⟨⟨p, i⟩, hp, rfl⟩ := List.mem_map.1 hx
  have hplan := h.unplanned p (List.fst_mem_of_mem_zipIdx hp)
  simp [hplan]

/-- so each pass runs once more -/
theorem Idle.afterRun (h : g.Idle) (hc : g.compiled = false) :
    g.afterRun = { g with passes := g.passes.map fun p => { p with runs := p.runs + 1 } } := by
  have hindices : g.walk.map Prod.fst = List.range g.passes.length := by
    rw [h.walk hc, List.map_map, List.range_eq_range', ← List.zipIdx_map_snd 0 g.passes]
    rfl
  rw [Graph.afterRun, hindices, Graph.mk.injEq]
  refine ⟨rfl, rfl, List.ext_getElem? fun i => ?_, rfl, rfl, rfl⟩
  rw [List.getElem?_mapIdx, List.getElem?_map]
  refine Option.map_congr fun p hp => ?_
  obtain ⟨hi, -⟩ := List.getElem?_eq_some_iff.1 hp
  rw [List.count_eq_one_of_mem List.nodup_range (List.mem_range.2 hi)]

/-- **An idle graph runs all its passes in registration order,** without barriers, and then issues the exports from the
initial states. -/
theorem Idle.execute (h : g.Idle) (hc : g.compiled = false) (syncs : PerQueue Bool) (fences : Fences) :
    g.execute syncs fences =
      .ok ({ g with passes := g.passes.map fun p => { p with runs := p.runs + 1 } }, g.openingLog syncs fences) := by
  have hactions : ∀ x ∈ g.passes.zipIdx, x.1.actions g.settings.events = x.1.bareActions g.settings.events := by
    intro x hx
    have hplan := h.unplanned x.1 (List.fst_mem_of_mem_zipIdx hx)
    have hcount : ¬ x.1.plan.barriers.count > 0 := by
      rw [hplan]
      exact Nat.lt_irrefl 0
    rw [Pass.actions, if_neg hcount, List.append_nil, Pass.bareActions]
  have hlog : g.passes.zipIdx.foldl
      (fun log x => log.record syncs .graphics (.pass x.2) (x.1.actions g.settings.events)) ({ fences } : Log) =
        g.bareLog syncs fences := by
    rw [bareLog]
    refine List.foldl_ext _ _ _ fun log x hx => ?_
    exact congrArg (log.record syncs .graphics (.pass x.2)) (hactions x hx)
  rw [Graph.execute, h.walk hc, List.foldl_map]
  simp only [Prod.swap]
  rw [hlog, Log.recordExports, h.untouched.exportBatch, h.afterRun hc]
  rfl

/-! ## Built graphs -/

/-- **A built graph is idle or live,** and every usage of its passes names a registered resource. If it is idle it runs
all passes in registration order, and then issues one batch that takes the exported resources out of their initial
states. -/
theorem Built.lifecycle (h : g.Built) :
    g.Registered ∧ (g.compiled = true → g.Live) ∧
      (g.compiled = false → g.Idle ∧ ∀ (syncs : PerQueue Bool) (fences : Fences), g.execute syncs fences =
        .ok ({ g with passes := g.passes.map fun p => { p with runs := p.runs + 1 } }, g.openingLog syncs fences)) :=
  ⟨h.registered, h.settled.live, fun hc =>
    ⟨h.settled.idle hc, fun syncs fences => (h.settled.idle hc).execute hc syncs fences⟩⟩

/-- the sample graph before its first compile, after one that runs out of memory, and after one that succeeds -/
theorem lifecycle_sample : sample.Idle ∧
    (∃ (g : Graph) (e : AllocationError) (s : CountingDevice),
      sample.compile CountingDevice.device (({} : CountingDevice).failAfter 0 .outOfMemory) = .ok (g, .error e, s) ∧
        g.Idle) ∧
    ∃ (g : Graph) (stats : Stats) (s : CountingDevice),
      sample.compile CountingDevice.device {} = .ok (g, .ok stats, s) ∧ g.Registered ∧ g.Live := by
  refine ⟨((Built.lifecycle built_sample).2.2 rfl).1, ?_, ?_⟩
  · have h : (match sample.compile CountingDevice.device (({} : CountingDevice).failAfter 0 .outOfMemory) with
        | .ok (g, .error _, _) => !g.compiled
        | _ => false) = true := by decide +kernel
    split at h
    · rename_i g e s hc
      refine ⟨g, e, s, hc, ((Built.lifecycle (.compile built_sample hc)).2.2 ?_).1⟩
      simpa using h
    · cases h
  · obtain ⟨g, stats, s, hc, -⟩ := sample_compiles
    have hlife := Built.lifecycle (.compile built_sample hc)
    obtain ⟨registry, plan, -, -, rfl⟩ := compile_inv hc
    exact ⟨_, stats, s, hc, hlife.1, hlife.2.1 rfl⟩

end Graph

end FrameGraph
