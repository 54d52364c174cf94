/-
A frame whose records share native objects: in which states its native objects are.

The log of a run is read as before, but on the native objects: the batches the executor issues move these
(`Graph.nativesAfter`), from their initial states.

- `PlannedFrom`: the barriers of a compiled graph are what is left of exact differences, and none is missing on an object
  where these would replay.
- `execute_finds_alone`: if only one record of an object is used and exported, each pass that uses it finds the object in
  the states it asked for, and the export batch starts from the states the object is in.
- `bypassed_not_found`: if two records are used, a pass may find the object in the state another record has left it in, and
  the object may be exported twice. Each record is tracked by itself, so nothing is planned for the second one.
-/
import FrameGraph.Proofs.OneQueue
import FrameGraph.Proofs.Redundancy

namespace FrameGraph

open ResourceKind

variable {k : ResourceKind} {σ : Type}

/-! ## Replaying on native objects -/

/-- the batch on native objects -/
def Batch.onNative (batch : Batch) : Batch := .ofFun fun k => (batch.get k).map Barrier.onNative

section States

variable {L L' : Layout} {s s' : States} {n native : Nat}

theorem replays_append {bs cs : List (Barrier k)} :
    Replays L s (bs ++ cs) ↔ Replays L s bs ∧ Replays L (bs.foldl (Barrier.apply L) s) cs := by
  induction bs generalizing s with
  | nil => simp [Replays]
  | cons b bs ih => simp only [List.cons_append, Replays, ih, List.foldl_cons, and_assoc]

/-- the states of an object move with the barriers on it only -/
theorem statesAfter_onObject (L : Layout) (s : States) (native : Nat) (xs : List (Nat × Barrier k)) :
    statesAfter L s (onObject native xs) native = statesAfter L s xs native := by
  have hsame : ∀ (xs : List (Nat × Barrier k)) (s s' : States), s native = s' native →
      statesAfter L s (onObject native xs) native = statesAfter L s' xs native := by
    intro xs
    induction xs with
    | nil => exact fun _ _ h => h
    | cons x xs ih =>
      intro s s' h
      by_cases hn : x.2.native = native
      · subst hn
        rw [onObject_cons_self]
        exact ih _ _ (Barrier.apply_congr _ h)
      · rw [onObject_cons_of_ne hn]
        exact ih _ _ (h.trans (Barrier.apply_of_ne hn).symm)
  exact hsame xs s s rfl

/-- if the barriers on an object are those of one record, they do to the object what they do to the record -/
theorem replays_onObject {xs : List (Nat × Barrier k)} (hxs : ∀ x ∈ xs, x.2.native = native ↔ x.2.resource = n)
    (hL : L k n = L' k native) (hs : s n = s' native) (hr : Replays L s (xs.map Prod.snd)) :
    Replays L' s' ((onObject native xs).map fun x => x.2.onNative) ∧
      statesAfter L' s' (onObject native xs) native = (xs.map Prod.snd).foldl (Barrier.apply L) s n := by
  induction xs generalizing s s' with
  | nil => exact ⟨trivial, hs.symm⟩
  | cons x xs ih =>
    obtain ⟨hx, hxs⟩ := List.forall_mem_cons.1 hxs
    obtain ⟨hstarts, hr⟩ := hr
    by_cases hn : x.2.native = native
    · obtain rfl := hx.1 hn
      subst hn
      have hcovers : ∀ i, x.2.onNative.covers L' i = x.2.covers L i := by
        intro i
        rw [Barrier.covers, Barrier.covers, Barrier.onNative_resource, hL]
        rfl
      have hmoved : x.2.apply L s x.2.resource = x.2.onNative.apply L' s' x.2.native := by
        funext i
        simp only [Barrier.apply, hcovers, Barrier.onNative_resource, hs]
        rfl
      obtain ⟨h1, h2⟩ := ih hxs hmoved hr
      rw [onObject_cons_self]
      refine ⟨⟨fun i hi => ?_, h1⟩, h2⟩
      rw [Barrier.onNative_resource, ← hs]
      exact hstarts i ((hcovers i).symm.trans hi)
    · rw [onObject_cons_of_ne hn]
      refine ih hxs ?_ hr
      rw [Barrier.apply_of_ne fun e => hn (hx.2 e), hs]

end States

namespace Registry

variable {g : Registry} {n native : Nat} {r : Resource k}

theorem Agree.layout_eq (h : g.Agree) (hr : (g.get k)[n]? = some r) (hn : r.native = some native) :
    g.layout k n = g.nativeLayout k native := by
  obtain ⟨q, hq, hbounds, -⟩ := h.recordOf (List.mem_of_getElem? hr) hn
  rw [layout, nativeLayout, hr, hq, Option.map_some, Option.map_some, hbounds]

theorem Agree.initially_eq (h : g.Agree) (hr : (g.get k)[n]? = some r) (hn : r.native = some native) :
    g.initially k n = g.nativesInitially k native := by
  obtain ⟨q, hq, hbounds, hinitial⟩ := h.recordOf (List.mem_of_getElem? hr) hn
  funext i
  rw [initially, nativesInitially, hr, hq, Option.bind_some, Option.bind_some, hbounds, hinitial]

end Registry

/-- a barrier to an export state is on the native object of its record -/
theorem Resource.native_of_mem_exportBarriers {r : Resource k} {index : Nat} {b : Barrier k}
    (hb : b ∈ r.exportBarriers index) : r.native = some b.native := by
  unfold exportBarriers at hb
  split at hb
  · rename_i hnative
    obtain ⟨c, -, rfl⟩ := List.mem_map.1 hb
    exact hnative
  · cases hb

/-- exact differences of one kind replay, and end in the states all passes leave -/
theorem Granted.replays_ofKind {L : Layout} {passes : List Pass} {w : World} {batches : Batches}
    (h : Granted L passes w batches) (k : ResourceKind) :
    Replays L (w k) ((batches.ofKind k).map Prod.snd) ∧
      ((batches.ofKind k).map Prod.snd).foldl (Barrier.apply L) (w k) =
        w.grantAll L passes (batches.map Prod.fst) k := by
  induction batches generalizing w with
  | nil => exact ⟨trivial, rfl⟩
  | cons x rest ih =>
    obtain ⟨i, batch⟩ := x
    obtain ⟨hmoves, hrest⟩ := h
    obtain ⟨h1, h2⟩ := (hmoves k).replays
    obtain ⟨h3, h4⟩ := ih hrest
    have hcons : (Batches.ofKind k ((i, batch) :: rest)).map Prod.snd =
        batch.get k ++ (Batches.ofKind k rest).map Prod.snd := by
      simp [Batches.ofKind, Function.comp_def]
    rw [hcons, replays_append, List.foldl_append, h2]
    exact ⟨⟨h1, h3⟩, h4⟩

/-- replaying batches one after another is replaying their barriers -/
theorem foldl_onNative (L : Layout) (w : World) (batches : Batches) (k : ResourceKind) :
    (((batches.map Prod.snd).filter fun b => decide (b.count > 0)).map Batch.onNative).foldl (World.apply L) w k =
      statesAfter L (w k) (batches.ofKind k) := by
  induction batches generalizing w with
  | nil => rfl
  | cons x rest ih =>
    obtain ⟨i, batch⟩ := x
    have hcons : statesAfter L (w k) (Batches.ofKind k ((i, batch) :: rest)) =
        statesAfter L (World.apply L w batch.onNative k) (Batches.ofKind k rest) := by
      simp only [statesAfter, Batches.ofKind, List.flatMap_cons, List.foldl_append, World.apply, Batch.onNative,
        Both.get_ofFun, List.foldl_map]
    rw [hcons, List.map_cons, List.filter_cons]
    by_cases hc : batch.count > 0
    · rw [if_pos (decide_eq_true hc), List.map_cons, List.foldl_cons, ih]
    · -- a batch without barriers is not issued
      rw [if_neg (by simpa using hc), ih, World.apply, Batch.onNative, Both.get_ofFun, Batch.get_eq_nil hc]
      rfl

namespace Batches

variable {batches before : Batches} {native : Nat}

theorem mem_ofKind {x : Nat × Barrier k} : x ∈ batches.ofKind k ↔ ∃ y ∈ batches, y.1 = x.1 ∧ x.2 ∈ y.2.get k := by
  simp only [ofKind, List.mem_flatMap, List.mem_map]
  constructor
  · rintro ⟨y, hy, b, hb, rfl⟩
    exact ⟨y, hy, rfl, hb⟩
  · rintro ⟨y, hy, e, hb⟩
    exact ⟨y, hy, x.2, hb, Prod.ext e rfl⟩

theorem ofKind_append (before after : Batches) :
    Batches.ofKind k (before ++ after) = before.ofKind k ++ after.ofKind k := List.flatMap_append

/-- batches of the same passes that have the same barriers on an object have them pass by pass -/
theorem onObject_prefix {before' : Batches} (after after' : Batches) (hbefore : before.map Prod.fst = before'.map Prod.fst)
    (hafter : after.map Prod.fst = after'.map Prod.fst) (hn : ((before ++ after).map Prod.fst).Nodup)
    (h : onObject native (Batches.ofKind k (before ++ after)) = onObject native (Batches.ofKind k (before' ++ after'))) :
    onObject native (before.ofKind k) = onObject native (before'.ofKind k) := by
  rw [List.map_append, List.nodup_append] at hn
  -- the first passes are told apart by their indices
  have hfirst : ∀ b a : Batches, b.map Prod.fst = before.map Prod.fst → a.map Prod.fst = after.map Prod.fst →
      (onObject native (Batches.ofKind k (b ++ a))).filter (fun x => x.1 ∈ before.map Prod.fst) =
        onObject native (b.ofKind k) := by
    intro b a hb ha
    have hkeep : (onObject native (b.ofKind k)).filter (fun x => x.1 ∈ before.map Prod.fst) =
        onObject native (b.ofKind k) := by
      refine List.filter_eq_self.2 fun x hx => ?_
      obtain ⟨y, hy, e, -⟩ := mem_ofKind.1 (List.mem_filter.1 hx).1
      rw [decide_eq_true_eq, ← hb, ← e]
      exact List.mem_map_of_mem hy
    have hdrop : (onObject native (a.ofKind k)).filter (fun x => x.1 ∈ before.map Prod.fst) = [] := by
      refine List.filter_eq_nil_iff.2 fun x hx hmem => ?_
      obtain ⟨y, hy, e, -⟩ := mem_ofKind.1 (List.mem_filter.1 hx).1
      refine hn.2.2 x.1 (of_decide_eq_true hmem) x.1 ?_ rfl
      rw [← ha, ← e]
      exact List.mem_map_of_mem hy
    rw [ofKind_append, onObject, List.filter_append, List.filter_append]
    exact (congrArg₂ (· ++ ·) hkeep hdrop).trans (List.append_nil _)
  rw [← hfirst before after rfl rfl, h, hfirst before' after' hbefore.symm hafter.symm]

end Batches

/-! ## What is left of exact differences -/

namespace Graph

variable {g g' : Graph} {dev : Device σ} {s s' : σ} {stats : Stats} {full : Batches}

/-- the barriers of the passes are what is left of exact differences, and all of these where they replay on an object -/
structure PlannedFrom (g : Graph) (full : Batches) : Prop where
  ready : g.registry.Ready
  agree : g.registry.Agree
  ascending : (g.walk.map Prod.fst).Pairwise (· < ·)
  exact : full.Exact g.registry g.passes (g.walk.map Prod.fst)
  tracked : g.registry.world = g.registry.initially.grantAll g.registry.layout g.passes (g.walk.map Prod.fst)
  left : ∀ k native, Replays g.registry.nativeLayout (g.registry.nativesInitially k)
      ((onObject native (full.ofKind k)).map fun x => x.2.onNative) →
    onObject native (g.planned k) = onObject native (full.ofKind k)

/-- **After a successful compile the barriers of the passes are what is left of exact differences.** -/
theorem exists_plannedFrom (h : g.Built) (hc : g.compile dev s = .ok (g', .ok stats, s')) (ha : g'.registry.Agree)
    (hn : g'.Countable) : ∃ full, g'.PlannedFrom full := by
  obtain ⟨records, plan, hb, hp, -⟩ := compile_inv hc
  obtain ⟨needed, after, raw, merged, final, removed, dropped, hk, hs, hm, hf, rfl⟩ := compilePasses_eq_ok_iff.1 hp
  obtain ⟨hasc, hlt⟩ := ascending_of_keptPasses hk
  have hopened := Registry.opened_of_back h.coherent hb
  obtain ⟨hfst, hnamed⟩ := named_of_stages (hopened.noteWriters (g.passes.map Pass.withSets)) hs hm
  have hnodup : needed.Nodup := hasc.imp fun h => h.ne
  have hfinal := afterElimination_indices hfst hnodup hf
  obtain ⟨v, stats', hcv, rfl, hwalk, hbatches⟩ := compile_of_assemble hb hasc hlt hfinal hp
  rw [hc] at hcv
  cases hcv
  have husages := usages_of_compile hc
  obtain ⟨hexact, hready, hworld⟩ := merged_exact hopened hs hm (countable_of_compile hc hn)
  refine ⟨merged, hready, ha, hwalk.symm ▸ hasc, ?_, ?_, fun k native hr => ?_⟩
  · rw [hwalk]
    exact hexact.congr fun i => (husages i).symm
  · rw [hwalk, hworld, World.grantAll, World.grant_congr fun i => (husages i).symm]
    rfl
  · rw [planned, hbatches]
    rcases afterElimination_sieved ha hfst hnodup hnamed hf with ⟨-, rfl⟩ | hsieved
    · rfl
    · obtain ⟨stale, hsieved, -⟩ := hsieved k
      exact hsieved.onObject_eq rfl hr

/-- running a graph keeps it so -/
theorem PlannedFrom.afterRun (h : g.PlannedFrom full) : g.afterRun.PlannedFrom full := by
  have husages : ∀ i : Nat, (g.passes[i]?).map Pass.usages = (g.afterRun.passes[i]?).map Pass.usages := by
    intro i
    rw [Graph.afterRun, List.getElem?_mapIdx, Option.map_map]
    rfl
  have hfst : g.afterRun.walk.map Prod.fst = g.walk.map Prod.fst := by
    rw [walk_afterRun, List.map_map]
    rfl
  refine ⟨h.ready, h.agree, hfst ▸ h.ascending, hfst ▸ h.exact.congr husages, ?_, fun k native hr => ?_⟩
  · rw [hfst, World.grantAll, ← World.grant_congr husages]
    exact h.tracked
  · rw [planned, walk_afterRun, List.map_map]
    exact h.left k native hr

theorem PlannedFrom.afterRuns (h : g.PlannedFrom full) (runs : Nat) : (Graph.afterRun^[runs] g).PlannedFrom full := by
  induction runs with
  | zero => exact h
  | succ runs ih =>
    rw [Function.iterate_succ_apply']
    exact ih.afterRun

end Graph

/-! ## Reading the log -/

namespace Graph

/-- the native objects after some moments -/
def nativesAfter (g : Graph) (ms : List Moment) : World :=
  ((ms.filterMap Moment.batch?).map Batch.onNative).foldl (World.apply g.registry.nativeLayout)
    g.registry.nativesInitially

/-- the native objects when the callback of a pass is called -/
def nativesAtCall (g : Graph) (log : Log) (i : Nat) : World :=
  g.nativesAfter ((g.moments log).takeWhile fun m => m.call? ≠ some i)

/-- the native objects after the last pass -/
def nativesAtExport (g : Graph) (log : Log) : World :=
  g.nativesAfter ((log.blocks.takeWhile fun b => b.source ≠ .exports).flatMap (Block.moments g))

/-- each pass finds the addresses of the native object that it uses through a record in the state of the last usage that
has them -/
def FindsObject (g : Graph) (log : Log) (k : ResourceKind) (n native : Nat) : Prop :=
  ∀ x ∈ g.walk, ∀ bounds, g.registry.layout k n = some bounds → ∀ a u,
    (x.2.usesOf k n).findRev? (fun u => k.reaches bounds u.handle.part a) = some u →
      g.nativesAtCall log x.1 k native a = some u.state

/-- each barrier of the export batch on the native object starts from the state of every address it covers, and no address
is covered twice -/
def ExportsObject (g : Graph) (log : Log) (exports : Batch) (k : ResourceKind) (native : Nat) : Prop :=
  (∀ b ∈ exports.get k, b.native = native → b.onNative.Starts g.registry.nativeLayout (g.nativesAtExport log k)) ∧
    ∀ a, (exports.get k).countP
      (fun b => decide (b.native = native) && b.onNative.covers g.registry.nativeLayout a) ≤ 1

/-- no other record of the native object is used or exported -/
def Alone (g : Graph) (k : ResourceKind) (n native : Nat) : Prop :=
  ∀ m q, (g.registry.get k)[m]? = some q → q.native = some native → m ≠ n →
    q.exported = none ∧ ∀ x ∈ g.walk, x.2.usesOf k m = []

end Graph

section Reading

variable {g : Graph} {on : Pass → Queue} {walk : List (Nat × Pass)} {blocks : List Block}

/-- up to the call of a pass, the batches are its own and those of the passes before it -/
theorem Recorded.batches_until_call (h : Recorded g.settings.events on walk blocks)
    (hp : ∀ x ∈ walk, g.passes[x.1]? = some x.2) {before after : List (Nat × Pass)} {x : Nat × Pass}
    (hwalk : walk = before ++ x :: after) (hx : x.1 ∉ before.map Prod.fst) (tail : List Moment) :
    ((blocks.flatMap (Block.moments g) ++ tail).takeWhile fun m => m.call? ≠ some x.1).filterMap Moment.batch? =
      ((before ++ [x]).map fun y => y.2.plan.barriers).filter fun b => decide (b.count > 0) := by
  have hskip : ∀ {ms : List Moment}, ms.filterMap Moment.call? = [] → ∀ m ∈ ms, decide (m.call? ≠ some x.1) = true := by
    intro ms hms m hm
    rw [List.filterMap_eq_nil_iff.1 hms m hm]
    exact decide_eq_true (Option.some_ne_none _).symm
  induction h generalizing before with
  | nil => cases before <;> cases hwalk
  | @pass y walk b blocks hb _ ih =>
    obtain ⟨hy, hp⟩ := List.forall_mem_cons.1 hp
    obtain ⟨post, e, hpost, hcalls⟩ := hb.moments hy
    rw [List.flatMap_cons, List.append_assoc, e, List.append_assoc,
      List.takeWhile_append_of_pos (hskip (own_calls _)), List.filterMap_append, Pass.opening_batches]
    cases before with
    | nil =>
      obtain ⟨rfl, -⟩ := List.cons.inj hwalk
      rw [List.cons_append, List.takeWhile_cons_of_neg (by simp [Moment.call?])]
      simp only [List.filterMap_nil, List.append_nil, List.nil_append, List.map_cons, List.map_nil, List.filter_cons,
        List.filter_nil, decide_eq_true_eq]
    | cons z before =>
      obtain ⟨rfl, rfl⟩ := List.cons.inj hwalk
      obtain ⟨hne, hx⟩ := not_or.1 (fun hmem => hx (List.mem_cons.2 hmem))
      have hcall : (Moment.call y.1).call? ≠ some x.1 := fun e => hne (Option.some.inj e).symm
      rw [List.cons_append, List.takeWhile_cons_of_pos (by simpa using hcall), List.filterMap_cons,
        List.takeWhile_append_of_pos (hskip hcalls), List.filterMap_append, hpost, ih hp rfl hx]
      by_cases hc : y.2.plan.barriers.count > 0 <;> simp [hc, Moment.batch?]
  | @sync walk b blocks hs hb _ ih =>
    have hown : (b.moments g).filterMap Moment.call? = [] := by
      unfold Block.moments
      rw [hs]
      exact own_calls _
    rw [List.flatMap_cons, List.append_assoc, List.takeWhile_append_of_pos (hskip hown), List.filterMap_append,
      sync_batches hs hb, List.nil_append, ih hp hwalk hx]

/-- no pass is among the exports -/
theorem Recorded.takeWhile_exports (h : Recorded g.settings.events on walk blocks) (batch : Batch) :
    (blocks ++ exportBlocks batch).takeWhile (fun b => b.source ≠ .exports) = blocks := by
  induction h with
  | nil =>
    unfold exportBlocks
    split <;> rfl
  | pass hb _ ih =>
    obtain ⟨syncs, fences, rfl⟩ := hb
    rw [List.cons_append, List.takeWhile_cons_of_pos (by simp), ih]
  | sync hs _ _ ih => rw [List.cons_append, List.takeWhile_cons_of_pos (by simp [hs]), ih]

end Reading

/-! ## Objects that are used through one record -/

namespace Graph

variable {g g' : Graph} {dev : Device σ} {s s' : σ} {stats : Stats} {full : Batches}

section Alone

variable {n native : Nat} {r : Resource k}

/-- the barriers on an object that is used through one record are those of the record -/
theorem PlannedFrom.native_iff (h : g.PlannedFrom full) (hr : (g.registry.get k)[n]? = some r)
    (hnative : r.native = some native) (ha : g.Alone k n native) :
    ∀ x ∈ full.ofKind k, x.2.native = native ↔ x.2.resource = n := by
  intro x hx
  obtain ⟨y, hy, e, hb⟩ := Batches.mem_ofKind.1 hx
  have hnamed := h.exact.named y hy k x.2 hb
  constructor
  · intro hn
    by_contra hne
    obtain ⟨q, hq, hqn⟩ := Option.bind_eq_some_iff.1 hnamed
    obtain ⟨p, hp, huses⟩ := h.exact.used y hy k x.2 hb
    have hmem : y.1 ∈ g.walk.map Prod.fst := h.exact.indices ▸ List.mem_map_of_mem hy
    obtain ⟨z, hz, hzy⟩ := List.mem_map.1 hmem
    have hpz : g.passes[y.1]? = some z.2 := hzy ▸ (of_mem_walk hz).1
    obtain rfl : p = z.2 := Option.some.inj (hp.symm.trans hpz)
    exact huses ((ha x.2.resource q hq (hqn.trans (congrArg some hn)) hne).2 z hz)
  · intro hres
    rw [Barrier.Named, hres, hr, Option.bind_some, hnative] at hnamed
    exact (Option.some.inj hnamed).symm

/-- **An object that is used through one record is, after some of the passes, in the states these are granted.** -/
theorem PlannedFrom.state_of_alone (h : g.PlannedFrom full) (hr : (g.registry.get k)[n]? = some r)
    (hnative : r.native = some native) (ha : g.Alone k n native) {before after : List (Nat × Pass)}
    (hwalk : g.walk = before ++ after) :
    statesAfter g.registry.nativeLayout (g.registry.nativesInitially k)
        (Batches.ofKind k (before.map fun x => (x.1, x.2.plan.barriers))) native =
      g.registry.initially.grantAll g.registry.layout g.passes (before.map Prod.fst) k n := by
  have hlayout := h.agree.layout_eq hr hnative
  have hinitially := h.agree.initially_eq hr hnative
  have hxs := h.native_iff hr hnative ha
  -- the barriers on the object replay, so none of them is missing
  have hleft : onObject native (g.planned k) = onObject native (full.ofKind k) :=
    h.left k native (replays_onObject hxs hlayout hinitially (h.exact.granted.replays_ofKind k).1).1
  obtain ⟨first, rest, rfl, hfirst, hrest⟩ :=
    List.map_eq_append_iff.1 (h.exact.indices.trans (by rw [hwalk, List.map_append]))
  have hprefix : onObject native (Batches.ofKind k (before.map fun x => (x.1, x.2.plan.barriers))) =
      onObject native (Batches.ofKind k first) := by
    refine Batches.onObject_prefix (after.map fun x => (x.1, x.2.plan.barriers)) rest ?_ ?_ ?_ ?_
    · rw [List.map_map, hfirst]
      rfl
    · rw [List.map_map, hrest]
      rfl
    · rw [← List.map_append, ← hwalk, List.map_map]
      exact h.ascending.imp fun h => h.ne
    · rw [← hleft, planned, hwalk, List.map_append]
  have hgranted := (granted_append.1 h.exact.granted).1.replays_ofKind k
  have hfirsts : ∀ x ∈ Batches.ofKind k first, x.2.native = native ↔ x.2.resource = n := by
    intro x hx
    refine hxs x ?_
    rw [Batches.ofKind_append]
    exact List.mem_append_left _ hx
  rw [← statesAfter_onObject, hprefix, (replays_onObject hfirsts hlayout hinitially hgranted.1).2, hgranted.2, hfirst]

/-- the world after the passes walked is that of their batches, issued or empty -/
theorem nativesAfter_eq {ms : List Moment} {walk : List (Nat × Pass)}
    (hms : ms.filterMap Moment.batch? = (walk.map fun x => x.2.plan.barriers).filter fun b => decide (b.count > 0)) :
    g.nativesAfter ms k = statesAfter g.registry.nativeLayout (g.registry.nativesInitially k)
      (Batches.ofKind k (walk.map fun x => (x.1, x.2.plan.barriers))) := by
  have hbatches : (walk.map fun x => x.2.plan.barriers) =
      (walk.map fun x => (x.1, x.2.plan.barriers)).map Prod.snd := by
    rw [List.map_map]
    rfl
  rw [nativesAfter, hms, hbatches, foldl_onNative]

variable {log : Log} {blocks : List Block} {on : Pass → Queue} {exports : Batch}

/-- **A pass finds an object that is used through one record in the states it asked for.** -/
theorem PlannedFrom.finds (h : g.PlannedFrom full) (hr : (g.registry.get k)[n]? = some r)
    (hnative : r.native = some native) (ha : g.Alone k n native) (hrec : Recorded g.settings.events on g.walk blocks)
    (hblocks : log.blocks = blocks ++ exportBlocks exports) : g.FindsObject log k n native := by
  intro x hx bounds hl a u hu
  obtain ⟨before, after, hwalk⟩ := List.append_of_mem hx
  have hfresh : x.1 ∉ before.map Prod.fst := by
    have hasc := h.ascending
    rw [hwalk, List.map_append, List.pairwise_append] at hasc
    exact fun hmem => Nat.lt_irrefl _ (hasc.2.2 x.1 hmem x.1 List.mem_cons_self)
  have hpasses : ∀ x ∈ g.walk, g.passes[x.1]? = some x.2 := fun x hx => (of_mem_walk hx).1
  have hbatches := hrec.batches_until_call hpasses hwalk hfresh ((exportBlocks exports).flatMap (Block.moments g))
  rw [nativesAtCall, moments, hblocks, List.flatMap_append, nativesAfter_eq hbatches,
    h.state_of_alone hr hnative ha (hwalk.trans (List.append_cons ..)), List.map_append, World.grantAll,
    List.foldl_append]
  exact (World.grant_spec (hpasses x hx) hl a).1 u hu

/-- **The export batch starts from the states such an object is in,** and covers none of it twice. -/
theorem PlannedFrom.delivers (h : g.PlannedFrom full) (hr : (g.registry.get k)[n]? = some r)
    (hnative : r.native = some native) (ha : g.Alone k n native) (hrec : Recorded g.settings.events on g.walk blocks)
    (hblocks : log.blocks = blocks ++ exportBlocks exports) (hb : exportBatch g.settings g.registry = .ok exports) :
    g.ExportsObject log exports k native := by
  obtain ⟨batch, hb', hbatch⟩ := exportBatch_inv h.ready g.settings
  obtain rfl : exports = batch := Except.ok.inj (hb.symm.trans hb')
  obtain ⟨hmoves, horigin⟩ := hbatch k
  have hpasses : ∀ x ∈ g.walk, g.passes[x.1]? = some x.2 := fun x hx => (of_mem_walk hx).1
  have hlast : g.nativesAtExport log k native = g.registry.world k n := by
    rw [nativesAtExport, hblocks, hrec.takeWhile_exports, nativesAfter_eq (hrec.batches hpasses),
      h.state_of_alone hr hnative ha (List.append_nil _).symm, h.tracked]
  -- another record of the object is not exported
  have hrecord : ∀ b ∈ exports.get k, b.native = native → b.resource = n := by
    intro b hm hn
    obtain ⟨c, hc, p, rfl⟩ := horigin b hm
    obtain ⟨q, hq, hcq⟩ := @exists_of_mem_exportBarriers k g.registry c hc
    by_contra hne
    have hqn : q.native = some native := (Resource.native_of_mem_exportBarriers hcq).trans (congrArg some hn)
    have hno := (ha c.resource q hq hqn hne).1
    have hyes := (Resource.of_mem_exportBarriers hcq).2
    rw [hno] at hyes
    cases hyes
  have hcovers : ∀ b ∈ exports.get k, b.native = native → ∀ i,
      b.onNative.covers g.registry.nativeLayout i = b.covers g.registry.layout i := by
    intro b hm hn i
    rw [Barrier.covers, Barrier.covers, Barrier.onNative_resource, hn, hrecord b hm hn, h.agree.layout_eq hr hnative]
    rfl
  refine ⟨fun b hm hn i hi => ?_, fun a => (List.countP_mono_left ?_).trans (hmoves.once n a)⟩
  · rw [hcovers b hm hn] at hi
    rw [Barrier.onNative_resource, hn, hlast, ← hrecord b hm hn]
    exact (hmoves.of_mem hm hi).1
  · intro b hm hb
    rw [Bool.and_eq_true, decide_eq_true_eq] at hb
    rw [Bool.and_eq_true, decide_eq_true_eq, ← hcovers b hm hb.1]
    exact ⟨hrecord b hm hb.1, hb.2⟩

end Alone

/-- **An object that is used through one record is guarded,** whatever the settings and whatever other objects are shared:
each pass finds it as it asked for it, and the export batch starts from the states it is in. -/
theorem execute_finds_alone (h : g.Built) (hc : g.compile dev s = .ok (g', .ok stats, s')) (ha : g'.registry.Agree)
    (hn : g'.Countable) (runs : Nat) (syncs : PerQueue Bool) (fences : Fences) :
    let frame := afterRun^[runs] g'
    ∃ log exports, frame.execute syncs fences = .ok (frame.afterRun, log) ∧
      exportBatch frame.settings frame.registry = .ok exports ∧
      ∀ k n r native, (frame.registry.get k)[n]? = some r → r.native = some native → frame.Alone k n native →
        frame.FindsObject log k n native ∧ frame.ExportsObject log exports k native := by
  intro frame
  obtain ⟨full, hfull⟩ := exists_plannedFrom h hc ha hn
  have hp : frame.PlannedFrom full := hfull.afterRuns runs
  obtain ⟨exports, hb, -⟩ := exportBatch_inv hp.ready frame.settings
  obtain ⟨log, blocks, hlog, hblocks, hrec⟩ := execute_recorded hb
  refine ⟨log, exports, hlog, hb, fun k n r native hr hnative halone => ⟨?_, ?_⟩⟩
  · exact hp.finds hr hnative halone hrec hblocks
  · exact hp.delivers hr hnative halone hrec hblocks hb

/-- one pass draws to the texture through its first record, the next one samples it through its second record, and both
records are exported -/
def bypassed : Graph :=
  ((shared {} [[(0, .renderTarget, .write)], [(1, .shaderResource, .read), (2, .renderTarget, .write)]]).exportState
    ⟨.texture, ⟨0, none⟩⟩ .present).exportState ⟨.texture, ⟨1, none⟩⟩ .present

theorem built_bypassed : bypassed.Built := .exportState _ _ (.exportState _ _ (built_shared _ _))

theorem bypassed_compiles : ∃ g' stats s', bypassed.compile CountingDevice.device {} = .ok (g', .ok stats, s') ∧
    g'.registry.Agree ∧ (∀ r ∈ g'.registry.textures, r.bounds.cells ≤ 2 ^ 32) ∧
    g'.registry.textures.map Resource.native = [some 9, some 9, some 10] := by
  have h : (match bypassed.compile CountingDevice.device {} with
      | .ok (g', .ok _, _) => decide g'.registry.Agree &&
          (g'.registry.textures.all fun r => decide (r.bounds.cells ≤ 2 ^ 32)) &&
          decide (g'.registry.textures.map Resource.native = [some 9, some 9, some 10])
      | _ => false) = true := by decide +kernel
  split at h
  · rename_i g' stats s' hc
    simp only [Bool.and_eq_true, decide_eq_true_eq, List.all_eq_true] at h
    exact ⟨g', stats, s', hc, h.1.1, h.1.2, h.2⟩
  · cases h

/-- the other texture has one record: it is a render target when the second pass draws to it -/
theorem execute_finds_alone_bypassed : ∃ g' stats s' log exports,
    bypassed.compile CountingDevice.device {} = .ok (g', .ok stats, s') ∧
      g'.execute (.both true) (.both .new) = .ok (g'.afterRun, log) ∧
      exportBatch g'.settings g'.registry = .ok exports ∧
      g'.FindsObject log .texture 2 10 ∧ g'.ExportsObject log exports .texture 10 := by
  obtain ⟨g', stats, s', hc, ha, hcells, hnatives⟩ := bypassed_compiles
  obtain ⟨log, exports, hlog, hb, halone⟩ :=
    execute_finds_alone built_bypassed hc ha (countable_of_cells hcells) 0 (.both true) (.both .new)
  have hnative : ∀ (m : Nat) (q : Resource .texture), (g'.registry.get .texture)[m]? = some q →
      [some 9, some 9, some 10][m]? = some q.native := by
    intro m q hq
    have hm := congrArg (·[m]?) hnatives
    simp only [List.getElem?_map] at hm
    rw [← hm]
    exact congrArg (Option.map Resource.native) hq
  obtain ⟨r, hr⟩ : ∃ r, (g'.registry.get .texture)[2]? = some r := by
    have hm := congrArg (·[2]?) hnatives
    simp only [List.getElem?_map] at hm
    obtain ⟨r, hr, -⟩ := Option.map_eq_some_iff.1 hm
    exact ⟨r, hr⟩
  refine ⟨g', stats, s', log, exports, hc, hlog, hb, halone .texture 2 r 10 hr ?_ fun m q hq hn hne => ?_⟩
  · exact (Option.some.inj (hnative 2 r hr)).symm
  · -- the records before it are of the first texture, and there are none after it
    have hm := hnative m q hq
    rw [hn] at hm
    match m with
    | 0 => simp at hm
    | 1 => simp at hm
    | 2 => exact absurd rfl hne
    | m + 3 => simp at hm

/-- **An object that is used through two records need not be guarded.** When the second pass samples the texture it still is
a render target: the barrier the pass would need is not among those elimination looks at, because the second record has
been a shader resource all along. And both records are moved to their export state. -/
theorem bypassed_not_found : bypassed.Built ∧ bypassed.settings.eliminate = true ∧ bypassed.settings.onStale = .fault ∧
    ∃ g' stats s' after log exports, bypassed.compile CountingDevice.device {} = .ok (g', .ok stats, s') ∧
      g'.registry.Agree ∧ g'.execute (.both true) (.both .new) = .ok (after, log) ∧
      exportBatch g'.settings g'.registry = .ok exports ∧
      ¬ g'.FindsObject log .texture 1 9 ∧ ¬ g'.ExportsObject log exports .texture 9 := by
  refine ⟨built_bypassed, rfl, rfl, ?_⟩
  have h : (match bypassed.compile CountingDevice.device {} with
      | .ok (g', .ok _, _) =>
        match g'.execute (.both true) (.both .new), exportBatch g'.settings g'.registry with
        | .ok (_, log), .ok exports => decide g'.registry.Agree &&
            decide (g'.registry.layout .texture 1 = some ⟨1, 1⟩) &&
            decide (g'.nativesAtCall log 1 .texture 9 0 = some .renderTarget) &&
            decide (∃ x ∈ g'.walk, x.1 = 1 ∧ x.2.usesOf .texture 1 = [⟨⟨1, none⟩, none, .shaderResource, .read⟩]) &&
            decide ((exports.get .texture).countP
              (fun b => decide (b.native = 9) && b.onNative.covers g'.registry.nativeLayout 0) = 2)
        | _, _ => false
      | _ => false) = true := by decide +kernel
  split at h
  · rename_i g' stats s' hc
    split at h
    · rename_i after log exports hrun hb
      simp only [Bool.and_eq_true, decide_eq_true_eq] at h
      obtain ⟨⟨⟨⟨ha, hl⟩, hstate⟩, x, hx, hindex, huses⟩, hcount⟩ := h
      refine ⟨g', stats, s', after, log, exports, hc, ha, hrun, hb, fun hfinds => ?_, fun hexports => ?_⟩
      · have hfound := hfinds x hx ⟨1, 1⟩ hl 0 ⟨⟨1, none⟩, none, .shaderResource, .read⟩ (by rw [huses]; rfl)
        rw [hindex, hstate] at hfound
        cases hfound
      · have hle := hexports.2 0
        rw [hcount] at hle
        exact absurd hle (by decide)
    · cases h
  · cases h

end Graph

end FrameGraph
