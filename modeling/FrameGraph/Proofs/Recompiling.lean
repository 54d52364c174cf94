/-
A plan depends on what has been declared, and not on what happened to the graph before.

What compiling leaves in a graph lies in four places: the plans of the passes, the tracked states and the writers of the
records, and the order with the statistics. A graph declared afresh (`Graph.afresh`) has none of it: the same settings,
passes that never ran and have no plan, and records that are tracked as a whole in their initial state, by the objects
they have now.

- `Resource.backAll_afresh`: giving every record an object forgets tracked states and writers.
- `compilePasses_of_afresh`: planning forgets old plans, and does not see how often passes ran.
- `compile_eq_afresh`: so a graph with any history compiles to the plan of the graph declared afresh. Compiling it once
  more gives the same graph, without asking the device for anything.
-/
import FrameGraph.Proofs.OneQueue
import FrameGraph.Proofs.Outcomes

namespace FrameGraph

variable {k : ResourceKind} {σ : Type}

/-! ## Declared afresh -/

/-- the record as it was declared, with the object it has now -/
def Resource.afresh (r : Resource k) : Resource k :=
  { Resource.new r.name r.descriptor r.backing r.initial with imported := r.imported, exported := r.exported }

/-- the pass as it was declared -/
def Pass.afresh (p : Pass) : Pass := { name := p.name, kind := p.kind, usages := p.usages, callback := p.callback }

/-- the pass as if it had never run -/
def Pass.unrun (p : Pass) : Pass := { p with runs := 0 }

namespace Graph

/-- the graph declared afresh: the same settings, records and passes, never compiled and never run -/
def afresh (g : Graph) : Graph :=
  { Graph.new g.settings with
    registry := .ofFun fun k => (g.registry.get k).map Resource.afresh
    passes := g.passes.map Pass.afresh }

/-- the graph as if its passes had never run -/
def unrun (g : Graph) : Graph := { g with passes := g.passes.map Pass.unrun }

end Graph

/-- the plan with passes that never ran -/
def Compiled.unrun (plan : Compiled) : Compiled := { plan with passes := plan.passes.map Pass.unrun }

theorem map_afresh_afresh (passes : List Pass) :
    (passes.map Pass.afresh).map Pass.afresh = passes.map Pass.afresh := List.map_map

theorem map_afresh_of_unrun {passes passes' : List Pass} (h : passes.map Pass.unrun = passes'.map Pass.unrun) :
    passes.map Pass.afresh = passes'.map Pass.afresh := by
  have hforget : ∀ passes : List Pass, (passes.map Pass.unrun).map Pass.afresh = passes.map Pass.afresh := fun _ =>
    List.map_map
  rw [← hforget, h, hforget]

/-! ## Objects -/

namespace Resource

variable {dev : Device σ} {s s' : σ}

@[simp] theorem unbacked_afresh (r : Resource k) : r.afresh.unbacked = r.unbacked := rfl

/-- what a record is reset to does not depend on its tracked states and writers -/
theorem fresh_afresh {r : Resource k} (h : r.Coherent) (backing : Option Allocation) :
    Resource.fresh { r.afresh with backing } = Resource.fresh { r with backing } := by
  simp only [fresh, rewind, afresh, Resource.new, Tracker.uniform, Tracker.reset, h.bounds, Resource.bounds]

theorem fresh_fresh (r : Resource k) : r.fresh.fresh = r.fresh := rfl

/-- the first record is given an object, and then the others are -/
theorem backAll_cons_eq_ok {r : Resource k} {rs rs' : List (Resource k)} :
    backAll dev s (r :: rs) = (rs', none, s') ↔
      ∃ q s₁ qs, r.back dev s = (.ok q, s₁) ∧ backAll dev s₁ rs = (qs, none, s') ∧ rs' = q.fresh :: qs := by
  constructor
  · intro hb
    unfold backAll at hb
    split at hb
    · cases hb
    · rename_i q s₁ hq
      simp only [Prod.mk.injEq] at hb
      obtain ⟨rfl, he, rfl⟩ := hb
      exact ⟨q, s₁, _, hq, Prod.ext rfl (Prod.ext he rfl), rfl⟩
  · rintro ⟨q, s₁, qs, hq, hqs, rfl⟩
    simp only [backAll, hq, hqs]

/-- the device answers the same whatever the tracked states and writers, and they are reset -/
theorem back_afresh {r r' : Resource k} {s₁ : σ} (hr : r.Coherent) (hb : r.back dev s = (.ok r', s₁)) :
    ∃ q, r.afresh.back dev s = (.ok q, s₁) ∧ q.fresh = r'.fresh := by
  unfold back at hb ⊢
  rw [unbacked_afresh]
  split at hb
  · rename_i hu
    rw [if_pos hu]
    split at hb
    · rename_i a s₂ ha
      cases hb
      exact ⟨{ r.afresh with backing := some a }, by simp only [afresh, Resource.new, ha], fresh_afresh hr _⟩
    · cases hb
  · rename_i hu
    rw [if_neg hu]
    cases hb
    exact ⟨r.afresh, rfl, fresh_afresh hr r.backing⟩

/-- **Giving every record an object forgets tracked states and writers.** -/
theorem backAll_afresh {rs rs' : List (Resource k)} (h : ∀ r ∈ rs, r.Coherent)
    (hb : backAll dev s rs = (rs', none, s')) : backAll dev s (rs.map afresh) = (rs', none, s') := by
  induction rs generalizing s rs' with
  | nil => exact hb
  | cons r rs ih =>
    obtain ⟨hr, hrs⟩ := List.forall_mem_cons.1 h
    obtain ⟨r', s₁, qs, hr', hqs, rfl⟩ := backAll_cons_eq_ok.1 hb
    obtain ⟨q, hq, hfresh⟩ := back_afresh hr hr'
    exact backAll_cons_eq_ok.2 ⟨q, s₁, qs, hq, ih hrs hqs, by rw [hfresh]⟩

/-- records that need no object are reset, and the device is not asked -/
theorem backAll_backed {rs : List (Resource k)} (h : ∀ r ∈ rs, r.unbacked = false) :
    backAll dev s rs = (rs.map fresh, none, s) := by
  induction rs with
  | nil => rfl
  | cons r rs ih =>
    obtain ⟨hr, hrs⟩ := List.forall_mem_cons.1 h
    simp only [backAll, back_of_backed hr, ih hrs, List.map_cons]

/-- a record that has been given an object needs none, and resetting it again changes nothing -/
theorem backAll_fixed {rs rs' : List (Resource k)} (hb : backAll dev s rs = (rs', none, s')) :
    ∀ r ∈ rs', r.unbacked = false ∧ r.fresh = r := by
  intro r hr
  refine ⟨?_, ?_⟩
  · have hdone := backAll_done dev s rs (by rw [hb])
    rw [hb] at hdone
    rcases (hdone r hr).1 with hi | hi
    · simp [unbacked, hi]
    · simp [unbacked, Option.isNone_eq_false_iff.2 hi]
  · induction rs generalizing s rs' with
    | nil =>
      cases hb
      cases hr
    | cons q rs ih =>
      obtain ⟨q', s₁, qs, -, hqs, rfl⟩ := backAll_cons_eq_ok.1 hb
      rcases List.mem_cons.1 hr with rfl | hr
      · exact fresh_fresh q'
      · exact ih hqs hr

end Resource

namespace Registry

variable {g g' : Registry} {dev : Device σ} {s s' : σ}

/-- backing a registry is backing its textures, then its buffers -/
theorem back_inv (hb : g.back dev s = (g', none, s')) :
    ∃ s₁, Resource.backAll dev s g.textures = (g'.textures, none, s₁) ∧
      Resource.backAll dev s₁ g.buffers = (g'.buffers, none, s') := by
  unfold back at hb
  split at hb
  · cases hb
  · rename_i textures s₁ ht
    simp only [Prod.mk.injEq] at hb
    obtain ⟨rfl, he, rfl⟩ := hb
    exact ⟨s₁, ht, Prod.ext rfl (Prod.ext he rfl)⟩

theorem back_of_backAll {s₁ : σ} (ht : Resource.backAll dev s g.textures = (g'.textures, none, s₁))
    (hb : Resource.backAll dev s₁ g.buffers = (g'.buffers, none, s')) : g.back dev s = (g', none, s') := by
  simp only [back, ht, hb]

theorem back_afresh (h : g.Coherent) (hb : g.back dev s = (g', none, s')) :
    Registry.back dev s (.ofFun fun k => (g.get k).map Resource.afresh) = (g', none, s') := by
  obtain ⟨s₁, ht, hbuf⟩ := back_inv hb
  exact back_of_backAll (Resource.backAll_afresh (h .texture) ht) (Resource.backAll_afresh (h .buffer) hbuf)

/-- **Records that have been given objects need none,** and backing a registry that was planned from them gives back the
records the plan was made from. -/
theorem back_again {passes : List Pass} {indices : List Nat} {raw : Batches} {after : Registry} {τ : Type}
    (h : g.Coherent) (hb : g.back dev s = (g', none, s'))
    (hs : synthesize passes (g'.noteWriters passes) indices = .ok (after, raw)) (dev' : Device τ) (t : τ) :
    after.back dev' t = (g', none, t) := by
  have hopened := (opened_of_back h hb).noteWriters passes
  have hrewind := (synthesize_ready hopened.ready hs).2.1
  obtain ⟨s₁, ht, hbuf⟩ := back_inv hb
  have hfixed : ∀ k, ∀ r ∈ g'.get k, r.unbacked = false ∧ r.fresh = r := by
    intro k
    cases k
    · exact Resource.backAll_fixed ht
    · exact Resource.backAll_fixed hbuf
  -- resetting forgets the tracked states and the writers, which are all that planning changes
  have hback : ∀ k, Resource.backAll dev' t (after.get k) = (g'.get k, none, t) := by
    intro k
    have hunbacked : (after.get k).map Resource.unbacked = (g'.get k).map Resource.unbacked :=
      (map_synthesize (fun _ _ => rfl) hs).trans (map_mapRecords (fun _ _ => rfl) g')
    have hfresh : (after.get k).map Resource.fresh = (g'.get k).map Resource.fresh := by
      have hrew := congrArg (fun g : Registry => (g.get k).map fun r => { r with writers := [] }) hrewind
      calc (after.get k).map Resource.fresh
          = (after.rewind.get k).map fun r => { r with writers := [] } := by
            refine List.ext_getElem? fun n => ?_
            simp only [List.getElem?_map, rewind_getElem?, Option.map_map]
            rfl
        _ = ((g'.noteWriters passes).rewind.get k).map fun r => { r with writers := [] } := hrew
        _ = (g'.get k).map Resource.fresh := by
            refine List.ext_getElem? fun n => ?_
            simp only [List.getElem?_map, rewind_getElem?, noteWriters, getElem?_mapRecords, Option.map_map]
            rfl
    rw [Resource.backAll_backed, hfresh, List.map_congr_left fun r hr => (hfixed k r hr).2, List.map_id']
    intro r hr
    have hmem : r.unbacked ∈ (g'.get k).map Resource.unbacked := hunbacked ▸ List.mem_map_of_mem hr
    obtain ⟨q, hq, hrq⟩ := List.mem_map.1 hmem
    rw [← hrq]
    exact (hfixed k q hq).1
  exact back_of_backAll (hback .texture) (hback .buffer)

end Registry

/-! ## Passes that never ran -/

section Unrun

variable (passes : List Pass) (g : Registry)

theorem writersOf_unrun (key : Key) : writersOf (passes.map Pass.unrun) key = writersOf passes key := by
  simp only [writersOf, List.zipIdx_map, List.filter_map, List.map_map]
  rfl

theorem noteWriters_unrun : g.noteWriters (passes.map Pass.unrun) = g.noteWriters passes := by
  simp only [Registry.noteWriters, writersOf_unrun]

theorem feedsAt_unrun (i j : Nat) : feedsAt (passes.map Pass.unrun) i j = feedsAt passes i j := by
  simp only [feedsAt, List.getElem?_map]
  cases passes[i]? with
  | none => rfl
  | some p => cases passes[j]? <;> rfl

theorem neededPasses_unrun : neededPasses g (passes.map Pass.unrun) = neededPasses g passes := by
  have hroots : visibleWriters g (passes.map Pass.unrun) = visibleWriters g passes := by
    simp only [visibleWriters, List.zipIdx_map, List.filter_map, List.map_map]
    rfl
  have hleads : feedsAt (passes.map Pass.unrun) = feedsAt passes := by
    funext i j
    exact feedsAt_unrun passes i j
  simp only [neededPasses, hroots, hleads, List.length_map]

theorem looksUpRegistered_unrun : looksUpRegistered g (passes.map Pass.unrun) = looksUpRegistered g passes := by
  simp only [looksUpRegistered, neededPasses_unrun, List.all_map, List.getElem?_map, Option.all_map]
  rfl

theorem keptPasses_unrun (cull : Bool) : keptPasses cull g (passes.map Pass.unrun) = keptPasses cull g passes := by
  simp only [keptPasses, looksUpRegistered_unrun, neededPasses_unrun, List.length_map]

theorem synthesize_unrun (indices : List Nat) :
    synthesize (passes.map Pass.unrun) g indices = synthesize passes g indices := by
  induction indices generalizing g with
  | nil => rfl
  | cons i rest ih =>
    simp only [synthesize, List.getElem?_map]
    cases passes[i]? with
    | none => rfl
    | some p =>
      simp only [Option.map_some, ih]
      rfl

theorem afterElimination_unrun (settings : Settings) (order : List Nat) (merged : Batches) :
    afterElimination settings (passes.map Pass.unrun) g order merged =
      afterElimination settings passes g order merged := by
  have hname : ∀ i : Nat, (passes.map Pass.unrun)[i]?.map Pass.name = passes[i]?.map Pass.name := by
    intro i
    rw [List.getElem?_map, Option.map_map]
    rfl
  simp only [afterElimination, hname]

end Unrun

theorem Compiled.assemble_unrun (passes : List Pass) (needed : List Nat) (g : Registry) (raw final : Batches)
    (removed dropped : Nat) : (assemble passes needed g raw final removed dropped).unrun =
      assemble (passes.map Pass.unrun) needed g raw final removed dropped := by
  simp only [Compiled.unrun, assemble, List.length_map, Compiled.mk.injEq, true_and, and_true]
  refine List.ext_getElem? fun i => ?_
  simp only [List.getElem?_map, List.getElem?_mapIdx, Option.map_map]
  rfl

/-- passes that differ in how often they ran at most, and do not -/
theorem eq_of_unrun {passes passes' : List Pass} (h : passes.map Pass.unrun = passes'.map Pass.unrun)
    (hruns : passes.map Pass.runs = passes'.map Pass.runs) : passes = passes' := by
  have hpair : Function.Injective fun p : Pass => (p.unrun, p.runs) := by
    intro p q e
    cases p
    cases q
    simp only [Pass.unrun, Prod.mk.injEq, Pass.mk.injEq] at e ⊢
    tauto
  refine List.map_injective_iff.2 hpair (List.ext_getElem? fun i => ?_)
  have hi := congrArg (·[i]?) h
  have hr := congrArg (·[i]?) hruns
  simp only [List.getElem?_map] at hi hr ⊢
  cases hp : passes[i]? <;> cases hq : passes'[i]? <;> simp_all

/-- **Planning forgets old plans, and does not see how often passes ran.** -/
theorem compilePasses_of_afresh {settings : Settings} {g : Registry} {declared declared' : List Pass} {plan : Compiled}
    (h : declared'.map Pass.afresh = declared.map Pass.afresh) (hp : compilePasses settings g declared = .ok plan) :
    ∃ plan', compilePasses settings g declared' = .ok plan' ∧ plan'.unrun = plan.unrun ∧
      plan'.passes.map Pass.runs = declared'.map Pass.runs := by
  have hsets : (declared'.map Pass.withSets).map Pass.unrun = (declared.map Pass.withSets).map Pass.unrun := by
    have hunrun : ∀ passes : List Pass, (passes.map Pass.withSets).map Pass.unrun =
        (passes.map Pass.afresh).map Pass.withSets := by
      intro passes
      simp only [List.map_map]
      rfl
    rw [hunrun, hunrun, h]
  obtain ⟨needed, registry, raw, merged, final, removed, dropped, hk, hs, hm, hf, rfl⟩ := compilePasses_eq_ok_iff.1 hp
  refine ⟨_, compilePasses_eq_ok_iff.2 ⟨needed, registry, raw, merged, final, removed, dropped, ?_, ?_, hm, ?_, rfl⟩,
    ?_, ?_⟩
  · rw [← noteWriters_unrun, ← keptPasses_unrun, hsets, noteWriters_unrun, keptPasses_unrun]
    exact hk
  · rw [← noteWriters_unrun, ← synthesize_unrun, hsets, noteWriters_unrun, synthesize_unrun]
    exact hs
  · rw [← afterElimination_unrun, hsets, afterElimination_unrun]
    exact hf
  · rw [Compiled.assemble_unrun, hsets, Compiled.assemble_unrun]
  · refine List.ext_getElem? fun i => ?_
    simp only [Compiled.assemble, List.getElem?_map, List.getElem?_mapIdx, Option.map_map]
    rfl

/-- planning keeps what has been declared -/
theorem afresh_compilePasses {settings : Settings} {g : Registry} {declared : List Pass} {plan : Compiled}
    (hp : compilePasses settings g declared = .ok plan) : plan.passes.map Pass.afresh = declared.map Pass.afresh := by
  obtain ⟨needed, registry, raw, merged, final, removed, dropped, -, -, -, -, rfl⟩ := compilePasses_eq_ok_iff.1 hp
  refine List.ext_getElem? fun i => ?_
  simp only [Compiled.assemble, List.getElem?_map, List.getElem?_mapIdx, Option.map_map]
  rfl

/-! ## Graphs with a history -/

namespace Graph

variable {g g' : Graph} {dev : Device σ} {s s' : σ} {stats : Stats}

/-- graphs that differ in how often their passes ran at most -/
theorem unrun_eq_iff : g.unrun = g'.unrun ↔ g.settings = g'.settings ∧ g.registry = g'.registry ∧
    g.passes.map Pass.unrun = g'.passes.map Pass.unrun ∧ g.order = g'.order ∧ g.compiled = g'.compiled ∧
    g.stats = g'.stats := by
  simp only [unrun, Graph.mk.injEq]

/-- running a graph changes how often its passes ran, and nothing else -/
theorem unrun_afterRuns (g : Graph) (runs : Nat) : (afterRun^[runs] g).unrun = g.unrun := by
  induction runs with
  | zero => rfl
  | succ runs ih =>
    rw [Function.iterate_succ_apply', ← ih, unrun_eq_iff]
    refine ⟨rfl, rfl, ?_, rfl, rfl, rfl⟩
    refine List.ext_getElem? fun i => ?_
    simp only [afterRun, List.getElem?_map, List.getElem?_mapIdx, Option.map_map]
    rfl

/-- graphs that declare the same and start from the same objects compile to the same plan -/
theorem compile_of_same {declared : Graph} {registry : Registry} {plan : Compiled}
    (hb : g.registry.back dev s = (registry, none, s')) (hsettings : g.settings = declared.settings)
    (hpasses : g.passes.map Pass.afresh = declared.passes.map Pass.afresh)
    (hp : compilePasses declared.settings registry declared.passes = .ok plan) :
    ∃ passes, g.compile dev s = .ok (⟨declared.settings, plan.registry, passes, plan.order, true, plan.stats⟩,
        .ok plan.stats, s') ∧
      passes.map Pass.unrun = plan.passes.map Pass.unrun ∧ passes.map Pass.runs = g.passes.map Pass.runs := by
  obtain ⟨plan', hp', he, hruns⟩ := compilePasses_of_afresh hpasses hp
  simp only [Compiled.unrun, Compiled.mk.injEq] at he
  obtain ⟨hregistry, hunrun, horder, hstats⟩ := he
  refine ⟨plan'.passes, ?_, hunrun, hruns⟩
  rw [compile_of_back hb, hsettings, hp', ← hregistry, ← horder, ← hstats]
  rfl

/-- a graph that never ran compiles to passes that never ran -/
theorem compile_of_unrun {declared : Graph} {registry : Registry} {plan : Compiled} (hnever : ∀ p ∈ g.passes, p.runs = 0)
    (hb : g.registry.back dev s = (registry, none, s')) (hsettings : g.settings = declared.settings)
    (hpasses : g.passes.map Pass.afresh = declared.passes.map Pass.afresh)
    (hp : compilePasses declared.settings registry declared.passes = .ok plan) :
    g.compile dev s =
      .ok (⟨declared.settings, plan.registry, plan.passes.map Pass.unrun, plan.order, true, plan.stats⟩,
        .ok plan.stats, s') := by
  obtain ⟨passes, hc, hunrun, hruns⟩ := compile_of_same hb hsettings hpasses hp
  have hkept : ∀ p ∈ passes, p.unrun = p := by
    intro p hm
    have hmem : p.runs ∈ g.passes.map Pass.runs := hruns ▸ List.mem_map_of_mem hm
    obtain ⟨q, hq, hrun⟩ := List.mem_map.1 hmem
    rw [Pass.unrun, show 0 = p.runs from (hnever q hq).symm.trans hrun]
  rw [hc, ← hunrun, List.map_congr_left hkept, List.map_id']

theorem runs_of_afresh {passes : List Pass} : ∀ p ∈ passes.map Pass.afresh, p.runs = 0 := by
  intro p hp
  obtain ⟨q, -, rfl⟩ := List.mem_map.1 hp
  rfl

/-- a graph declared afresh compiles to passes that never ran -/
theorem afresh_compile_of_same {declared : Graph} {registry : Registry} {plan : Compiled}
    (hb : g.afresh.registry.back dev s = (registry, none, s')) (hsettings : g.settings = declared.settings)
    (hpasses : g.passes.map Pass.afresh = declared.passes.map Pass.afresh)
    (hp : compilePasses declared.settings registry declared.passes = .ok plan) :
    g.afresh.compile dev s =
      .ok (⟨declared.settings, plan.registry, plan.passes.map Pass.unrun, plan.order, true, plan.stats⟩,
        .ok plan.stats, s') :=
  compile_of_unrun runs_of_afresh hb hsettings ((map_afresh_afresh g.passes).trans hpasses) hp

/-- what a compiled graph and the graph it came from have in common -/
theorem compile_again (h : g.Built) (hc : g.compile dev s = .ok (g', .ok stats, s')) :
    ∃ registry plan, compilePasses g.settings registry g.passes = .ok plan ∧
      g.registry.back dev s = (registry, none, s') ∧
      (∀ (τ : Type) (dev' : Device τ) (t : τ), g'.registry.back dev' t = (registry, none, t)) ∧
      g' = ⟨g.settings, plan.registry, plan.passes, plan.order, true, plan.stats⟩ ∧ stats = plan.stats := by
  obtain ⟨registry, plan, hb, hp, hg⟩ := compile_inv hc
  rw [compile_of_back hb, hp] at hc
  refine ⟨registry, plan, hp, hb, fun τ dev' t => ?_, hg, ?_⟩
  · obtain ⟨needed, after, raw, _, _, _, _, -, hs, -, -, hplan⟩ := compilePasses_eq_ok_iff.1 hp
    have hregistry : g'.registry = after := by
      rw [hg, hplan]
      rfl
    rw [hregistry]
    exact Registry.back_again h.coherent hb hs dev' t
  · cases hc
    rfl

/-- **A plan depends on what has been declared, and not on the history of the graph.** The graph declared afresh compiles
to the same plan, whether its own resources still need objects or have them. Compiling once more, after any number of
runs, changes nothing, and no object is asked for. -/
theorem compile_eq_afresh (h : g.Built) (hc : g.compile dev s = .ok (g', .ok stats, s')) :
    g.afresh.compile dev s = .ok (g'.unrun, .ok stats, s') ∧
      ∀ (τ : Type) (dev' : Device τ) (t : τ),
        g'.afresh.compile dev' t = .ok (g'.unrun, .ok stats, t) ∧
          ∀ runs, (afterRun^[runs] g').compile dev' t = .ok (afterRun^[runs] g', .ok stats, t) ∧
            (afterRun^[runs] g').createCalls dev' t = [] := by
  have hcoherent : g'.registry.Coherent := (Built.compile h hc).coherent
  obtain ⟨registry, plan, hp, hb, hagain, hg, rfl⟩ := compile_again h hc
  have hsettings : g'.settings = g.settings := by rw [hg]
  have hkeeps : g'.passes.map Pass.afresh = g.passes.map Pass.afresh := by
    rw [hg]
    exact afresh_compilePasses hp
  have hunrun : g'.unrun = ⟨g.settings, plan.registry, plan.passes.map Pass.unrun, plan.order, true, plan.stats⟩ := by
    rw [hg]
    rfl
  rw [hunrun]
  refine ⟨?_, fun τ dev' t => ⟨?_, fun runs => ?_⟩⟩
  · exact afresh_compile_of_same (Registry.back_afresh h.coherent hb) rfl rfl hp
  · exact afresh_compile_of_same (Registry.back_afresh hcoherent (hagain τ dev' t)) hsettings hkeeps hp
  · have hframe := unrun_eq_iff.1 (unrun_afterRuns g' runs)
    generalize afterRun^[runs] g' = frame at hframe
    subst hg
    obtain ⟨settings, registry', passes', order, compiled, stats⟩ := frame
    obtain ⟨rfl, rfl, hps, rfl, rfl, rfl⟩ := hframe
    let frame : Graph := ⟨g.settings, plan.registry, passes', plan.order, true, plan.stats⟩
    change frame.compile dev' t = .ok (frame, .ok plan.stats, t) ∧ frame.createCalls dev' t = []
    refine ⟨?_, ?_⟩
    · obtain ⟨passes, hc, hun, hruns⟩ := compile_of_same (g := frame) (hagain τ dev' t) hsettings
        ((map_afresh_of_unrun hps).trans hkeeps) hp
      obtain rfl : passes = passes' := eq_of_unrun (hun.trans hps.symm) hruns
      exact hc
    · have hlogged := back_logged frame dev' t
      rw [hagain] at hlogged
      exact List.map_eq_nil_iff.1 hlogged.symm

/-- the sample graph with a history: a compile runs out of memory, the next one succeeds, the frame runs, and then its
texture is to be left in another state -/
theorem sample_with_history : ∃ (g g' : Graph) (stats : Stats) (s s' : CountingDevice),
    g.Built ∧ g.compile CountingDevice.device s = .ok (g', .ok stats, s') ∧ g.passes.map Pass.runs = [1, 1] := by
  have h : (match sample.compile CountingDevice.device (({} : CountingDevice).failAfter 0 .outOfMemory) with
      | .ok (g₁, .error _, _) =>
        match g₁.compile CountingDevice.device {} with
        | .ok (g₂, .ok _, s₂) =>
          let g := g₂.afterRun.exportState ⟨.texture, ⟨0, none⟩⟩ .copySource
          match g.compile CountingDevice.device s₂ with
          | .ok (_, .ok _, _) => decide (g.passes.map Pass.runs = [1, 1])
          | _ => false
        | _ => false
      | _ => false) = true := by decide +kernel
  split at h
  · rename_i g₁ e s₁ h₁
    split at h
    · rename_i g₂ stats₂ s₂ h₂
      dsimp only at h
      split at h
      · rename_i g₃ stats₃ s₃ h₃
        have hbuilt : (g₂.afterRun.exportState ⟨.texture, ⟨0, none⟩⟩ .copySource).Built :=
          .exportState _ _ (.afterRun (.compile (.compile built_sample h₁) h₂))
        exact ⟨_, g₃, stats₃, s₂, s₃, hbuilt, h₃, of_decide_eq_true h⟩
      · cases h
    · cases h
  · cases h

/-- its last plan is the one of the sample declared afresh, with the object the texture has by then -/
theorem compile_eq_afresh_sample : ∃ (g g' : Graph) (stats : Stats) (s s' : CountingDevice),
    g.compile CountingDevice.device s = .ok (g', .ok stats, s') ∧ g.passes.map Pass.runs = [1, 1] ∧
      g.afresh.compile CountingDevice.device s = .ok (g'.unrun, .ok stats, s') ∧
        ∀ (τ : Type) (dev' : Device τ) (t : τ),
          g'.afresh.compile dev' t = .ok (g'.unrun, .ok stats, t) ∧
            ∀ runs, (afterRun^[runs] g').compile dev' t = .ok (afterRun^[runs] g', .ok stats, t) ∧
              (afterRun^[runs] g').createCalls dev' t = [] := by
  obtain ⟨g, g', stats, s, s', hbuilt, hc, hruns⟩ := sample_with_history
  exact ⟨g, g', stats, s, s', hc, hruns, compile_eq_afresh hbuilt hc⟩

end Graph

end FrameGraph
