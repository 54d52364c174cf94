/-
How compiling a graph ends.

Compiling looks up records by index, cuts and joins parts, adds sizes and counts, and replays barriers. On a graph made
through the public calls none of this goes wrong: a usage names a registered resource (`Graph.Registered`), every record
is ready once it has an object, and the barriers of a pass start from the states the passes before it leave. What can
still fault is a kept pass that asks for a state its kind cannot use.

- `Built.registered`: the usages of a built graph name registered resources.
- `synthesize_outcome`: barriers are made for all passes, or one of them asks for a state its kind cannot use.
- `compilePasses_outcome`: neither merging nor elimination adds a fault.
- `compile_outcomes`: compiling answers an error if and only if the device refuses an object, and it faults if and only
  if a kept pass is at fault.
-/
import FrameGraph.Proofs.Creation
import FrameGraph.Proofs.Culling

namespace FrameGraph

variable {k : ResourceKind} {σ : Type}

/-! ## Registered resources -/

namespace Registry

variable {g g' g'' : Registry}

/-- every handle into the first registry is one into the second -/
def Grows (g g' : Registry) : Prop := ∀ k, (g.get k).length ≤ (g'.get k).length

theorem Grows.refl (g : Registry) : g.Grows g := fun _ => le_rfl

theorem Grows.trans (h : g.Grows g') (h' : g'.Grows g'') : g.Grows g'' := fun k => (h k).trans (h' k)

theorem Grows.contains (h : g.Grows g') {key : Key} (hkey : g.contains key = true) : g'.contains key = true := by
  rw [Registry.contains, decide_eq_true_eq] at hkey ⊢
  exact hkey.trans_le (h key.kind)

/-- registries with as many records -/
theorem grows_of_map (h : ∀ k, (g'.get k).map (fun _ => ()) = (g.get k).map fun _ => ()) : g.Grows g' := by
  intro k
  have hlen := congrArg List.length (h k)
  rw [List.length_map, List.length_map] at hlen
  exact hlen.ge

theorem grows_mapRecords (g : Registry) (f : (k : ResourceKind) → Nat → Resource k → Resource k) :
    g.Grows (g.mapRecords f) :=
  grows_of_map fun _ => map_mapRecords (fun _ _ => rfl) g

theorem grows_register (g : Registry) (r : Nat → Resource k) : g.Grows (g.register r).1 := by
  intro k'
  cases k <;> cases k' <;> simp [register, Both.set, Both.get]

theorem grows_create (g : Registry) (d : k.Descriptor) : g.Grows (g.create d).1 := g.grows_register _

theorem grows_importNative (g : Registry) (native : Nat) (d : k.Descriptor) (s : ResourceState) :
    g.Grows (g.importNative native d s).1 :=
  g.grows_register _

theorem grows_export {key : Key} {s : ResourceState} (h : g.export? key s = some g') : g.Grows g' := by
  obtain ⟨kind, index⟩ := key
  unfold export? at h
  split at h
  · cases h
    intro k'
    cases kind <;> cases k' <;> simp [Both.set, Both.get]
  · cases h

theorem grows_back (dev : Device σ) (s : σ) (g : Registry) : g.Grows (g.back dev s).1 :=
  grows_of_map fun _ => map_back (fun _ _ _ _ => rfl) dev s g

theorem grows_synthesize {passes : List Pass} {indices : List Nat} {batches : Batches}
    (hs : synthesize passes g indices = .ok (g', batches)) : g.Grows g' :=
  grows_of_map fun _ => map_synthesize (fun _ _ => rfl) hs

end Registry

/-- setup calls declare usages of registered resources only -/
theorem Setup.registered (kind : PassKind) (g : Registry) (calls : List SetupCall) :
    g.Grows (Setup.run kind g calls).1 ∧
      ∀ u ∈ (Setup.run kind g calls).2.1, (Setup.run kind g calls).1.contains u.key = true := by
  induction calls generalizing g with
  | nil => exact ⟨.refl g, fun _ hu => (List.not_mem_nil hu).elim⟩
  | cons call rest ih =>
    have hstep : g.Grows (Setup.reply kind g call).1 := by
      cases call with
      | create k d => exact g.grows_create d
      | access _ _ _ => exact .refl g
      | writeDepth _ => exact .refl g
      | readDepth _ => exact .refl g
      | kind => exact .refl g
    obtain ⟨hgrows, hlater⟩ := ih (Setup.reply kind g call).1
    refine ⟨hstep.trans hgrows, fun u hu => ?_⟩
    rcases List.mem_append.1 hu with hu | hu
    · exact (hstep.trans hgrows).contains (List.mem_filter.1 hu).2
    · exact hlater u hu

namespace Graph

variable {g g' : Graph} {dev : Device σ} {s s' : σ}

/-- every usage names a registered resource -/
def Registered (g : Graph) : Prop := ∀ p ∈ g.passes, ∀ u ∈ p.usages, g.registry.contains u.key = true

/-- usages stay registered while resources are added and the usages of passes stay the same -/
theorem Registered.mono (h : g.Registered) (hr : g.registry.Grows g'.registry)
    (hp : ∀ p ∈ g'.passes, ∃ q ∈ g.passes, p.usages = q.usages) : g'.Registered := by
  intro p hm u hu
  obtain ⟨q, hq, e⟩ := hp p hm
  exact hr.contains (h q hq u (e ▸ hu))

theorem Registered.invalidate (h : g.Registered) : g.invalidate.Registered := by
  unfold Graph.invalidate
  split
  · refine h.mono (g.registry.grows_mapRecords _) fun p hp => ?_
    obtain ⟨q, hq, rfl⟩ := List.mem_map.1 hp
    exact ⟨q, hq, rfl⟩
  · exact h

/-- **The usages of a built graph name registered resources,** whatever handles its setup calls were given. -/
theorem Built.registered (h : g.Built) : g.Registered := by
  induction h with
  | new _ => exact fun p hp => (List.not_mem_nil hp).elim
  | create k d _ ih => exact ih.invalidate.mono (Registry.grows_create _ d) fun p hp => ⟨p, hp, rfl⟩
  | importNative k native d s _ ih =>
    exact ih.invalidate.mono (Registry.grows_importNative _ native d s) fun p hp => ⟨p, hp, rfl⟩
  | exportState h s _ ih =>
    unfold Graph.exportState
    split
    · rename_i registry he
      refine Registered.invalidate (ih.mono ?_ fun p hp => ⟨p, hp, rfl⟩)
      exact Registry.grows_export he
    · exact ih
  | @addPass g name kind setup callback _ ih =>
    obtain ⟨hgrows, hdeclared⟩ := Setup.registered kind g.invalidate.registry setup
    intro p hp u hu
    rcases List.mem_append.1 hp with hp | hp
    · exact hgrows.contains (ih.invalidate p hp u hu)
    · rw [List.mem_singleton.1 hp] at hu
      exact hdeclared u hu
  | @compile g g' _ dev s s' answer _ hc ih =>
    cases answer with
    | error e =>
      rw [compile_error_inv hc]
      refine ih.mono (Registry.grows_back dev s _) fun p hp => ?_
      exact ⟨p, hp, rfl⟩
    | ok stats =>
      obtain ⟨needed, final, raw, -, hs, -, -, hpasses⟩ := compile_passes hc
      have hgrows : g.registry.Grows g'.registry :=
        ((Registry.grows_back dev s _).trans (Registry.grows_mapRecords _ _)).trans (Registry.grows_synthesize hs)
      refine ih.mono hgrows fun p hp => ?_
      obtain ⟨i, hi⟩ := List.mem_iff_getElem?.1 hp
      rw [hpasses] at hi
      obtain ⟨q, hq, rfl⟩ := Option.map_eq_some_iff.1 hi
      exact ⟨q, List.mem_of_getElem? hq, rfl⟩
  | @afterRun g _ ih =>
    refine ih.mono (.refl _) fun p hp => ?_
    obtain ⟨i, hi⟩ := List.mem_iff_getElem?.1 hp
    rw [Graph.afterRun, List.getElem?_mapIdx] at hi
    obtain ⟨q, hq, rfl⟩ := Option.map_eq_some_iff.1 hi
    exact ⟨q, List.mem_of_getElem? hq, rfl⟩
  | clear _ _ => exact fun p hp => (List.not_mem_nil hp).elim

end Graph

/-- a search over registered resources finds every record it looks up -/
theorem exists_keptPasses {g : Registry} {passes : List Pass} (cull : Bool)
    (h : ∀ p ∈ passes, ∀ u ∈ p.usages, g.contains u.key = true) :
    ∃ needed, keptPasses cull g (passes.map Pass.withSets) = .ok needed := by
  unfold keptPasses
  cases cull with
  | false => exact ⟨_, rfl⟩
  | true =>
    have hfound : looksUpRegistered g (passes.map Pass.withSets) = true := by
      rw [looksUpRegistered, Bool.and_eq_true, List.all_eq_true, List.all_eq_true]
      refine ⟨fun p hp => List.all_eq_true.2 fun key hkey => ?_, fun i _ => ?_⟩
      · obtain ⟨d, hd, rfl⟩ := List.mem_map.1 hp
        have hwrite : key ∈ d.writeKeys := by
          have hmem := (List.takeWhile_sublist _).subset hkey
          rcases List.mem_append.1 hmem with hm | hm
          · exact (List.mem_filter.1 hm).1
          · exact (List.mem_filter.1 hm).1
        obtain ⟨u, hu, -, rfl⟩ := Pass.mem_writeKeys.1 hwrite
        exact h d hd u hu
      · rw [Option.all_eq_true]
        intro p hp
        obtain ⟨d, hd, hr, -⟩ := getElem?_withSets hp
        rw [hr]
        refine List.all_eq_true.2 fun key hkey => ?_
        obtain ⟨u, hu, -, rfl⟩ := Pass.mem_readKeys.1 hkey
        exact h d (List.mem_of_getElem? hd) u hu
    exact ⟨_, by rw [if_pos rfl, if_pos hfound]⟩

/-! ## Passes at fault -/

theorem Pass.of_illegal? {p : Pass} {u : Usage} (h : p.illegal? = some u) :
    u ∈ p.usages ∧ p.kind.allows u.state = false :=
  ⟨List.mem_of_find?_eq_some h, by simpa using List.find?_some h⟩

theorem Pass.illegal?_eq_none {p : Pass} : p.illegal? = none ↔ ∀ u ∈ p.usages, p.kind.allows u.state = true := by
  simp [illegal?, List.find?_eq_none]

variable {g g' : Registry} {passes declared : List Pass} {needed indices : List Nat} {batches raw merged : Batches}

/-- **Making barriers faults on a pass that asks for a state its kind cannot use,** and on nothing else. -/
theorem synthesize_outcome (h : g.Ready) (hi : ∀ i ∈ indices, i < passes.length) :
    (∃ i ∈ indices, ∃ p u, passes[i]? = some p ∧ u ∈ p.usages ∧ p.kind.allows u.state = false ∧
      synthesize passes g indices = .error (.stateNotAllowed p.name p.kind u.state)) ∨
    ((∀ i ∈ indices, ∀ p, passes[i]? = some p → ∀ u ∈ p.usages, p.kind.allows u.state = true) ∧
      ∃ g' batches, synthesize passes g indices = .ok (g', batches)) := by
  induction indices generalizing g with
  | nil => exact Or.inr ⟨fun _ hi => (List.not_mem_nil hi).elim, g, [], rfl⟩
  | cons i rest ih =>
    obtain ⟨hlt, hrest⟩ := List.forall_mem_cons.1 hi
    obtain ⟨p, hp⟩ : ∃ p, passes[i]? = some p := ⟨_, List.getElem?_eq_getElem hlt⟩
    cases hl : p.illegal? with
    | some u =>
      obtain ⟨hu, ha⟩ := Pass.of_illegal? hl
      refine Or.inl ⟨i, List.mem_cons_self, p, u, hp, hu, ha, ?_⟩
      simp only [synthesize, hp, hl]
    | none =>
      have hstep : synthesize passes g (i :: rest) =
          (synthesize passes (p.advance g) rest).map fun x => (x.1, (i, p.barriersFrom g) :: x.2) :=
        synthesize_legal h hp hl
      rcases ih (Pass.ready_advance h) hrest with ⟨j, hj, q, u, hq, hu, ha, e⟩ | ⟨hlegal, g', batches, e⟩
      · refine Or.inl ⟨j, List.mem_cons_of_mem i hj, q, u, hq, hu, ha, ?_⟩
        rw [hstep, e]
        rfl
      · refine Or.inr ⟨List.forall_mem_cons.2 ⟨fun q hq => ?_, hlegal⟩, g', (i, p.barriersFrom g) :: batches, ?_⟩
        · rw [hp] at hq
          rw [← Option.some.inj hq]
          exact Pass.illegal?_eq_none.1 hl
        · rw [hstep, e]
          rfl

/-! ## The stages -/

/-- the barriers can be counted, and each is left in the end, merged away or dropped -/
structure Stats.Fits (stats : Stats) : Prop where
  raw : stats.rawTextureBarriers + stats.rawBufferBarriers ≤ maxWord64
  total : stats.mergedAway + stats.redundantDropped + (stats.textureBarriers + stats.bufferBarriers) =
    stats.rawTextureBarriers + stats.rawBufferBarriers

variable {settings : Settings}

/-- compiling stops where making barriers does -/
theorem compilePasses_error {fault : Fault}
    (hk : keptPasses settings.cull (g.noteWriters (declared.map Pass.withSets)) (declared.map Pass.withSets) = .ok needed)
    (hs : synthesize (declared.map Pass.withSets) (g.noteWriters (declared.map Pass.withSets)) needed = .error fault) :
    compilePasses settings g declared = .error fault := by
  rw [compilePasses_of_kept hk, hs]
  rfl

/-- barriers that can be counted are merged without fault, if they are -/
theorem afterMerging_ok (he : raw.Exact g passes needed) (hraw : raw.count ≤ maxWord64) :
    ∃ merged removed, afterMerging settings g raw = .ok (merged, removed) ∧ merged.Exact g passes needed ∧
      removed + merged.count = raw.count := by
  unfold afterMerging
  split
  · obtain ⟨merged, removed, hm, hcount⟩ := he.granted.mergeAll_ok hraw
    exact ⟨merged, removed, hm, he.mergeAll hm, hcount⟩
  · exact ⟨raw, 0, rfl, he, Nat.zero_add _⟩

/-- noting writers and making barriers change the writers and the tracked states of a record, and nothing else -/
theorem map_planned {α : Type} {q : Resource k → α}
    (hq : ∀ (r : Resource k) tracker writers, q { r with tracker, writers } = q r)
    (hs : synthesize passes (g.noteWriters passes) needed = .ok (g', raw)) : (g'.get k).map q = (g.get k).map q := by
  calc (g'.get k).map q
      = ((g.noteWriters passes).get k).map q := map_synthesize (fun r t => hq r t r.writers) hs
    _ = (g.get k).map q := Registry.map_mapRecords (fun _ r => hq r r.tracker _) g

/-- **Merging and elimination add no fault.** If no two records share an object, compiling faults on a kept pass that
asks for a state its kind cannot use, or it gets through, as far as the barriers it makes can be counted. -/
theorem compilePasses_outcome (settings : Settings) (h : g.Opened) (hd : g.Distinct)
    (hc : ∀ p ∈ declared, p.Countable g.layout) (hr : ∀ p ∈ declared, ∀ u ∈ p.usages, g.contains u.key = true) :
    let passes := declared.map Pass.withSets
    let records := g.noteWriters passes
    ∃ needed, keptPasses settings.cull records passes = .ok needed ∧
      ((∃ i ∈ needed, ∃ p u, declared[i]? = some p ∧ u ∈ p.usages ∧ p.kind.allows u.state = false ∧
          compilePasses settings g declared = .error (.stateNotAllowed p.name p.kind u.state)) ∨
        (∀ i ∈ needed, ∀ p, declared[i]? = some p → ∀ u ∈ p.usages, p.kind.allows u.state = true) ∧
          ∃ after raw, synthesize passes records needed = .ok (after, raw) ∧
            (raw.count ≤ maxWord64 → ∃ plan, compilePasses settings g declared = .ok plan ∧ plan.stats.Fits)) := by
  intro passes records
  have hopened : records.Opened := h.noteWriters passes
  have hcontains : ∀ p ∈ declared, ∀ u ∈ p.usages, records.contains u.key = true := fun p hp u hu =>
    (g.grows_mapRecords _).contains (hr p hp u hu)
  obtain ⟨needed, hk⟩ := exists_keptPasses settings.cull hcontains
  obtain ⟨hasc, hlt⟩ := ascending_of_keptPasses hk
  refine ⟨needed, hk, ?_⟩
  rcases synthesize_outcome hopened.ready hlt with ⟨i, hi, p, u, hp, hu, ha, hs⟩ | ⟨hlegal, after, raw, hs⟩
  · obtain ⟨d, hd, rfl⟩ := Option.map_eq_some_iff.1 ((List.getElem?_map ..).symm.trans hp)
    exact Or.inl ⟨i, hi, d, u, hd, hu, ha, compilePasses_error hk hs⟩
  · refine Or.inr ⟨fun i hi p hp => ?_, after, raw, hs, fun hraw => ?_⟩
    · exact hlegal i hi p.withSets (getElem?_withSets_of_some hp)
    · -- the records after synthesis have the objects and sizes they had before
      have hnative : after.Distinct := hd.congr fun _ => map_planned (fun _ _ _ => rfl) hs
      have hlayout : after.layout = g.layout := Registry.layout_congr fun _ => map_planned (fun _ _ _ => rfl) hs
      have hcount : ∀ p ∈ passes, p.Countable after.layout := by
        intro p hp
        obtain ⟨d, hd, rfl⟩ := List.mem_map.1 hp
        rw [hlayout]
        exact hc d hd
      obtain ⟨hexact, -, -⟩ := Batches.Exact.synthesize hopened hcount hs
      obtain ⟨merged, removed, hm, hmerged, hcounts⟩ := afterMerging_ok hexact hraw
      rw [compilePasses_of_stages hk hs hm, afterElimination_of_exact hmerged hnative (hasc.imp Nat.ne_of_lt)]
      exact ⟨_, rfl, hraw, hcounts⟩

/-! ## Compiling a graph -/

namespace Graph

variable {g : Graph} {dev : Device σ} {s : σ}

/-- what is said of every success can be looked at -/
instance decidableForallOk {α ε : Type} {P : α → Prop} [DecidablePred P] :
    (x : Except ε α) → Decidable (∀ a, x = .ok a → P a)
  | .ok a => decidable_of_iff (P a) ⟨fun h _ e => Except.ok.inj e ▸ h, fun h => h a rfl⟩
  | .error _ => .isTrue nofun

/-- how many barriers the kept passes need before any are merged -/
def rawBarriers (g : Graph) (dev : Device σ) (s : σ) : Except Fault Nat := do
  let passes := g.passes.map Pass.withSets
  let records := (g.registry.back dev s).1.noteWriters passes
  let needed ← keptPasses g.settings.cull records passes
  let (_, raw) ← synthesize passes records needed
  return raw.count

/-- if no object is refused, compiling faults on a kept pass that asks for a state its kind cannot use, or succeeds -/
theorem compile_of_accepted (h : g.Built) (hcalls : ∀ c ∈ g.createCalls dev s, c.error? = none)
    (hd : (g.registry.back dev s).1.Distinct) (hn : g.Countable)
    (hfit : ∀ n, g.rawBarriers dev s = .ok n → n ≤ maxWord64) :
    (∃ i p u, g.Kept i ∧ g.passes[i]? = some p ∧ u ∈ p.usages ∧ p.kind.allows u.state = false ∧
      g.compile dev s = .error (.stateNotAllowed p.name p.kind u.state)) ∨
    (∀ i p u, g.Kept i → g.passes[i]? = some p → u ∈ p.usages → p.kind.allows u.state = true) ∧
      ∃ g' stats s', g.compile dev s = .ok (g', .ok stats, s') ∧ stats.Fits := by
  obtain ⟨registry, s', hb⟩ : ∃ registry s', g.registry.back dev s = (registry, none, s') :=
    ⟨_, _, Prod.ext rfl (Prod.ext (back_of_accepted hcalls) rfl)⟩
  have hopened : registry.Opened := Registry.opened_of_back h.coherent hb
  have hlayout : registry.layout = g.registry.layout := by
    have hback : (g.registry.back dev s).1.layout = g.registry.layout :=
      Registry.layout_congr fun _ => Registry.map_back (fun _ _ _ _ => rfl) dev s g.registry
    rwa [hb] at hback
  have hgrows : g.registry.Grows registry := by
    have hback := Registry.grows_back dev s g.registry
    rwa [hb] at hback
  have hvisible := Registry.visible_opened dev s g.registry (g.passes.map Pass.withSets)
  rw [rawBarriers] at hfit
  rw [hb] at hd hfit hvisible
  have hcount : ∀ p ∈ g.passes, p.Countable registry.layout := by
    rw [hlayout]
    exact hn
  have hregistered : ∀ p ∈ g.passes, ∀ u ∈ p.usages, registry.contains u.key = true := fun p hp u hu =>
    hgrows.contains (h.registered p hp u hu)
  obtain ⟨needed, hk, hend⟩ := compilePasses_outcome g.settings hopened hd hcount hregistered
  have hkept : ∀ i, i ∈ needed ↔ g.Kept i := fun i => mem_keptPasses hk hvisible
  rw [compile_of_back hb]
  rcases hend with ⟨i, hi, p, u, hp, hu, ha, hfault⟩ | ⟨hlegal, after, raw, hs, hplan⟩
  · refine Or.inl ⟨i, p, u, (hkept i).1 hi, hp, hu, ha, ?_⟩
    rw [hfault]
    rfl
  · have hraw : raw.count ≤ maxWord64 := by
      refine hfit raw.count ?_
      simp only [hk, hs, bind, Except.bind]
      rfl
    obtain ⟨plan, hp, hfits⟩ := hplan hraw
    rw [hp]
    exact Or.inr ⟨fun i p u hi hp hu => hlegal i ((hkept i).2 hi) p hp u hu, _, plan.stats, s', rfl, hfits⟩

/-- the passes that execute are the ones in the compiled order -/
theorem executed_of_compile {g' : Graph} {stats : Stats} {s' : σ} (hc : g.compile dev s = .ok (g', .ok stats, s')) :
    stats.executed = .ok g'.order.length := by
  obtain ⟨registry, plan, hb, hp, rfl⟩ := compile_inv hc
  rw [compile_of_back hb, hp] at hc
  cases hc
  obtain ⟨needed, after, raw, merged, final, removed, dropped, hk, -, -, -, rfl⟩ := compilePasses_eq_ok_iff.1 hp
  obtain ⟨q, hq⟩ := exists_filter_of_keptPasses hk
  have hle : needed.length ≤ (g.passes.map Pass.withSets).length := by
    rw [hq]
    exact (List.length_filter_le _ _).trans List.length_range.le
  simp only [Compiled.assemble, Stats.executed, checkedSub_eq_ok (Nat.sub_le _ _), Nat.sub_sub_self hle]

/-- **How compiling ends.** The device is sent the requests of the create calls. If one of them is refused, compiling
answers its error. Otherwise it faults if and only if a kept pass asks for a state its kind cannot use, with the name of
such a pass, and if it gets through, the counts it answers add up. -/
theorem compile_outcomes (h : g.Built) (dev : Device σ) (s : σ) :
    (g.registry.back dev.logged (s, [])).2.2.2 = (g.createCalls dev s).map CreateCall.request ∧
    (∀ e, (∃ g' s', g.compile dev s = .ok (g', .error e, s')) ↔ ∃ c ∈ g.createCalls dev s, c.error? = some e) ∧
    ((∀ c ∈ g.createCalls dev s, c.error? = none) → (g.registry.back dev s).1.Distinct → g.Countable →
      (∀ n, g.rawBarriers dev s = .ok n → n ≤ maxWord64) →
      ((∃ fault, g.compile dev s = .error fault) ↔
        ∃ i p u, g.Kept i ∧ g.passes[i]? = some p ∧ u ∈ p.usages ∧ p.kind.allows u.state = false) ∧
      (∀ fault, g.compile dev s = .error fault → ∃ i p u, g.Kept i ∧ g.passes[i]? = some p ∧ u ∈ p.usages ∧
        p.kind.allows u.state = false ∧ fault = .stateNotAllowed p.name p.kind u.state) ∧
      ∀ g' stats s', g.compile dev s = .ok (g', .ok stats, s') →
        stats.executed = .ok g'.order.length ∧
          ∃ n m, stats.raw = .ok n ∧ stats.total = .ok m ∧ stats.mergedAway + stats.redundantDropped + m = n) := by
  refine ⟨back_logged g dev s, fun e => compile_error_iff, fun hcalls hd hn hfit => ?_⟩
  rcases compile_of_accepted h hcalls hd hn hfit with ⟨i, p, u, hi, hp, hu, ha, hc⟩ | ⟨hlegal, g', stats, s', hc, hfits⟩
  · rw [hc]
    refine ⟨⟨fun _ => ⟨i, p, u, hi, hp, hu, ha⟩, fun _ => ⟨_, rfl⟩⟩, fun fault hf => ?_, fun _ _ _ hok => ?_⟩
    · cases hf
      exact ⟨i, p, u, hi, hp, hu, ha, rfl⟩
    · cases hok
  · refine ⟨⟨?_, ?_⟩, fun fault hf => ?_, fun g'' stats' s'' hok => ⟨executed_of_compile hok, ?_⟩⟩
    · rintro ⟨fault, hf⟩
      rw [hc] at hf
      cases hf
    · rintro ⟨i, p, u, hi, hp, hu, ha⟩
      rw [hlegal i p u hi hp hu] at ha
      cases ha
    · rw [hc] at hf
      cases hf
    · rw [hc] at hok
      cases hok
      have hle : stats.textureBarriers + stats.bufferBarriers ≤ maxWord64 :=
        (Nat.le_add_left _ _).trans (hfits.total.trans_le hfits.raw)
      exact ⟨_, _, checkedAdd_eq_ok hfits.raw, checkedAdd_eq_ok hle, hfits.total⟩

/-- with or without culling, the sample's own buffers are created, they share no object, and its barriers are few -/
theorem pruned_accepted (cull : Bool) :
    (∀ c ∈ (pruned { cull }).createCalls CountingDevice.device {}, c.error? = none) ∧
      ((pruned { cull }).registry.back CountingDevice.device {}).1.Distinct ∧ (pruned { cull }).Countable ∧
      ∀ n, (pruned { cull }).rawBarriers CountingDevice.device {} = .ok n → n ≤ maxWord64 := by
  refine ⟨?_, fun k => ?_, countable_of_cells ?_, ?_⟩
  · cases cull <;> decide +kernel
  · cases cull <;> cases k <;> decide +kernel
  · cases cull <;> decide +kernel
  · cases cull <;> decide +kernel

/-- the culled pass of the sample is no obstacle, it is one without culling, and a device may be out of memory -/
theorem compile_outcomes_sample :
    (¬ ∃ i p u, (pruned {}).Kept i ∧ (pruned {}).passes[i]? = some p ∧ u ∈ p.usages ∧ p.kind.allows u.state = false) ∧
      (∃ fault, (pruned { cull := false }).compile CountingDevice.device {} = .error fault) ∧
      ∃ g' s', (pruned {}).compile CountingDevice.device (({} : CountingDevice).failAfter 0 .outOfMemory) =
        .ok (g', .error ⟨.buffer, "buffer_0", .outOfMemory⟩, s') := by
  refine ⟨?_, ?_, ?_⟩
  · obtain ⟨hcalls, hd, hn, hfit⟩ := pruned_accepted true
    rw [← ((compile_outcomes (built_pruned {}) CountingDevice.device {}).2.2 hcalls hd hn hfit).1]
    rintro ⟨fault, hf⟩
    obtain ⟨g', stats, s', hc, -⟩ := pruned_compiles
    rw [hc] at hf
    cases hf
  · obtain ⟨hcalls, hd, hn, hfit⟩ := pruned_accepted false
    rw [((compile_outcomes (built_pruned { cull := false }) CountingDevice.device {}).2.2 hcalls hd hn hfit).1]
    exact ⟨1, _, ⟨.buffer, ⟨2, none⟩, none, .renderTarget, .write⟩, Nat.one_lt_succ_succ 1, rfl,
      List.mem_singleton_self _, rfl⟩
  · rw [(compile_outcomes (built_pruned {}) CountingDevice.device _).2.1]
    decide +kernel

end Graph

end FrameGraph
