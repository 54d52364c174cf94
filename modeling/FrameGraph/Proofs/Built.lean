/-
Graphs that the public calls can make, and what holds of their records.

A graph is built by starting from an empty one and declaring, exporting, compiling, running and clearing in any order
(`Graph.Built`); the device may be any device, and may fail.

- `Registry.Every`: what holds of every record, and stays so under each call if single changes keep it (`Resource.Kept`).
- `Built.coherent`: the tracker of every record has the size of the resource, and imported resources have an object.
- `Registry.opened_of_back`: once every resource has an object, every record is ready and tracked as a whole in its
  initial state.
- `planned_of_compile`: after a successful compile the graph is planned, and running it keeps it so.
-/
import FrameGraph.Proofs.Compiling

namespace FrameGraph

open ResourceKind

variable {k : ResourceKind} {σ : Type}

/-- the graphs that can be made through the public calls -/
inductive Graph.Built : Graph → Prop
  | new (settings : Settings) : Built (.new settings)
  | create {g : Graph} (k : ResourceKind) (d : k.Descriptor) : Built g → Built (g.create d).1
  | importNative {g : Graph} (k : ResourceKind) (native : Nat) (d : k.Descriptor) (s : ResourceState) :
    Built g → Built (g.importNative native d s).1
  | exportState {g : Graph} (h : AnyHandle) (s : ResourceState) : Built g → Built (g.exportState h s)
  | addPass {g : Graph} (name : String) (kind : PassKind) (setup : List SetupCall) (callback : Nat → List Action) :
    Built g → Built (g.addPass name kind setup callback).1
  | compile {g g' : Graph} {σ : Type} {dev : Device σ} {s s' : σ} {answer : Except AllocationError Stats} :
    Built g → g.compile dev s = .ok (g', answer, s') → Built g'
  | afterRun {g : Graph} : Built g → Built g.afterRun
  | clear {g : Graph} : Built g → Built g.clear

/-! ## What holds of every record -/

/-- a property of records that a new record has, and that is kept by each change the public calls make to one -/
structure Resource.Kept (P : (k : ResourceKind) → Resource k → Prop) : Prop where
  new : ∀ {k : ResourceKind} (name : String) (d : k.Descriptor) backing initial, P k (.new name d backing initial)
  rewind : ∀ {k : ResourceKind} {r : Resource k}, P k r → P k r.rewind
  exported : ∀ {k : ResourceKind} {r : Resource k} (s : ResourceState), P k r → P k { r with exported := some s }
  back : ∀ {k : ResourceKind} {r : Resource k} (a : Allocation), P k r → P k { r with backing := some a }
  write : ∀ {k : ResourceKind} {r : Resource k} (writers : List Nat), P k r → P k { r with writers }

/-- every record has the property -/
def Registry.Every (P : (k : ResourceKind) → Resource k → Prop) (g : Registry) : Prop := ∀ k, ∀ r ∈ g.get k, P k r

section Every

variable {P : (k : ResourceKind) → Resource k → Prop}

namespace Registry

variable {g : Registry}

theorem every_empty : empty.Every P := fun k r hr => by cases k <;> cases hr

theorem Every.set (h : g.Every P) {rs : List (Resource k)} (hr : ∀ r ∈ rs, P k r) : Registry.Every P (g.set k rs) := by
  intro k' r hm
  cases k <;> cases k'
  · exact hr r hm
  · exact h .buffer r hm
  · exact h .texture r hm
  · exact hr r hm

theorem Every.register (h : g.Every P) {r : Nat → Resource k} (hr : ∀ i, P k (r i)) : (g.register r).1.Every P := by
  refine h.set fun q hq => ?_
  rcases List.mem_append.1 hq with hq | hq
  · exact h k q hq
  · rw [List.mem_singleton.1 hq]
    exact hr _

theorem Every.mapRecords (h : g.Every P) {f : (k : ResourceKind) → Nat → Resource k → Resource k}
    (hf : ∀ k n r, P k r → P k (f k n r)) : (g.mapRecords f).Every P := by
  intro k r hr
  obtain ⟨n, hn⟩ := List.mem_iff_getElem?.1 hr
  rw [getElem?_mapRecords] at hn
  obtain ⟨q, hq, rfl⟩ := Option.map_eq_some_iff.1 hn
  exact hf k n q (h k q (List.mem_of_getElem? hq))

theorem Every.create (h : g.Every P) (hP : Resource.Kept P) (d : k.Descriptor) : (g.create d).1.Every P :=
  h.register fun _ => hP.new _ _ _ _

theorem Every.importNative (h : g.Every P) (hP : Resource.Kept P) (native : Nat) (d : k.Descriptor)
    (s : ResourceState) : (g.importNative native d s).1.Every P :=
  h.register fun _ => hP.new _ _ _ _

theorem Every.export (h : g.Every P)
    (hP : ∀ {k : ResourceKind} {r : Resource k} (s : ResourceState), P k r → P k { r with exported := some s })
    {key : Key} {s : ResourceState} {g' : Registry} (he : g.export? key s = some g') : g'.Every P := by
  unfold export? at he
  split at he
  · cases he
    refine h.set fun r hr => ?_
    obtain ⟨n, hn⟩ := List.mem_iff_getElem?.1 hr
    rw [List.getElem?_modify] at hn
    obtain ⟨q, hq, rfl⟩ := Option.map_eq_some_iff.1 hn
    have hq := h key.kind q (List.mem_of_getElem? hq)
    split
    · exact hP s hq
    · exact hq
  · cases he

theorem Every.setup (h : g.Every P) (hP : Resource.Kept P) (kind : PassKind) (calls : List SetupCall) :
    (Setup.run kind g calls).1.Every P := by
  induction calls generalizing g with
  | nil => exact h
  | cons call rest ih =>
    refine @ih (Setup.reply kind g call).1 ?_
    cases call with
    | create k d => exact h.create hP d
    | access _ _ _ => exact h
    | writeDepth _ => exact h
    | readDepth _ => exact h
    | kind => exact h

end Registry

/-! ## Records with objects -/

theorem Resource.every_backAll (hP : Resource.Kept P) (dev : Device σ) (s : σ) {rs : List (Resource k)}
    (h : ∀ r ∈ rs, P k r) : ∀ r ∈ (Resource.backAll dev s rs).1, P k r := by
  induction rs generalizing s with
  | nil => simp [backAll]
  | cons r rs ih =>
    obtain ⟨hr, hrs⟩ := List.forall_mem_cons.1 h
    unfold backAll
    split
    · exact h
    · rename_i r' s' hb
      refine List.forall_mem_cons.2 ⟨?_, ih s' hrs⟩
      unfold back at hb
      split at hb
      · split at hb
        · cases hb
          exact hP.write [] (hP.rewind (hP.back _ hr))
        · cases hb
      · cases hb
        exact hP.write [] (hP.rewind hr)

theorem Registry.Every.back {g : Registry} (h : g.Every P) (hP : Resource.Kept P) (dev : Device σ) (s : σ) :
    (g.back dev s).1.Every P := by
  have ht := Resource.every_backAll hP dev s (h .texture)
  unfold Registry.back
  split
  · rename_i hb
    simp only [Both.get] at ht
    rw [hb] at ht
    intro k
    cases k
    · exact ht
    · exact h .buffer
  · rename_i s' hb
    simp only [Both.get] at ht
    rw [hb] at ht
    intro k
    cases k
    · exact ht
    · exact Resource.every_backAll hP dev s' (h .buffer)

end Every

/-! ## Coherent records -/

/-- the tracker has the size of the resource, and an imported resource has an object -/
structure Resource.Coherent (r : Resource k) : Prop where
  bounds : r.tracker.bounds = r.bounds
  imported : r.imported = true → r.backing.isSome = true

/-- every record is coherent -/
def Registry.Coherent (g : Registry) : Prop := ∀ k, ∀ r ∈ g.get k, r.Coherent

theorem Resource.kept_coherent : Resource.Kept fun _ r => r.Coherent where
  new := fun _ _ _ _ => ⟨rfl, id⟩
  rewind := fun h => ⟨h.bounds, h.imported⟩
  exported := fun _ h => ⟨h.bounds, h.imported⟩
  back := fun _ h => ⟨h.bounds, fun _ => rfl⟩
  write := fun _ h => ⟨h.bounds, h.imported⟩

theorem Resource.Ready.coherent {r : Resource k} (h : r.Ready) : r.Coherent where
  bounds := h.bounds
  imported := fun _ => by
    have hb := h.backed
    rwa [Resource.native, Option.isSome_map] at hb

theorem Registry.Coherent.back {g : Registry} (h : g.Coherent) (dev : Device σ) (s : σ) :
    (g.back dev s).1.Coherent :=
  Every.back h Resource.kept_coherent dev s

/-- creating objects changes the object, the tracked states and the writers of a record, and nothing else -/
theorem Resource.map_backAll {α : Type} {q : Resource k → α}
    (hq : ∀ (r : Resource k) backing tracker writers, q { r with backing, tracker, writers } = q r) (dev : Device σ)
    (s : σ) (rs : List (Resource k)) : (Resource.backAll dev s rs).1.map q = rs.map q := by
  induction rs generalizing s with
  | nil => rfl
  | cons r rs ih =>
    unfold backAll
    split
    · rfl
    · rename_i r' s' hb
      have hr : q r'.fresh = q r := by
        unfold back at hb
        split at hb
        · split at hb
          · cases hb
            exact hq r _ _ _
          · cases hb
        · cases hb
          exact hq r r.backing _ _
      rw [List.map_cons, List.map_cons, hr, ih]

theorem Registry.map_back {α : Type} {q : Resource k → α}
    (hq : ∀ (r : Resource k) backing tracker writers, q { r with backing, tracker, writers } = q r) (dev : Device σ)
    (s : σ) (g : Registry) : ((g.back dev s).1.get k).map q = (g.get k).map q := by
  unfold Registry.back
  split
  · rename_i hb
    cases k
    · have ht := Resource.map_backAll hq dev s g.textures
      rw [hb] at ht
      exact ht
    · rfl
  · rename_i s' hb
    cases k
    · have ht := Resource.map_backAll hq dev s g.textures
      rw [hb] at ht
      exact ht
    · exact Resource.map_backAll hq dev s' g.buffers

/-- **Once every resource has an object, every record is ready** and tracked as a whole in its initial state. -/
theorem Registry.opened_of_back {g g' : Registry} {dev : Device σ} {s s' : σ} (h : g.Coherent)
    (hb : g.back dev s = (g', none, s')) : g'.Opened := by
  have hc : g'.Coherent := by
    have := h.back dev s
    rwa [hb] at this
  have hdone : ∀ k, ∀ r ∈ g'.get k, (r.imported = true ∨ r.backing.isSome) ∧ r.tracker.content = .whole r.initial := by
    unfold Registry.back at hb
    split at hb
    · cases hb
    · rename_i textures s₁ ht
      simp only [Prod.mk.injEq] at hb
      obtain ⟨rfl, hbuf, rfl⟩ := hb
      have h1 := Resource.backAll_done dev s g.textures (by rw [ht])
      rw [ht] at h1
      have h2 := Resource.backAll_done dev s₁ g.buffers hbuf
      intro k r hr
      cases k
      · exact ⟨(h1 r hr).1, (h1 r hr).2.1⟩
      · exact ⟨(h2 r hr).1, (h2 r hr).2.1⟩
  refine ⟨fun k r hr => ?_, fun k r hr => (hdone k r hr).2⟩
  obtain ⟨hback, hwhole⟩ := hdone k r hr
  have hcr := hc k r hr
  refine ⟨⟨?_, fun s hs => ?_⟩, hcr.bounds, ?_⟩
  · rw [hcr.bounds]
    exact k.measured_bounds r.descriptor
  · rw [hwhole] at hs
    cases hs
  · rw [Resource.native, Option.isSome_map]
    exact hback.elim hcr.imported id

/-! ## Built graphs -/

namespace Graph

variable {g g' : Graph}

theorem coherent_invalidate (h : g.registry.Coherent) : g.invalidate.registry.Coherent := by
  unfold invalidate
  split
  · exact Registry.Every.mapRecords h fun _ _ _ hr => Resource.kept_coherent.rewind hr
  · exact h

/-- once every resource has an object, compiling is planning the passes -/
theorem compile_of_back {dev : Device σ} {s s' : σ} {registry : Registry}
    (hb : g.registry.back dev s = (registry, none, s')) :
    g.compile dev s = (compilePasses g.settings registry g.passes).map fun plan =>
      ({ g with
        registry := plan.registry, passes := plan.passes, order := plan.order, stats := plan.stats, compiled := true },
        .ok plan.stats, s') := by
  rw [compile, hb]
  dsimp only
  cases compilePasses g.settings registry g.passes <;> rfl

/-- what a successful compile starts from and ends in -/
theorem compile_inv {dev : Device σ} {s s' : σ} {stats : Stats} (hc : g.compile dev s = .ok (g', .ok stats, s')) :
    ∃ registry plan, g.registry.back dev s = (registry, none, s') ∧
      compilePasses g.settings registry g.passes = .ok plan ∧
      g' = { g with
        registry := plan.registry, passes := plan.passes, order := plan.order, stats := plan.stats, compiled := true } := by
  unfold compile at hc
  split at hc
  · cases hc
  · rename_i hb
    obtain ⟨plan, hp, hc⟩ := bind_eq_ok.1 hc
    cases hc
    exact ⟨_, plan, hb, hp, rfl⟩

/-- what a compile that answers an error starts from and ends in -/
theorem exists_back_of_compile_error {dev : Device σ} {s s' : σ} {e : AllocationError}
    (hc : g.compile dev s = .ok (g', .error e, s')) :
    ∃ registry, g.registry.back dev s = (registry, some e, s') ∧
      g' = { g with registry, order := [], compiled := false } := by
  unfold compile at hc
  split at hc
  · rename_i hb
    cases hc
    exact ⟨_, hb, rfl⟩
  · obtain ⟨plan, -, hc⟩ := bind_eq_ok.1 hc
    cases hc

/-- what a compile that answers an error leaves behind -/
theorem compile_error_inv {dev : Device σ} {s s' : σ} {e : AllocationError}
    (hc : g.compile dev s = .ok (g', .error e, s')) :
    g' = { g with registry := (g.registry.back dev s).1, order := [], compiled := false } := by
  obtain ⟨registry, hb, rfl⟩ := exists_back_of_compile_error hc
  rw [hb]

/-- the tracker of every record of a built graph has the size of the resource, and imported resources have an object -/
theorem Built.coherent (h : g.Built) : g.registry.Coherent := by
  induction h with
  | new _ => exact Registry.every_empty
  | create k d _ ih => exact Registry.Every.create (coherent_invalidate ih) Resource.kept_coherent d
  | importNative k native d s _ ih =>
    exact Registry.Every.importNative (coherent_invalidate ih) Resource.kept_coherent native d s
  | exportState h s _ ih =>
    unfold Graph.exportState
    split
    · exact coherent_invalidate (Registry.Every.export ih Resource.kept_coherent.exported ‹_›)
    · exact ih
  | addPass name kind setup _ _ ih =>
    exact Registry.Every.setup (coherent_invalidate ih) Resource.kept_coherent kind setup
  | @compile g g' _ dev s s' answer _ hc ih =>
    cases answer with
    | error e =>
      rw [compile_error_inv hc]
      exact ih.back dev s
    | ok stats =>
      obtain ⟨registry, plan, hb, hp, rfl⟩ := compile_inv hc
      obtain ⟨_, after, raw, _, _, _, _, -, hs, -, -, rfl⟩ := compilePasses_eq_ok_iff.1 hp
      have hopened := (Registry.opened_of_back ih hb).noteWriters (g.passes.map Pass.withSets)
      exact fun k r hr => ((synthesize_ready hopened.ready hs).1 k r hr).coherent
  | afterRun _ ih => exact ih
  | clear _ _ => exact Registry.every_empty

/-- the addresses of every resource a pass uses in part can be numbered -/
def Countable (g : Graph) : Prop := ∀ p ∈ g.passes, p.Countable g.registry.layout

/-- textures of at most 2^32 cells can be numbered, however they are used -/
theorem countable_of_cells (h : ∀ r ∈ g.registry.textures, r.bounds.cells ≤ 2 ^ 32) : g.Countable := by
  intro p _ k n b hl _
  cases k with
  | texture =>
    obtain ⟨r, hr, rfl⟩ := Option.map_eq_some_iff.1 hl
    exact h r (List.mem_of_getElem? hr)
  | buffer => trivial

/-- compiling keeps the usages of the passes -/
theorem usages_of_compile {dev : Device σ} {s s' : σ} {stats : Stats} (hc : g.compile dev s = .ok (g', .ok stats, s'))
    (i : Nat) : (g'.passes[i]?).map Pass.usages = (g.passes[i]?).map Pass.usages := by
  obtain ⟨registry, plan, -, hp, rfl⟩ := compile_inv hc
  obtain ⟨needed, after, raw, merged, final, removed, dropped, -, -, -, -, rfl⟩ := compilePasses_eq_ok_iff.1 hp
  simp only [Compiled.assemble, List.getElem?_mapIdx, List.getElem?_map, Option.map_map]
  rfl

/-- so what can be numbered after compiling could be numbered before -/
theorem countable_of_compile {dev : Device σ} {s s' : σ} {stats : Stats}
    (hc : g.compile dev s = .ok (g', .ok stats, s')) (hn : g'.Countable) :
    ∀ p ∈ g.passes, p.Countable g'.registry.layout := by
  intro p hm
  obtain ⟨i, hi⟩ := List.mem_iff_getElem?.1 hm
  have husages := usages_of_compile hc i
  rw [hi] at husages
  obtain ⟨q, hq, hqp⟩ := Option.map_eq_some_iff.1 husages
  intro k n b hl hu
  refine hn q (List.mem_of_getElem? hq) k n b hl ?_
  simpa only [Pass.usesOf, hqp] using hu

/-- **After a successful compile the graph is planned.** -/
theorem planned_of_compile {dev : Device σ} {s s' : σ} {stats : Stats} (h : g.Built)
    (hc : g.compile dev s = .ok (g', .ok stats, s')) (hd : g'.registry.Distinct) (hn : g'.Countable) : g'.Planned := by
  obtain ⟨registry, plan, hb, hp, rfl⟩ := compile_inv hc
  exact planned_of_compilePasses (Registry.opened_of_back h.coherent hb) hp hd (countable_of_compile hc hn) rfl

/-- changing passes without culling any changes what is walked in the same way -/
theorem filter_filterMap_mapIdx (passes : List Pass) (f : Nat → Pass → Pass)
    (hf : ∀ i p, (f i p).plan.culled = p.plan.culled) (indices : List Nat) :
    ((indices.filterMap fun i => (passes.mapIdx f)[i]?.map (i, ·)).filter fun (_, p) => !p.plan.culled) =
      ((indices.filterMap fun i => passes[i]?.map (i, ·)).filter fun (_, p) => !p.plan.culled).map
        fun x => (x.1, f x.1 x.2) := by
  induction indices with
  | nil => rfl
  | cons i rest ih =>
    rw [List.filterMap_cons, List.filterMap_cons, List.getElem?_mapIdx]
    cases passes[i]? with
    | none => exact ih
    | some p =>
      simp only [Option.map_some, List.filter_cons, hf]
      split
      · rw [List.map_cons, ih]
      · exact ih

/-- a run changes how often each pass has run, and nothing else -/
theorem walk_afterRun (g : Graph) :
    g.afterRun.walk = g.walk.map fun x => (x.1, { x.2 with runs := x.2.runs + (g.walk.map Prod.fst).count x.1 }) := by
  have hlen : g.afterRun.passes.length = g.passes.length := List.length_mapIdx
  have h := filter_filterMap_mapIdx g.passes (fun i p => { p with runs := p.runs + (g.walk.map Prod.fst).count i })
    (fun _ _ => rfl) (if g.compiled then g.order else List.range g.passes.length)
  rw [walk, hlen]
  exact h

/-- running a planned graph keeps it planned -/
theorem Planned.afterRun (h : g.Planned) : g.afterRun.Planned := by
  have husages : ∀ i : Nat, (g.passes[i]?).map Pass.usages = (g.afterRun.passes[i]?).map Pass.usages := by
    intro i
    rw [Graph.afterRun, List.getElem?_mapIdx, Option.map_map]
    rfl
  have hfst : g.afterRun.walk.map Prod.fst = g.walk.map Prod.fst := by
    rw [walk_afterRun, List.map_map]
    rfl
  refine ⟨h.ready, ?_, ?_, ?_, fun x hx => ?_⟩
  · rw [hfst, h.walked, Graph.afterRun, List.length_mapIdx]
    refine List.filter_congr fun i _ => ?_
    rw [List.getElem?_mapIdx, Option.any_map]
  · rw [walk_afterRun, List.map_map]
    exact h.granted.congr husages
  · rw [hfst, World.grantAll, ← World.grant_congr husages]
    exact h.tracked
  · rw [walk_afterRun] at hx
    obtain ⟨y, hy, rfl⟩ := List.mem_map.1 hx
    exact h.used y hy

end Graph

end FrameGraph
