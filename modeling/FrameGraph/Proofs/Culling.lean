/-
The passes that are kept, the order they are in, and why the others are not missed.

Each pass may compute the new contents of the resources it writes from the contents of those it reads, in any way
(`Effects`). What is seen of a frame are the contents of the imported and the exported resources.

- `compile_order`: the compiled order lists the kept passes as they were declared, and the sort never falls back. Edges
  go from earlier to later passes, so there is no cycle, and taking the smallest ready pass gives back the list that
  barriers are made in.
- `compile_contents`: running the kept passes leaves everything that is seen with the contents that running all passes
  leaves it with. The two runs agree on the resources that are seen or that a kept pass reads (`Watched`); a pass that
  writes one of these is kept.
-/
import FrameGraph.Proofs.Built
import FrameGraph.Proofs.Needed

namespace FrameGraph

variable {σ : Type} {k : ResourceKind}

/-! ## What stays visible -/

namespace Registry

variable {g g' : Registry}

theorem visible_congr (h : ∀ k, (g.get k).map Resource.visible = (g'.get k).map Resource.visible) :
    g.visible = g'.visible := by
  funext key
  have hkey := congrArg (fun vs : List Bool => vs[key.index]?) (h key.kind)
  simp only [List.getElem?_map] at hkey
  have hany : ∀ o : Option (Resource key.kind), o.any Resource.visible = (o.map Resource.visible).any id := by
    intro o
    cases o <;> rfl
  rw [visible, visible, hany, hany, hkey]

/-- creating objects and noting writers keep what is visible -/
theorem visible_opened (dev : Device σ) (s : σ) (g : Registry) (passes : List Pass) :
    ((g.back dev s).1.noteWriters passes).visible = g.visible := by
  refine visible_congr fun k => ?_
  calc (((g.back dev s).1.noteWriters passes).get k).map Resource.visible
      = ((g.back dev s).1.get k).map Resource.visible := map_mapRecords (fun _ _ => rfl) _
    _ = (g.get k).map Resource.visible := map_back (fun _ _ _ _ => rfl) dev s g

/-- making barriers keeps what is visible -/
theorem visible_synthesize {passes : List Pass} {indices : List Nat} {batches : Batches}
    (hs : synthesize passes g indices = .ok (g', batches)) : g'.visible = g.visible :=
  visible_congr fun _ => map_synthesize (fun _ _ => rfl) hs

end Registry

/-! ## The kept passes -/

namespace Graph

variable {g g' : Graph} {dev : Device σ} {s s' : σ} {stats : Stats}

/-- a compiled graph has the declared passes, each with its sets, and walks the kept ones in the order found -/
theorem compile_passes (hc : g.compile dev s = .ok (g', .ok stats, s')) :
    ∃ needed final raw,
      let passes := g.passes.map Pass.withSets
      let records := (g.registry.back dev s).1.noteWriters passes
      keptPasses g.settings.cull records passes = .ok needed ∧
        synthesize passes records needed = .ok (g'.registry, raw) ∧
        g'.order = needed ∧ stats.usedFallbackOrder = false ∧
        ∀ i : Nat, g'.passes[i]? = (g.passes[i]?).map fun p =>
          { p with plan := ⟨!needed.contains i, p.readKeys, p.writeKeys, Batches.ofPass final i⟩ } := by
  obtain ⟨registry, plan, hb, hp, rfl⟩ := compile_inv hc
  obtain ⟨needed, after, raw, merged, final, removed, dropped, hk, hs, -, -, rfl⟩ := compilePasses_eq_ok_iff.1 hp
  rw [compile_of_back hb, hp] at hc
  cases hc
  rw [hb]
  refine ⟨needed, final, raw, hk, hs, rfl, rfl, fun i => ?_⟩
  simp only [Compiled.assemble, List.getElem?_mapIdx, List.getElem?_map, Option.map_map]
  rfl

/-- the pass is kept: it is needed, or nothing is culled -/
def Kept (g : Graph) (i : Nat) : Prop :=
  if g.settings.cull = true then Needed g.registry.visible g.passes i else i < g.passes.length

theorem mem_keptPasses {records : Registry} {needed : List Nat}
    (hk : keptPasses g.settings.cull records (g.passes.map Pass.withSets) = .ok needed)
    (hv : records.visible = g.registry.visible) {i : Nat} : i ∈ needed ↔ g.Kept i := by
  unfold keptPasses at hk
  unfold Kept
  split at hk
  · rename_i hcull
    rw [if_pos hcull, ← hv]
    split at hk
    · rw [← Except.ok.inj hk]
      exact mem_neededPasses
    · cases hk
  · rename_i hcull
    rw [if_neg hcull, ← Except.ok.inj hk, List.mem_range, List.length_map]

theorem visible_compile (hc : g.compile dev s = .ok (g', .ok stats, s')) :
    g'.registry.visible = g.registry.visible := by
  obtain ⟨needed, final, raw, -, hs, -⟩ := compile_passes hc
  calc g'.registry.visible
      = ((g.registry.back dev s).1.noteWriters (g.passes.map Pass.withSets)).visible := Registry.visible_synthesize hs
    _ = g.registry.visible := Registry.visible_opened dev s g.registry _

/-- a compiled graph walks the kept passes -/
theorem mem_order (hc : g.compile dev s = .ok (g', .ok stats, s')) {i : Nat} : i ∈ g'.order ↔ g.Kept i := by
  obtain ⟨needed, final, raw, hk, -, rfl, -⟩ := compile_passes hc
  exact mem_keptPasses hk (Registry.visible_opened dev s g.registry _)

theorem length_compile_passes (hc : g.compile dev s = .ok (g', .ok stats, s')) :
    g'.passes.length = g.passes.length := by
  obtain ⟨registry, plan, -, hp, rfl⟩ := compile_inv hc
  obtain ⟨needed, after, raw, merged, final, removed, dropped, -, -, -, -, rfl⟩ := compilePasses_eq_ok_iff.1 hp
  simp only [Compiled.assemble, List.length_mapIdx, List.length_map]

/-- the compiled order lists the passes that are not culled, as they are declared -/
theorem order_of_compile (hc : g.compile dev s = .ok (g', .ok stats, s')) :
    g'.order = (List.range g'.passes.length).filter fun i => g'.passes[i]?.any fun p => !p.plan.culled := by
  obtain ⟨needed, final, raw, hk, hs, horder, -, hpasses⟩ := compile_passes hc
  obtain ⟨q, hq⟩ := exists_filter_of_keptPasses hk
  rw [List.length_map] at hq
  rw [length_compile_passes hc, horder]
  conv_lhs => rw [hq]
  refine List.filter_congr fun i hi => ?_
  rw [hpasses, List.getElem?_eq_getElem (List.mem_range.1 hi), hq]
  simp [List.mem_range.1 hi]

/-- **The compiled order is the declared one.** It lists the passes that are not culled, the sort never falls back, and
the edges it sorts by have no cycle. -/
theorem compile_order (hc : g.compile dev s = .ok (g', .ok stats, s')) :
    let passes := g.passes.map Pass.withSets
    let edges := dependencyEdges passes g'.order
    g'.order = (List.range g'.passes.length).filter (fun i => g'.passes[i]?.any fun p => !p.plan.culled) ∧
      stats.usedFallbackOrder = false ∧
      (∀ i, ¬ Relation.TransGen (fun i j => (i, j) ∈ edges) i i) ∧
      topologicalOrder passes.length g'.order edges = .ok g'.order ∧
      ∃ raw, synthesize passes ((g.registry.back dev s).1.noteWriters passes) g'.order = .ok (g'.registry, raw) ∧
        raw.map Prod.fst = g'.order := by
  intro passes edges
  obtain ⟨needed, final, raw, hk, hs, horder, hfallback, -⟩ := compile_passes hc
  obtain ⟨hascending, hlt⟩ := ascending_of_keptPasses hk
  have hup : ∀ e ∈ dependencyEdges passes needed, e.1 < e.2 := fun e he => lt_of_mem_dependencyEdges hascending he
  have hkept := order_of_compile hc
  rw [horder] at hkept
  simp only [edges, horder]
  refine ⟨hkept, hfallback, fun i hcycle => ?_, topologicalOrder_ascending hascending hlt hup, raw, hs, ?_⟩
  · -- a path of edges goes up
    have hpath : ∀ j, Relation.TransGen (fun i j => (i, j) ∈ dependencyEdges passes needed) i j → i < j := by
      intro j hj
      induction hj with
      | single he => exact hup _ he
      | tail _ he ih => exact ih.trans (hup _ he)
    exact Nat.lt_irrefl i (hpath i hcycle)
  · exact indices_of_synthesize hs

/-- a pass makes a buffer and the last pass reads it to fill an imported one; the pass in between is not needed, and
asks for a state that copies cannot use -/
def pruned (settings : Settings) : Graph :=
  let (g, made) := (new settings).create (k := .buffer) ⟨none, 8, 0#_, 0⟩
  let (g, target) := g.importNative (k := .buffer) 7 ⟨none, 8, 0#_, 0⟩ .common
  let g := (g.addPass "make" .compute [.access ⟨.buffer, made⟩ .unorderedAccess .write] fun _ => []).1
  let g := (g.addPass "unused" .copy
    [.create .buffer ⟨none, 16, 0#_, 0⟩, .access ⟨.buffer, ⟨2, none⟩⟩ .renderTarget .write] fun _ => []).1
  (g.addPass "fill" .compute
    [.access ⟨.buffer, made⟩ .shaderResource .read,
     .access ⟨.buffer, target⟩ .unorderedAccess .write] fun _ => []).1

theorem built_pruned (settings : Settings) : (pruned settings).Built :=
  .addPass _ _ _ _ (.addPass _ _ _ _ (.addPass _ _ _ _ (.importNative .buffer _ _ _ (.create .buffer _ (.new _)))))

theorem pruned_compiles : ∃ g' stats s', (pruned {}).compile CountingDevice.device {} = .ok (g', .ok stats, s') ∧
    g'.order = [0, 2] ∧ g'.registry.visible ⟨.buffer, 1⟩ = true := by
  have h : (match (pruned {}).compile CountingDevice.device {} with
      | .ok (g', .ok _, _) => decide (g'.order = [0, 2]) && g'.registry.visible ⟨.buffer, 1⟩
      | _ => false) = true := by decide +kernel
  split at h
  · rename_i g' stats s' hc
    simp only [Bool.and_eq_true, decide_eq_true_eq] at h
    exact ⟨g', stats, s', hc, h⟩
  · cases h

/-- the sample compiles to its first and its last pass -/
theorem compile_order_sample : ∃ g' stats s', (pruned {}).compile CountingDevice.device {} = .ok (g', .ok stats, s') ∧
    g'.order = [0, 2] ∧
    let passes := (pruned {}).passes.map Pass.withSets
    let edges := dependencyEdges passes g'.order
    g'.order = (List.range g'.passes.length).filter (fun i => g'.passes[i]?.any fun p => !p.plan.culled) ∧
      stats.usedFallbackOrder = false ∧
      (∀ i, ¬ Relation.TransGen (fun i j => (i, j) ∈ edges) i i) ∧
      topologicalOrder passes.length g'.order edges = .ok g'.order ∧
      ∃ raw, synthesize passes (((pruned {}).registry.back CountingDevice.device {}).1.noteWriters passes) g'.order =
          .ok (g'.registry, raw) ∧
        raw.map Prod.fst = g'.order := by
  obtain ⟨g', stats, s', hc, horder, -⟩ := pruned_compiles
  exact ⟨g', stats, s', hc, horder, compile_order hc⟩

end Graph

/-! ## Contents -/

variable {V : Type*}

/-- the contents of every resource -/
abbrev Contents (V : Type*) := Key → V

/-- what passes compute: the new contents of a resource that pass `i` writes, from the contents of the resources the
pass reads, which are all it is given, and from what the resource held -/
abbrev Effects (V : Type*) := (i : Nat) → (written : Key) → (read : Key → Option V) → (held : V) → V

namespace Contents

variable {c c' : Contents V} {effects : Effects V} {passes : List Pass} {keep : Nat → Bool} {Watched : Key → Prop}

/-- the contents of some resources, and nothing of the others -/
def only (c : Contents V) (keys : List Key) : Key → Option V := fun key => if key ∈ keys then some (c key) else none

/-- the contents after one pass -/
def after (effects : Effects V) (passes : List Pass) (c : Contents V) (i : Nat) : Contents V :=
  match passes[i]? with
  | some p => fun key => if key ∈ p.plan.writes then effects i key (c.only p.plan.reads) (c key) else c key
  | none => c

/-- the contents after some passes, one after another -/
def afterAll (effects : Effects V) (passes : List Pass) (c : Contents V) (indices : List Nat) : Contents V :=
  indices.foldl (after effects passes) c

/-- a pass is given the same by contents that agree on what it reads -/
theorem only_congr {keys : List Key} (h : ∀ key ∈ keys, c key = c' key) : c.only keys = c'.only keys := by
  funext key
  unfold only
  split
  · rw [h key ‹_›]
  · rfl

/-- a pass that is kept does the same to contents that agree on what is watched -/
theorem after_of_keep (h : ∀ key, Watched key → c key = c' key) {i : Nat}
    (hread : ∀ p, passes[i]? = some p → ∀ key ∈ p.plan.reads, Watched key) :
    ∀ key, Watched key → c.after effects passes i key = c'.after effects passes i key := by
  intro key hkey
  unfold after
  cases hp : passes[i]? with
  | none => exact h key hkey
  | some p =>
    simp only
    split
    · rw [h key hkey, only_congr fun key hr => h key (hread p hp key hr)]
    · exact h key hkey

/-- a pass that writes nothing watched changes nothing watched -/
theorem after_of_not_written {i : Nat} (hwrite : ∀ p, passes[i]? = some p → ∀ key ∈ p.plan.writes, ¬ Watched key) :
    ∀ key, Watched key → c.after effects passes i key = c key := by
  intro key hkey
  unfold after
  cases hp : passes[i]? with
  | none => rfl
  | some p => exact if_neg fun hw => hwrite p hp key hw hkey

/-- **Leaving out passes that write nothing watched is not noticed,** if whatever the others read is watched. -/
theorem afterAll_filter (Watched : Key → Prop)
    (hread : ∀ i p, keep i = true → passes[i]? = some p → ∀ key ∈ p.plan.reads, Watched key)
    (hwrite : ∀ i p, passes[i]? = some p → ∀ key ∈ p.plan.writes, Watched key → keep i = true) (indices : List Nat)
    (h : ∀ key, Watched key → c key = c' key) :
    ∀ key, Watched key →
      c.afterAll effects passes (indices.filter keep) key = c'.afterAll effects passes indices key := by
  induction indices generalizing c c' with
  | nil => exact h
  | cons i indices ih =>
    rw [List.filter_cons]
    by_cases hi : keep i = true
    · rw [if_pos hi]
      apply ih
      exact after_of_keep h fun p hp => hread i p hi hp
    · rw [if_neg hi]
      apply ih
      intro key hkey
      rw [h key hkey]
      exact (after_of_not_written (fun p hp key hw hk => hi (hwrite i p hp key hw hk)) key hkey).symm

end Contents

/-! ## What is culled is not missed -/

namespace Graph

variable {g g' : Graph} {dev : Device σ} {s s' : σ} {stats : Stats}

/-- the resource is seen outside the graph, or a kept pass reads it -/
def Watched (g : Graph) (key : Key) : Prop :=
  g.registry.visible key = true ∨
    ∃ j q v, g.Kept j ∧ g.passes[j]? = some q ∧ v ∈ q.usages ∧ v.reads = true ∧ v.key = key

/-- a pass that writes what is watched is kept -/
theorem Watched.kept {i : Nat} {p : Pass} {u : Usage} (h : g.Watched u.key) (hp : g.passes[i]? = some p)
    (hu : u ∈ p.usages) (hw : u.writes = true) : g.Kept i := by
  unfold Watched Kept at *
  split
  · rcases h with hv | ⟨j, q, v, hj, hq, hv, hr, hkey⟩
    · exact .visible hp hu hw hv
    · rw [if_pos ‹_›] at hj
      exact .feeds hp hu hw hq hv hr hkey.symm hj
  · exact (List.getElem?_eq_some_iff.1 hp).1

/-- **Culling is not seen.** Whatever the passes compute, running the kept ones in the compiled order leaves every
imported and every exported resource with the contents that running all of them as declared leaves it with. -/
theorem compile_contents (hc : g.compile dev s = .ok (g', .ok stats, s')) {V : Type*} (effects : Effects V)
    (c : Contents V) {key : Key} (hv : g'.registry.visible key = true) :
    c.afterAll effects g'.passes g'.order key = c.afterAll effects g'.passes (List.range g'.passes.length) key := by
  have horder := order_of_compile hc
  obtain ⟨needed, final, raw, -, -, -, -, hpasses⟩ := compile_passes hc
  have hdeclared : ∀ (i : Nat) (p : Pass), g'.passes[i]? = some p →
      ∃ d, g.passes[i]? = some d ∧ p.plan.reads = d.readKeys ∧ p.plan.writes = d.writeKeys := by
    intro i p hp
    rw [hpasses] at hp
    obtain ⟨d, hd, rfl⟩ := Option.map_eq_some_iff.1 hp
    exact ⟨d, hd, rfl, rfl⟩
  let keep : Nat → Bool := fun i => g'.passes[i]?.any fun p => !p.plan.culled
  have hkeep : ∀ (i : Nat) (p : Pass), g'.passes[i]? = some p → (keep i = true ↔ g.Kept i) := by
    intro i p hp
    have hlt : i < g'.passes.length := (List.getElem?_eq_some_iff.1 hp).1
    rw [← mem_order hc, horder, List.mem_filter, List.mem_range]
    exact ⟨fun h => ⟨hlt, h⟩, And.right⟩
  rw [visible_compile hc] at hv
  rw [horder]
  refine Contents.afterAll_filter g.Watched ?_ ?_ _ (fun _ _ => rfl) key (Or.inl hv)
  · intro i p hi hp key hkey
    obtain ⟨d, hd, hreads, -⟩ := hdeclared i p hp
    rw [hreads] at hkey
    obtain ⟨v, hv, hr, rfl⟩ := Pass.mem_readKeys.1 hkey
    exact Or.inr ⟨i, d, v, (hkeep i p hp).1 hi, hd, hv, hr, rfl⟩
  · intro i p hp key hkey hw
    obtain ⟨d, hd, -, hwrites⟩ := hdeclared i p hp
    rw [hwrites] at hkey
    obtain ⟨u, hu, huw, rfl⟩ := Pass.mem_writeKeys.1 hkey
    exact (hkeep i p hp).2 (hw.kept hd hu huw)

/-- the contents of the imported buffer of the sample, if each pass notes its index and what it finds in the first -/
theorem compile_contents_sample : ∃ g' stats s',
    (pruned {}).compile CountingDevice.device {} = .ok (g', .ok stats, s') ∧
    g'.registry.visible ⟨.buffer, 1⟩ = true ∧
    let note : Effects (List Nat) := fun i _ read held => held ++ i :: (read ⟨.buffer, 0⟩).getD []
    let empty : Contents (List Nat) := fun _ => []
    empty.afterAll note g'.passes [0, 2] ⟨.buffer, 1⟩ =
      empty.afterAll note g'.passes (List.range g'.passes.length) ⟨.buffer, 1⟩ := by
  obtain ⟨g', stats, s', hc, horder, hv⟩ := pruned_compiles
  refine ⟨g', stats, s', hc, hv, ?_⟩
  rw [← horder]
  exact compile_contents hc _ _ hv

end Graph

end FrameGraph
