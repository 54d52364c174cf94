/-
A history of failed compiles leaves no trace in the plan.

Forgetting everything but the declarations (`Graph.declared`) takes a graph with any history to the graph the same
declarations make of an empty one. Once every resource has an object the two cannot be told apart by what is planned for
them.

- `declared_declare`, `declared_compile`: forgetting commutes with declaring more, and undoes a compile.
- `Runs.declared`: so it leaves what the declarations of a history make of an empty graph (`Graph.ofDeclarations`).
- `compile_declared`: which compiles to the same plan, if it is given the same objects.
- `allocation_exactly_once`: each resource is allocated once in every history, in order, and with the same plan in the
  end as without one.
-/
import FrameGraph.Proofs.Histories

namespace FrameGraph

variable {k : ResourceKind} {σ : Type}

/-! ## The same declarations without a history -/

/-- the record as it was declared: an own resource has no object -/
def Resource.declared (r : Resource k) : Resource k :=
  { r.afresh with backing := if r.imported then r.backing else none }

/-- the objects of the own resources of a list, in order -/
def Resource.ownObjects (rs : List (Resource k)) : List Allocation :=
  rs.filterMap fun r => if r.imported then none else r.backing

namespace Registry

/-- every record as it was declared -/
def declared (g : Registry) : Registry := .ofFun fun k => (g.get k).map Resource.declared

/-- the objects of the own resources, textures before buffers -/
def ownObjects (g : Registry) : List Allocation := Resource.ownObjects g.textures ++ Resource.ownObjects g.buffers

end Registry

/-- the graph as it was declared: never compiled, never run, and without any object of its own -/
def Graph.declared (g : Graph) : Graph :=
  { Graph.new g.settings with registry := g.registry.declared, passes := g.passes.map Pass.afresh }

/-! ### Declaring and forgetting -/

namespace Registry

variable {g : Registry}

theorem get_declared (g : Registry) (k : ResourceKind) : g.declared.get k = (g.get k).map Resource.declared :=
  Both.get_ofFun _ k

theorem declared_rewind (g : Registry) : g.rewind.declared = g.declared := by
  refine ext_getElem? fun k n => ?_
  rw [get_declared, get_declared, List.getElem?_map, List.getElem?_map, rewind_getElem?, Option.map_map]
  rfl

theorem declared_register (g : Registry) {r : Nat → Resource k} (hr : ∀ i, (r i).declared = r i) :
    g.declared.register r = ((g.register r).1.declared, (g.register r).2) := by
  cases k <;> simp [register, declared, Both.set, Both.get, Both.ofFun, hr]

theorem contains_declared (g : Registry) (key : Key) : g.declared.contains key = g.contains key := by
  rw [contains, contains, get_declared, List.length_map]

theorem declared_export (g : Registry) (key : Key) (s : ResourceState) :
    g.declared.export? key s = (g.export? key s).map declared := by
  obtain ⟨kind, index⟩ := key
  have hmodify : ∀ rs : List (Resource kind),
      (rs.map Resource.declared).modify index (fun r => { r with exported := some s }) =
        (rs.modify index fun r => { r with exported := some s }).map Resource.declared := by
    intro rs
    refine List.ext_getElem? fun n => ?_
    rw [List.getElem?_modify, List.getElem?_map, List.getElem?_map, List.getElem?_modify, Option.map_eq_map,
      Option.map_map, Option.map_map]
    refine Option.map_congr fun r _ => ?_
    simp only [Function.comp]
    split <;> rfl
  unfold export?
  rw [contains_declared]
  split
  · rw [Option.map_some, Option.some_inj]
    cases kind
    · exact congrArg (Both.mk · _) (hmodify _)
    · exact congrArg (Both.mk _) (hmodify _)
  · rfl

theorem declared_setup (kind : PassKind) (g : Registry) (calls : List SetupCall) :
    Setup.run kind g.declared calls = ((Setup.run kind g calls).1.declared, (Setup.run kind g calls).2) := by
  induction calls generalizing g with
  | nil => rfl
  | cons call rest ih =>
    have haspect : ∀ h, Setup.depthAspect g.declared h = Setup.depthAspect g h := by
      intro h
      rw [Setup.depthAspect, Setup.depthAspect, find?, find?, get_declared, List.getElem?_map]
      cases (g.get .texture)[h.index]? <;> rfl
    have husage : Setup.usage? g.declared call = Setup.usage? g call := by
      cases call <;> simp only [Setup.usage?, haspect]
    have hreply : Setup.reply kind g.declared call =
        ((Setup.reply kind g call).1.declared, (Setup.reply kind g call).2) := by
      cases call with
      | create k d =>
        have hnew := g.declared_register (k := k) fun i =>
          (rfl : (Resource.new ((k.label d).getD (k.noun ++ "_" ++ toString i)) d none .undefined).declared = _)
        simp only [Setup.reply, create, hnew]
      | access _ _ _ => rfl
      | writeDepth _ => rfl
      | readDepth _ => rfl
      | kind => rfl
    simp only [Setup.run, husage, hreply, ih, contains_declared]

end Registry

namespace Graph

theorem declared_invalidate (g : Graph) : g.invalidate.declared = g.declared := by
  unfold invalidate
  split
  · simp only [declared, Registry.declared_rewind, List.map_map]
    rfl
  · rfl

/-- **Forgetting the history and declaring more commute.** -/
theorem declared_declare (g : Graph) (d : Declaration) : (g.declare d).declared = g.declared.declare d := by
  -- the plan is discarded first, and the graph as it was declared has none
  have hplain : g.declared.invalidate = g.invalidate.declared := g.declared_invalidate.symm
  cases d with
  | create k d =>
    have hnew := g.invalidate.registry.declared_register (k := k) fun i =>
      (rfl : (Resource.new ((k.label d).getD (k.noun ++ "_" ++ toString i)) d none .undefined).declared = _)
    rw [declare, declare, create, create, hplain]
    exact congrArg (fun x : Registry × Handle k => { g.invalidate.declared with registry := x.1 }) hnew.symm
  | importNative k native d s =>
    have hnew := g.invalidate.registry.declared_register (k := k) fun i =>
      (rfl : (Resource.new ((k.label d).getD ("imported_" ++ k.noun ++ "_" ++ toString i)) d (some ⟨native, none⟩)
        s).declared = _)
    rw [declare, declare, importNative, importNative, hplain]
    exact congrArg (fun x : Registry × Handle k => { g.invalidate.declared with registry := x.1 }) hnew.symm
  | exportState h s =>
    have hexport : g.declared.registry.export? h.key s = (g.registry.export? h.key s).map Registry.declared :=
      g.registry.declared_export h.key s
    rw [declare, declare, exportState, exportState, hexport]
    cases g.registry.export? h.key s with
    | none => rfl
    | some registry => exact declared_invalidate { g with registry }
  | addPass name kind setup callback =>
    have hsetup := g.invalidate.registry.declared_setup kind setup
    have hsetup' : Setup.run kind g.invalidate.declared.registry setup = _ := hsetup
    rw [declare, declare, addPass, addPass, hplain, hsetup']
    simp only [declared, List.map_append, List.map_cons, List.map_nil]
    rfl

theorem declared_afterRun (g : Graph) : g.afterRun.declared = g.declared := by
  have hpasses : g.afterRun.passes.map Pass.afresh = g.passes.map Pass.afresh := by
    refine List.ext_getElem? fun i => ?_
    rw [Graph.afterRun, List.getElem?_map, List.getElem?_map, List.getElem?_mapIdx, Option.map_map]
    rfl
  exact congrArg (fun passes => { g.declared with passes }) hpasses

variable {g g' : Graph} {dev : Device σ} {s s' : σ} {answer : Except AllocationError Stats}

/-- compiling changes the object, the tracked states and the writers of a record, and nothing else -/
theorem map_compile {α : Type} {q : Resource k → α}
    (hq : ∀ (r : Resource k) backing tracker writers, q { r with backing, tracker, writers } = q r)
    (hc : g.compile dev s = .ok (g', answer, s')) : (g'.registry.get k).map q = (g.registry.get k).map q := by
  have hback := Registry.map_back hq dev s g.registry
  cases answer with
  | error e =>
    rw [compile_error_inv hc]
    exact hback
  | ok stats =>
    obtain ⟨registry, plan, hb, hp, rfl⟩ := compile_inv hc
    obtain ⟨needed, after, raw, merged, final, removed, dropped, -, hs, -, -, rfl⟩ := compilePasses_eq_ok_iff.1 hp
    rw [hb] at hback
    exact (map_planned (fun r => hq r r.backing) hs).trans hback

/-- what a record was declared as, its object apart -/
theorem declared_congr {r r' : Resource k} (h : { r'.declared with backing := none } = { r.declared with backing := none })
    (hb : r.imported = true → r'.backing = r.backing) : r'.declared = r.declared := by
  simp only [Resource.declared, Resource.afresh, Resource.new, Resource.mk.injEq, true_and] at h ⊢
  obtain ⟨hname, hdescriptor, himported, hinitial, hexported, htracker, -⟩ := h
  refine ⟨hname, hdescriptor, ?_, himported, hinitial, hexported, htracker, trivial⟩
  rw [himported]
  split
  · exact hb ‹_›
  · rfl

/-- compiling keeps what has been declared, whether it succeeds or not -/
theorem declared_compile (h : g.registry.Coherent) (hc : g.compile dev s = .ok (g', answer, s')) :
    g'.declared = g.declared := by
  have hregistry : g'.registry.declared = g.registry.declared := by
    refine Registry.ext_getElem? fun k n => ?_
    have hmap := congrArg (·[n]?) (map_compile (k := k) (q := fun r => { r.declared with backing := none })
      (fun _ _ _ _ => rfl) hc)
    simp only [List.getElem?_map] at hmap
    rw [Registry.get_declared, Registry.get_declared, List.getElem?_map, List.getElem?_map]
    cases hr : (g.registry.get k)[n]? with
    | none =>
      rw [hr] at hmap
      rw [Option.map_eq_none_iff.1 hmap]
    | some r =>
      obtain ⟨r', hr', -, hb⟩ := (extends_compile hc).kept ⟨k, n⟩ r hr
      have hr' : (g'.registry.get k)[n]? = some r' := hr'
      rw [hr, hr', Option.map_some, Option.map_some, Option.some_inj] at hmap
      rw [hr', Option.map_some, Option.map_some, declared_congr hmap fun himported => ?_]
      -- an imported resource comes with its object
      obtain ⟨a, ha⟩ := Option.isSome_iff_exists.1 ((h k r (List.mem_of_getElem? hr)).imported himported)
      rw [hb, ha, Option.some_or]
  have hpasses : g'.settings = g.settings ∧ g'.passes.map Pass.afresh = g.passes.map Pass.afresh := by
    cases answer with
    | error e =>
      rw [compile_error_inv hc]
      exact ⟨rfl, rfl⟩
    | ok stats =>
      obtain ⟨registry, plan, -, hp, rfl⟩ := compile_inv hc
      exact ⟨rfl, afresh_compilePasses hp⟩
  rw [declared, declared, hregistry, hpasses.1, hpasses.2]

/-- the graph that declarations make of an empty one -/
def ofDeclarations (settings : Settings) (ds : List Declaration) : Graph := ds.foldl Graph.declare (new settings)

/-- **The declarations of a history, made on an empty graph, give the graph as it was declared.** -/
theorem Runs.declared {settings : Settings} {ds : List Declaration} {calls : List (Key × CreateCall)}
    (h : (new settings).Runs ds calls g) : g.declared = ofDeclarations settings ds := by
  induction h with
  | start => rfl
  | @declare ds calls g d _ ih =>
    rw [declared_declare, ih, ofDeclarations, ofDeclarations, List.foldl_append, List.foldl_cons, List.foldl_nil]
  | compile hr hc ih => rw [declared_compile (hr.built (.new settings)).coherent hc, ih]
  | @afterRun ds calls g _ ih => rw [declared_afterRun, ih]

end Graph

/-! ## The same objects, the same plan -/

namespace Resource

variable {dev : Device σ} {s s' : σ} {τ : Type} {dev' : Device τ} {t : τ}

theorem wanted_cons (r : Resource k) (rs : List (Resource k)) :
    wanted (r :: rs) = if r.unbacked then (r.name, ⟨k, r.descriptor⟩) :: wanted rs else wanted rs := by
  rw [wanted, List.filter_cons]
  split <;> rfl

/-- backing a record of the graph's own leaves it with an object -/
theorem back_of_own {r q : Resource k} (himported : r.imported = false) (hq : r.back dev s = (.ok q, s')) :
    ∃ a, q = { r with backing := some a } := by
  cases hbacking : r.backing with
  | none =>
    have hu : r.unbacked = true := by rw [unbacked, himported, hbacking]; rfl
    rw [back, if_pos hu] at hq
    split at hq
    · rename_i a s₁ _
      cases hq
      exact ⟨a, rfl⟩
    · cases hq
  | some a =>
    have hu : r.unbacked = false := by rw [unbacked, himported, hbacking]; rfl
    rw [back_of_backed hu] at hq
    cases hq
    exact ⟨a, by rw [← hbacking]⟩

/-- records as they were declared end up the same if they are given the same objects -/
theorem backAll_declared {rs rs' : List (Resource k)} {ws : List (String × Request)}
    {rest : List (Except DeviceError Allocation)} (h : ∀ r ∈ rs, r.Coherent) (hb : backAll dev s rs = (rs', none, s'))
    (hsame : (dev'.ask t (wanted (rs.map declared) ++ ws)).1.map CreateCall.answer =
      (ownObjects rs').map Except.ok ++ rest) :
    ∃ t', backAll dev' t (rs.map declared) = (rs', none, t') ∧ (dev'.ask t' ws).1.map CreateCall.answer = rest := by
  induction rs generalizing s t rs' with
  | nil =>
    cases hb
    exact ⟨t, rfl, hsame⟩
  | cons r rs ih =>
    obtain ⟨hr, hrs⟩ := List.forall_mem_cons.1 h
    obtain ⟨q, s₁, qs, hq, hqs, rfl⟩ := backAll_cons_eq_ok.1 hb
    rw [List.map_cons, wanted_cons] at hsame
    cases himported : r.imported with
    | true =>
      have hu : r.unbacked = false := by rw [unbacked, himported]; rfl
      have hu' : r.declared.unbacked = false := by rw [unbacked, declared, afresh, himported]; rfl
      have hfresh : r.declared.fresh = r.fresh := by
        rw [declared, himported, if_pos rfl]
        exact fresh_afresh hr r.backing
      rw [back_of_backed hu] at hq
      cases hq
      rw [hu', if_neg Bool.false_ne_true, ownObjects, List.filterMap_cons] at hsame
      simp only [fresh, rewind, himported, if_true] at hsame
      obtain ⟨t', ht, hrest⟩ := ih hrs hqs hsame
      exact ⟨t', backAll_cons_eq_ok.2 ⟨_, _, qs, back_of_backed hu', ht, by rw [hfresh]⟩, hrest⟩
    | false =>
      obtain ⟨a, rfl⟩ := back_of_own himported hq
      have hu : r.declared.unbacked = true := by rw [unbacked, declared, afresh, himported]; rfl
      have hfresh : Resource.fresh { r.declared with backing := some a } = Resource.fresh { r with backing := some a } :=
        fresh_afresh hr (some a)
      rw [hu, if_pos rfl, ownObjects, List.filterMap_cons] at hsame
      simp only [fresh, rewind, himported, Bool.false_eq_true, if_false] at hsame
      obtain ⟨answer, t₁, ha⟩ : ∃ answer t₁, dev'.respond t ⟨k, r.declared.descriptor⟩ = (answer, t₁) := ⟨_, _, rfl⟩
      cases answer with
      | error e =>
        rw [List.cons_append, Device.ask_cons_error ha] at hsame
        cases (List.cons.inj hsame).1
      | ok b =>
        rw [List.cons_append, Device.ask_cons_ok ha, List.map_cons, List.map_cons, List.cons_append] at hsame
        obtain ⟨hfirst, hothers⟩ := List.cons.inj hsame
        cases hfirst
        obtain ⟨t', ht, hrest⟩ := ih hrs hqs hothers
        have hback : r.declared.back dev' t = (.ok { r.declared with backing := some a }, t₁) := by
          rw [back, if_pos hu, ha]
        exact ⟨t', backAll_cons_eq_ok.2 ⟨_, _, qs, hback, ht, by rw [hfresh]⟩, hrest⟩

end Resource

/-- a registry as it was declared ends up the same if it is given the same objects -/
theorem Registry.back_declared {g g' : Registry} {dev : Device σ} {s s' : σ} {τ : Type} {dev' : Device τ} {t : τ}
    (h : g.Coherent) (hb : g.back dev s = (g', none, s'))
    (hsame : (dev'.ask t g.declared.wanted).1.map CreateCall.answer = g'.ownObjects.map Except.ok) :
    ∃ t', g.declared.back dev' t = (g', none, t') := by
  obtain ⟨s₁, ht, hbuf⟩ := back_inv hb
  rw [ownObjects, List.map_append] at hsame
  obtain ⟨t₁, ht', hrest⟩ := Resource.backAll_declared (h .texture) ht hsame
  rw [← List.append_nil (Resource.wanted g.declared.buffers), ← List.append_nil ((Resource.ownObjects _).map _)] at hrest
  obtain ⟨t₂, hbuf', -⟩ := Resource.backAll_declared (h .buffer) hbuf hrest
  exact ⟨t₂, back_of_backAll ht' hbuf'⟩

namespace Graph

variable {g g' : Graph} {dev : Device σ} {s s' : σ} {stats : Stats}

/-- **With the same objects, the graph as it was declared compiles to the same plan.** -/
theorem compile_declared (h : g.Built) (hc : g.compile dev s = .ok (g', .ok stats, s')) {τ : Type} {dev' : Device τ}
    {t : τ} (hsame : (g.declared.createCalls dev' t).map CreateCall.answer = g'.registry.ownObjects.map Except.ok) :
    ∃ t', g.declared.compile dev' t = .ok (g'.unrun, .ok stats, t') := by
  obtain ⟨registry, plan, hb, hp, rfl⟩ := compile_inv hc
  rw [compile_of_back hb, hp] at hc
  cases hc
  have hobjects : plan.registry.ownObjects = registry.ownObjects := by
    obtain ⟨needed, after, raw, merged, final, removed, dropped, -, hs, -, -, rfl⟩ := compilePasses_eq_ok_iff.1 hp
    have hown : ∀ k, Resource.ownObjects (after.get k) = Resource.ownObjects (registry.get k) := by
      intro k
      have hmap := map_planned (k := k) (q := fun r => if r.imported then none else r.backing) (fun _ _ _ => rfl) hs
      have hfilter := congrArg (List.filterMap id) hmap
      rwa [List.filterMap_map, List.filterMap_map] at hfilter
    have htextures : Resource.ownObjects after.textures = Resource.ownObjects registry.textures := hown .texture
    have hbuffers : Resource.ownObjects after.buffers = Resource.ownObjects registry.buffers := hown .buffer
    rw [Registry.ownObjects, Registry.ownObjects, ← htextures, ← hbuffers]
    rfl
  have hsame : (dev'.ask t g.registry.declared.wanted).1.map CreateCall.answer = registry.ownObjects.map Except.ok :=
    hsame.trans (by rw [hobjects])
  obtain ⟨t', hback⟩ := Registry.back_declared h.coherent hb hsame
  have hsettings : g.declared.settings = g.settings := rfl
  have hpasses : g.declared.passes.map Pass.afresh = g.passes.map Pass.afresh := map_afresh_afresh g.passes
  have hsingle := compile_of_unrun runs_of_afresh hback hsettings hpasses hp
  exact ⟨t', hsingle⟩

/-- **A resource of the graph's own is allocated exactly once,** however declarations, compiles on devices that fail and
runs follow one another. It keeps its object; a compile asks for what is still missing, in registration order, until a
call is refused; and one that gets through leaves the plan of a graph that was declared the same, was never compiled
before and is given the same objects. -/
theorem allocation_exactly_once {settings : Settings} {ds : List Declaration} {calls : List (Key × CreateCall)}
    (h : (new settings).Runs ds calls g) :
    g.AllocatedOnce calls ∧
      (∀ (ds' : List Declaration) (more : List (Key × CreateCall)) (g' : Graph), g.Runs ds' more g' →
        ∀ (key : Key) (r : Resource key.kind) (a : Allocation), g.registry.record? key = some r → r.backing = some a →
          ∃ r', g'.registry.record? key = some r' ∧ r'.identity = r.identity ∧ r'.backing = some a) ∧
      (∀ (σ : Type) (dev : Device σ) (s : σ), g.AsksInOrder dev s) ∧
      ∀ (σ : Type) (dev : Device σ) (s s' : σ) (g' : Graph) (stats : Stats),
        g.compile dev s = .ok (g', .ok stats, s') →
          (∀ key, key ∈ (g.creations dev s).map Prod.fst ↔
            ∃ r, g.registry.record? key = some r ∧ r.imported = false ∧ r.backing = none) ∧
          ∀ (τ : Type) (dev' : Device τ) (t : τ),
            ((ofDeclarations settings ds).createCalls dev' t).map CreateCall.answer =
                g'.registry.ownObjects.map Except.ok →
              ∃ t', (ofDeclarations settings ds).compile dev' t = .ok (g'.unrun, .ok stats, t') := by
  refine ⟨h.allocatedOnce, fun ds' more g' hr key r a hrecord ha => hr.backing_kept hrecord ha,
    fun σ dev s => g.asksInOrder dev s, fun σ dev s s' g' stats hc => ⟨fun key => ?_, fun τ dev' t hsame => ?_⟩⟩
  · have haccepted : ∀ c ∈ g.creations dev s, c.2.error? = none := by
      intro c hm
      cases he : c.2.error? with
      | none => rfl
      | some e =>
        have hcall : c.2 ∈ g.createCalls dev s := g.creations_snd dev s ▸ List.mem_map_of_mem hm
        obtain ⟨g'', s'', hc'⟩ := compile_error_iff.2 ⟨c.2, hcall, he⟩
        rw [hc] at hc'
        cases hc'
    rw [(g.asksInOrder dev s).all haccepted]
    exact Registry.mem_missing
  · rw [← h.declared] at hsame ⊢
    exact compile_declared (h.built (.new settings)) hc hsame

/-- a texture, a buffer, a pass that writes both, and the buffer to be left for copying -/
def retried : List Declaration :=
  [.create .texture TextureDescriptor.blank, .create .buffer ⟨none, 8, 0#_, 0⟩,
    .addPass "fill" .compute [.access ⟨.texture, ⟨0, none⟩⟩ .unorderedAccess .write,
      .access ⟨.buffer, ⟨0, none⟩⟩ .unorderedAccess .write] fun _ => [],
    .exportState ⟨.buffer, ⟨0, none⟩⟩ .copySource]

/-- a device that fails after the texture: the next compile asks for the buffer only, and leaves the plan of a graph that
never failed -/
theorem allocation_exactly_once_retried : ∃ (g g' : Graph) (e : AllocationError) (stats : Stats) (s s' s'' : CountingDevice),
    (ofDeclarations {} retried).compile CountingDevice.device (({} : CountingDevice).failAfter 1 .outOfMemory) =
        .ok (g, .error e, s) ∧
      g.compile CountingDevice.device { next := 0x1001 } = .ok (g', .ok stats, s') ∧
      (∀ key, key ∈ (g.creations CountingDevice.device { next := 0x1001 }).map Prod.fst ↔
        ∃ r, g.registry.record? key = some r ∧ r.imported = false ∧ r.backing = none) ∧
      (g.creations CountingDevice.device { next := 0x1001 }).map Prod.fst = [⟨.buffer, 0⟩] ∧
      (ofDeclarations {} retried).compile CountingDevice.device {} = .ok (g'.unrun, .ok stats, s'') := by
  have h : (match (ofDeclarations {} retried).compile CountingDevice.device
        (({} : CountingDevice).failAfter 1 .outOfMemory) with
      | .ok (g, .error _, _) =>
        match g.compile CountingDevice.device { next := 0x1001 } with
        | .ok (g', .ok _, _) =>
          decide ((g.creations CountingDevice.device { next := 0x1001 }).map Prod.fst = [⟨.buffer, 0⟩]) &&
            decide (((ofDeclarations {} retried).createCalls CountingDevice.device {}).map CreateCall.answer =
              g'.registry.ownObjects.map Except.ok)
        | _ => false
      | _ => false) = true := by decide +kernel
  split at h
  · rename_i g e s hfailed
    split at h
    · rename_i g' stats s' hc
      rw [Bool.and_eq_true, decide_eq_true_eq, decide_eq_true_eq] at h
      have hruns : (new {}).Runs retried
          ([] ++ (ofDeclarations {} retried).creations CountingDevice.device (({} : CountingDevice).failAfter 1 .outOfMemory))
          g :=
        .compile (.declare _ (.declare _ (.declare _ (.declare _ .start)))) hfailed
      obtain ⟨hasked, hplan⟩ := (allocation_exactly_once hruns).2.2.2 _ _ _ _ _ _ hc
      obtain ⟨s'', hsame⟩ := hplan _ _ _ h.2
      exact ⟨g, g', e, stats, s, s', s'', hfailed, hc, hasked, h.1, hsame⟩
    · cases h
  · cases h

end Graph

end FrameGraph
